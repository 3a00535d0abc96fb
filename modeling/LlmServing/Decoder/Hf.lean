import LlmServing.Decoder.Emit
import LlmServing.Engine.Reference
import LlmServing.Lib.Visits

/-!
# The engine on the model's own cache

`_forward_hf` with its sampler: one call of the model for each entry, and the logits of its last token
for each entry that owes one. What a call gives is a function of the tokens its cache has been fed.
-/

namespace LlmServing.Decoder

open Scheduling Runner Engine Lib

section

variable {vocab : Nat} [NeZero vocab] (call : List Token → Row vocab)

def callEntry (st : Caches × List (Sequence × Row vocab)) :
    BatchEntry × Sequence → Caches × List (Sequence × Row vocab)
  | (entry, seq) =>
      let fed := st.1 seq.seqId ++ entryTokenIds entry seq
      (Function.update st.1 seq.seqId fed,
        st.2 ++ if owesToken entry seq then [(seq, call fed)] else [])

omit [NeZero vocab] in
theorem map_fst_callEntry (pairs : List (BatchEntry × Sequence))
    (st : Caches × List (Sequence × Row vocab)) :
    (pairs.foldl (callEntry call) st).2.map (·.1) =
      st.2.map (·.1) ++ (pairs.filter fun (entry, seq) => owesToken entry seq).map (·.2) := by
  induction pairs generalizing st with
  | nil => simp
  | cons pair rest ih =>
      obtain ⟨entry, seq⟩ := pair
      rw [List.foldl_cons, ih]
      cases owes : owesToken entry seq with
      | false => simp [callEntry, owes]
      | true => simp [callEntry, owes]

/-- The calls of `_forward_hf`, and its `emit_tokens`. -/
def forwardCalls (softmax : Softmax vocab) (sort : Descending vocab) (eosTokenIds : List Token)
    (plan : BatchPlan) (seqs : List Sequence) (before : Caches) (results : IterationResults)
    (after : Caches) : Prop :=
  let called := (batch plan seqs).foldl (callEntry call) (before, [])
  after = called.1 ∧
  if called.2 = [] then results = []
  else Emitted softmax sort eosTokenIds (fun i : Fin called.2.length => (called.2.get i).2)
    (called.2.map (·.1)) results

theorem exists_forwardCalls (softmax : Softmax vocab) (sort : Descending vocab) (eosTokenIds : List Token)
    (plan : BatchPlan) (seqs : List Sequence) (before : Caches) :
    ∃ results after, forwardCalls call softmax sort eosTokenIds plan seqs before results after := by
  let called := (batch plan seqs).foldl (callEntry call) (before, [])
  by_cases none : called.2 = []
  · exact ⟨[], called.1, rfl, by rw [if_pos none]⟩
  · obtain ⟨results, emitted⟩ := exists_emitted softmax sort eosTokenIds
      (fun i : Fin called.2.length => (called.2.get i).2) (called.2.map (·.1)) (List.length_map _).le
    exact ⟨results, called.1, rfl, by rw [if_neg none]; exact emitted⟩

theorem forwardCalls_emits {softmax : Softmax vocab} {sort : Descending vocab} {eos : List Token}
    {plan : BatchPlan} {seqs : List Sequence} {before after : Caches} {results : IterationResults}
    (computed : forwardCalls call softmax sort eos plan seqs before results after) :
    ∃ tokens : List Token, tokens.length = (owed plan seqs).length ∧
      results = emitTokens eos (owed plan seqs) tokens := by
  obtain ⟨-, emitted⟩ := computed
  have named : ((batch plan seqs).foldl (callEntry call) (before, [])).2.map (·.1) =
      owed plan seqs := map_fst_callEntry call _ _
  split at emitted
  · rename_i none
    rw [none] at named
    exact ⟨[], by rw [← named]; rfl, by rw [← named, emitted]; rfl⟩
  · rw [← named]
    exact emitted.emits

def hfDecoder (softmax : Softmax vocab) (sort : Descending vocab) (eosTokenIds : List Token) :
    ModelRunner Caches where
  eosTokenIds
  forward plan seqs before outcome after :=
    match outcome with
    | .results results => forwardCalls call softmax sort eosTokenIds plan seqs before results after
    | .failed | .deviceLost => ∀ id ∉ plan.ids, after id = before id
  free id caches := Function.update caches id []
  emits := forwardCalls_emits call

end

section

variable {vocab : Nat} [NeZero vocab] {call : List Token → Row vocab} {softmax : Softmax vocab}
  {sort : Descending vocab} {eos : List Token} {plan : BatchPlan} {seqs : List Sequence}
  {entry : BatchEntry} {seq : Sequence}

omit [NeZero vocab] in
theorem foldl_callEntry {pairs : List (BatchEntry × Sequence)}
    (distinct : (pairs.map (·.2.seqId)).Nodup) (st : Caches × List (Sequence × Row vocab)) :
    (∀ pair ∈ pairs, (pairs.foldl (callEntry call) st).1 pair.2.seqId =
        st.1 pair.2.seqId ++ entryTokenIds pair.1 pair.2) ∧
      (∀ id ∉ pairs.map (·.2.seqId), (pairs.foldl (callEntry call) st).1 id = st.1 id) ∧
      (pairs.foldl (callEntry call) st).2 = st.2 ++ pairs.flatMap fun pair =>
        if owesToken pair.1 pair.2 then
          [(pair.2, call (st.1 pair.2.seqId ++ entryTokenIds pair.1 pair.2))] else [] := by
  have rounds : callEntry call = visit (fun pair : BatchEntry × Sequence => pair.2.seqId)
      (fun pair fed => fed ++ entryTokenIds pair.1 pair.2)
      fun pair fed => if owesToken pair.1 pair.2 then [(pair.2, call fed)] else [] := by
    funext st pair
    rfl
  rw [rounds]
  exact ⟨fun pair member => foldl_visit_own distinct st member,
    fun id absent => foldl_visit_others pairs st absent, foldl_visit_emitted distinct st⟩

theorem callMemory_clear (seq : Sequence) : [] = seq.tokens.take 0 := List.take_zero.symm

theorem callMemory_congr {fed : List Token} {seq seq' : Sequence} {n : Nat}
    (holds : fed = seq.tokens.take n) (tokens : seq'.tokens.take n = seq.tokens.take n) :
    fed = seq'.tokens.take n := holds.trans tokens.symm

def callMemory (call : List Token → Row vocab) (softmax : Softmax vocab) (sort : Descending vocab)
    (eos : List Token) : Memory (hfDecoder call softmax sort eos) (List Token) where
  view caches := caches
  clear := []
  Holds fed seq n := fed = seq.tokens.take n
  view_free caches freed id := by
    by_cases same : id = freed
    · simp [hfDecoder, same]
    · simp [hfDecoder, same]
  others {plan seqs before after outcome} computed ok id absent := by
    cases outcome with
    | results results =>
        obtain ⟨rfl, -⟩ := computed
        exact (foldl_callEntry ok.distinct _).2.1 id (map_seqId_batch ok.present ▸ absent)
    | failed | deviceLost => exact computed id absent
  fed {plan seqs before after results entry seq} computed ok member holds := by
    obtain ⟨rfl, -⟩ := computed
    rw [(foldl_callEntry ok.distinct _).1 _ member]
    dsimp only
    rw [holds, (ok.bookkept _ member).entryTokenIds]
    exact Sequence.take_append_slice _ _ _ (Nat.sub_le _ _)
  holds_clear := callMemory_clear
  holds_congr holds _ _ := callMemory_congr holds

omit [NeZero vocab] in
theorem called_tokens (ok : BatchOk plan seqs) {caches : Caches}
    (fed : ∀ pair ∈ batch plan seqs,
      caches pair.2.seqId = pair.2.tokens.take (cachedBefore pair.1 pair.2)) :
    ∀ row ∈ ((batch plan seqs).foldl (callEntry call) (caches, [])).2,
      ∃ pair ∈ batch plan seqs, row = (pair.2, call pair.2.tokens) := by
  rw [(foldl_callEntry ok.distinct _).2.2, List.nil_append]
  intro row member
  obtain ⟨⟨entry, seq⟩, inBatch, here⟩ := List.mem_flatMap.mp member
  dsimp only at here
  split at here
  · rename_i owes
    have bookkept : RunningOk (some entry) seq := ok.bookkept _ inBatch
    have whole : caches seq.seqId ++ entryTokenIds entry seq = seq.tokens := by
      rw [fed _ inBatch, bookkept.entryTokenIds]
      refine (Sequence.take_append_slice _ _ _ (Nat.sub_le _ _)).trans ?_
      rw [(bookkept.owes owes).2, ← Sequence.length_tokens, List.take_length]
    rw [whole] at here
    exact ⟨_, inBatch, List.mem_singleton.mp here⟩
  · cases here

theorem draws_hf {α : Type} : Draws eos (Likely call softmax sort) (hfDecoder call softmax sort eos)
    (Remembered (α := α) (callMemory call softmax sort eos)) := by
  intro s flight results after ok remembered inFlight pending computed result named
  obtain ⟨-, emitted⟩ := computed
  have fed : ∀ pair ∈ batch flight.plan flight.seqs,
      s.runner pair.2.seqId = pair.2.tokens.take (cachedBefore pair.1 pair.2) := by
    rintro ⟨entry, seq⟩ member
    obtain ⟨running, -, found⟩ := mem_flight_batch ok inFlight member
    have here := remembered.running (ok.serving_of_flight inFlight) seq running
    rw [inFlight] at here
    simp only [MemoryOk, pending, found] at here
    exact here
  split at emitted
  · rw [emitted] at named
    cases named
  · obtain ⟨i, inside, seq, token, here, same, weight⟩ := emitted.likely named
    rw [List.getElem?_map, List.getElem?_eq_getElem inside, Option.map_some,
      Option.some.injEq] at here
    obtain ⟨pair, inBatch, row⟩ :=
      called_tokens (ok.batchOk inFlight) fed _ (List.getElem_mem inside)
    simp only [List.get_eq_getElem, row] at here weight
    subst here
    exact ⟨pair.2, (mem_flight_batch ok inFlight inBatch).1, token, same, token, rfl, weight⟩

end

variable {vocab : Nat} [NeZero vocab] {call : List Token → Row vocab} {softmax : Softmax vocab}
  {sort : Descending vocab} {eos : List Token} {scheduler : Scheduler} {α : Type} [KVAllocator α]

theorem genuine_hf {allocator : α} {s : EngineState α Caches}
    (reachable : (loop (hfDecoder call softmax sort eos) scheduler allocator fun _ => []).Reachable s) :
    Genuine eos (Likely call softmax sort) s :=
  genuine_reachable draws_hf
    (fun _ reachable => remembered (callMemory call softmax sort eos) (fun _ => rfl) reachable)
    reachable

end LlmServing.Decoder
