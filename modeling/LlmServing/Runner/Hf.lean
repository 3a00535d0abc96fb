import LlmServing.Runner.ModelRunner
import Mathlib.Logic.Function.Basic

/-!
# The path of the model's own cache

`_forward_hf`: one call of the model for each entry, its key-value cache extended by exactly the
entry's tokens. Under greedy sampling the token a call gives is a function `next` of the tokens the
cache has been fed.
-/

namespace LlmServing.Runner

open Scheduling

/-- `_past_key_values`, each cache as the tokens fed to it. -/
abbrev Caches := SeqId → List Token

def feedEntry (next : List Token → Token) (st : Caches × List Token) :
    BatchEntry × Sequence → Caches × List Token
  | (entry, seq) =>
      let fed := st.1 seq.seqId ++ entryTokenIds entry seq
      (Function.update st.1 seq.seqId fed,
        if owesToken entry seq then st.2 ++ [next fed] else st.2)

def forwardHf (next : List Token → Token) (plan : BatchPlan) (seqs : List Sequence)
    (caches : Caches) : Caches × List Token :=
  (batch plan seqs).foldl (feedEntry next) (caches, [])

theorem length_foldl_feedEntry (next : List Token → Token) (pairs : List (BatchEntry × Sequence))
    (st : Caches × List Token) :
    (pairs.foldl (feedEntry next) st).2.length =
      st.2.length + (pairs.filter fun (entry, seq) => owesToken entry seq).length := by
  induction pairs generalizing st with
  | nil => rfl
  | cons pair rest ih =>
      obtain ⟨entry, seq⟩ := pair
      rw [List.foldl_cons, ih]
      by_cases owes : owesToken entry seq = true
      · simp [feedEntry, owes]
        omega
      · simp [feedEntry, owes]

theorem length_forwardHf (next : List Token → Token) (plan : BatchPlan) (seqs : List Sequence)
    (caches : Caches) : (forwardHf next plan seqs caches).2.length = (owed plan seqs).length := by
  simp [forwardHf, owed, length_foldl_feedEntry]

theorem foldl_feedEntry (next : List Token → Token) (pairs : List (BatchEntry × Sequence))
    (st : Caches × List Token) (distinct : (pairs.map (·.2.seqId)).Nodup) :
    (∀ pair ∈ pairs, (pairs.foldl (feedEntry next) st).1 pair.2.seqId =
        st.1 pair.2.seqId ++ entryTokenIds pair.1 pair.2) ∧
      (∀ id ∉ pairs.map (·.2.seqId), (pairs.foldl (feedEntry next) st).1 id = st.1 id) ∧
      (pairs.foldl (feedEntry next) st).2 = st.2 ++
        (pairs.filter fun (entry, seq) => owesToken entry seq).map
          fun pair => next (st.1 pair.2.seqId ++ entryTokenIds pair.1 pair.2) := by
  induction pairs generalizing st with
  | nil => simp
  | cons pair rest ih =>
      obtain ⟨entry, seq⟩ := pair
      rw [List.map_cons, List.nodup_cons] at distinct
      obtain ⟨fed, others, tokens⟩ := ih (feedEntry next st (entry, seq)) distinct.2
      have same (id : SeqId) (other : id ≠ seq.seqId) :
          (feedEntry next st (entry, seq)).1 id = st.1 id := Function.update_of_ne other _ _
      have apart : ∀ pair ∈ rest, pair.2.seqId ≠ seq.seqId := fun pair member equal =>
        distinct.1 (equal ▸ List.mem_map.mpr ⟨pair, member, rfl⟩)
      refine ⟨fun pair member => ?_, fun id absent => ?_, ?_⟩
      · rcases List.mem_cons.mp member with rfl | member
        · exact (others _ distinct.1).trans (Function.update_self _ _ _)
        · rw [List.foldl_cons, fed pair member, same _ (apart pair member)]
      · simp only [List.map_cons, List.mem_cons, not_or] at absent
        exact (others id absent.2).trans (same id absent.1)
      · have later : ((rest.filter fun (entry, seq) => owesToken entry seq).map
              fun pair => next ((feedEntry next st (entry, seq)).1 pair.2.seqId ++
                entryTokenIds pair.1 pair.2)) =
            (rest.filter fun (entry, seq) => owesToken entry seq).map
              fun pair => next (st.1 pair.2.seqId ++ entryTokenIds pair.1 pair.2) :=
          List.map_congr_left fun pair member => by
            rw [same _ (apart pair (List.mem_of_mem_filter member))]
        rw [List.foldl_cons, tokens, later]
        by_cases owes : owesToken entry seq = true
        · simp [feedEntry, owes]
        · simp [feedEntry, owes]

structure Fed (next : List Token → Token) (eosTokenIds : List Token) (plan : BatchPlan)
    (seqs : List Sequence) (before : Caches) (results : IterationResults) (after : Caches) :
    Prop where
  fed : ∀ pair ∈ batch plan seqs,
    after pair.2.seqId = before pair.2.seqId ++ entryTokenIds pair.1 pair.2
  others : ∀ id ∉ plan.ids, after id = before id
  results : ∀ result ∈ results, ∃ pair ∈ batch plan seqs, owesToken pair.1 pair.2 = true ∧
    result = emitToken eosTokenIds pair.2 (next (before pair.2.seqId ++
      entryTokenIds pair.1 pair.2))

theorem forwardHf_fed (next : List Token → Token) (eosTokenIds : List Token) {plan : BatchPlan}
    {seqs : List Sequence} (present : ∀ id ∈ plan.ids, id ∈ seqs.map (·.seqId))
    (entries : plan.ids.Nodup) (caches : Caches) :
    Fed next eosTokenIds plan seqs caches
      (emitTokens eosTokenIds (owed plan seqs) (forwardHf next plan seqs caches).2)
      (forwardHf next plan seqs caches).1 := by
  have ids := map_seqId_batch present
  obtain ⟨fed, others, tokens⟩ := foldl_feedEntry next (batch plan seqs) (caches, [])
    (ids.symm ▸ entries)
  refine ⟨fed, fun id absent => others id (ids.symm ▸ absent), fun result member => ?_⟩
  rw [emitTokens, forwardHf, tokens, owed, List.nil_append, List.zipWith_map,
    List.zipWith_self] at member
  obtain ⟨pair, kept, rfl⟩ := List.mem_map.mp member
  obtain ⟨inBatch, owes⟩ := List.mem_filter.mp kept
  exact ⟨pair, inBatch, owes, rfl⟩

/-- A call that raises may leave anything in the caches of its own batch. -/
def hfRunner (eosTokenIds : List Token) (next : List Token → Token) : ModelRunner Caches where
  eosTokenIds
  forward plan seqs before outcome after :=
    match outcome with
    | .results results =>
        after = (forwardHf next plan seqs before).1 ∧
        results = emitTokens eosTokenIds (owed plan seqs) (forwardHf next plan seqs before).2
    | .failed | .deviceLost => ∀ id ∉ plan.ids, after id = before id
  free id caches := Function.update caches id []
  emits computed := ⟨_, length_forwardHf _ _ _ _, computed.2⟩

end LlmServing.Runner
