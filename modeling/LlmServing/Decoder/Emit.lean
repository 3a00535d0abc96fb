import LlmServing.Decoder.Batch
import LlmServing.Engine.Sampled

/-!
# From hidden rows to results

`emit_owed` and `emit_tokens` on the rows of an iteration: each owed token is drawn by the law of its
own request over the logits its own tokens have.
-/

namespace LlmServing.Decoder

open Scheduling Runner Engine Lib
open Paged (spans BatchReady)

/-- The weights a request's next token is drawn with, from its row of logits. -/
def law {vocab : Nat} [NeZero vocab] (softmax : Softmax vocab) (sort : Descending vocab)
    (logits : Row vocab) (params : SamplingParams) : Row vocab :=
  if params.temperature = 0 then fun token => if token = argmax logits then 1 else 0
  else rowWeight softmax sort logits params

/-- `emit_tokens`: `results` are tokens drawn with the choices that `sample_tokens` returns. -/
def Emitted {rows vocab : Nat} [NeZero vocab] (softmax : Softmax vocab) (sort : Descending vocab)
    (eos : List Token) (logits : Rows rows vocab) (owed : List Sequence)
    (results : IterationResults) : Prop :=
  ∃ (enough : owed.length ≤ rows) (choices : Fin owed.length → Choice vocab)
    (drawn : Fin owed.length → Fin vocab),
    emitChoices softmax sort logits owed enough = .ok choices ∧
    (∀ i, 0 < (choices i).weight (drawn i)) ∧
    results = emitTokens eos owed (List.ofFn fun i => (drawn i).val)

def owedRows (plan : BatchPlan) (seqs : List Sequence) (offsets : List (Nat × Nat)) :
    List (Sequence × Nat) :=
  ((batch plan seqs).zip offsets).filterMap fun ((entry, seq), _, stop) =>
    if owesToken entry seq then some (seq, stop - 1) else none

section

variable (m : Modules) (softmax : Softmax m.vocab) (sort : Descending m.vocab)
  (eos : List Token)

def EmitOwed (hidden : TokenRows m.Hidden) (plan : BatchPlan) (seqs : List Sequence)
    (offsets : List (Nat × Nat)) (results : IterationResults) : Prop :=
  let owed := owedRows plan seqs offsets
  if owed = [] then results = []
  else Emitted softmax sort eos (fun i : Fin owed.length => m.outputEmbeddings (hidden owed[i].2))
    (owed.map (·.1)) results

end

/-- `token` can be drawn after `tokens`, where these alone give `logits tokens`. -/
def Likely {vocab : Nat} [NeZero vocab] (logits : List Token → Row vocab) (softmax : Softmax vocab)
    (sort : Descending vocab) (params : SamplingParams) (tokens : List Token) (token : Token) : Prop :=
  ∃ id : Fin vocab, token = id ∧ 0 < law softmax sort (logits tokens) params id

theorem weight_of_choice {batch vocab : Nat} [NeZero vocab] {softmax : Softmax vocab}
    {sort : Descending vocab} {logits : Rows batch vocab} {params : Fin batch → SamplingParams}
    {choices : Fin batch → Choice vocab}
    (sampled : sampleTokens softmax sort logits params = .ok choices) (i : Fin batch) :
    (choices i).weight = law softmax sort (logits i) (params i) := by
  obtain ⟨_, same, rows⟩ := sampleTokens_eq softmax sort logits params
  obtain rfl := Except.ok.inj (sampled.symm.trans same)
  unfold law
  by_cases cold : (params i).temperature = 0
  · rw [if_pos cold, (rows i).1 cold]
    rfl
  · obtain ⟨weights, ids, choice, weight⟩ := (rows i).2 cold
    rw [if_neg cold, choice, weight]

theorem Emitted.likely {rows vocab : Nat} [NeZero vocab] {softmax : Softmax vocab}
    {sort : Descending vocab} {eos : List Token} {logits : Rows rows vocab} {owed : List Sequence}
    {results : IterationResults} (emitted : Emitted softmax sort eos logits owed results)
    {result : SeqId × Token × Bool} (member : result ∈ results) :
    ∃ (i : Nat) (row : i < rows) (seq : Sequence) (token : Fin vocab), owed[i]? = some seq ∧
      result = emitToken eos seq token ∧
      0 < law softmax sort (logits ⟨i, row⟩) seq.samplingParams token := by
  obtain ⟨enough, choices, drawn, sampled, possible, rfl⟩ := emitted
  obtain ⟨i, here⟩ := List.mem_iff_getElem?.mp member
  simp only [emitTokens, List.getElem?_zipWith, List.getElem?_ofFn] at here
  by_cases inside : i < owed.length
  · have weight := possible ⟨i, inside⟩
    rw [weight_of_choice sampled] at weight
    rw [List.getElem?_eq_getElem inside, dif_pos inside] at here
    exact ⟨i, inside.trans_le enough, owed[i], drawn ⟨i, inside⟩, List.getElem?_eq_getElem inside,
      (Option.some.inj here).symm, weight⟩
  · rw [List.getElem?_eq_none (Nat.le_of_not_lt inside)] at here
    cases here

theorem Emitted.emits {rows vocab : Nat} [NeZero vocab] {softmax : Softmax vocab}
    {sort : Descending vocab} {eos : List Token} {logits : Rows rows vocab} {owed : List Sequence}
    {results : IterationResults} (emitted : Emitted softmax sort eos logits owed results) :
    ∃ tokens : List Token, tokens.length = owed.length ∧ results = emitTokens eos owed tokens := by
  obtain ⟨enough, choices, drawn, -, -, same⟩ := emitted
  exact ⟨_, List.length_ofFn, same⟩

theorem length_offsets (pairs : List (BatchEntry × Sequence)) (rows : FlatRows) :
    (pairs.foldl flatRow rows).offsets.length = rows.offsets.length + pairs.length := by
  induction pairs generalizing rows with
  | nil => rfl
  | cons pair rest ih =>
      rw [List.foldl_cons, ih, List.length_cons]
      simp only [flatRow, List.length_append, List.length_singleton]
      omega

theorem map_fst_owed {pairs : List (BatchEntry × Sequence)} {offsets : List (Nat × Nat)}
    (each : offsets.length = pairs.length) :
    ((pairs.zip offsets).filterMap fun ((entry, seq), _, stop) =>
      if owesToken entry seq then some (seq, stop - 1) else none).map (·.1) =
      (pairs.filter fun (entry, seq) => owesToken entry seq).map (·.2) := by
  induction pairs generalizing offsets with
  | nil => rfl
  | cons pair rest ih =>
      cases offsets with
      | nil => cases each
      | cons offset offsets =>
          have later := ih (Nat.succ.inj each)
          obtain ⟨entry, seq⟩ := pair
          cases owes : owesToken entry seq with
          | false => simpa [owes] using later
          | true => simpa [owes] using later

theorem owedRows_fst (plan : BatchPlan) (seqs : List Sequence) :
    (owedRows plan seqs (flatRows plan seqs).offsets).map (·.1) = owed plan seqs := by
  refine map_fst_owed ?_
  rw [flatRows, length_offsets]
  exact Nat.zero_add _

theorem mem_owedRows {plan : BatchPlan} {seqs : List Sequence} {seq : Sequence} {row : Nat}
    (member : (seq, row) ∈ owedRows plan seqs (spans 0 (batch plan seqs))) :
    ∃ (e : Nat) (entry : BatchEntry) (start : Nat), (batch plan seqs)[e]? = some (entry, seq) ∧
      (spans 0 (batch plan seqs))[e]? = some (start, start + entry.nTokens) ∧
      owesToken entry seq = true ∧ row = start + entry.nTokens - 1 := by
  obtain ⟨⟨⟨entry, other⟩, start, stop⟩, zipped, kept⟩ := List.mem_filterMap.mp member
  obtain ⟨e, here⟩ := List.mem_iff_getElem?.mp zipped
  obtain ⟨pair, span⟩ := List.getElem?_zip_eq_some.mp here
  dsimp only at kept
  split at kept
  · rename_i owes
    simp only [Option.some.injEq, Prod.mk.injEq] at kept
    obtain ⟨rfl, rfl⟩ := kept
    obtain ⟨skip, span', -⟩ := Paged.row_at 1 0 pair
    obtain ⟨rfl, rfl⟩ := Prod.mk.inj (Option.some.inj (span.symm.trans span'))
    exact ⟨e, entry, _, pair, span, owes, rfl⟩
  · cases kept

variable {m : Modules} {blockSize : Nat} {softmax : Softmax m.vocab} {sort : Descending m.vocab}
  {eos : List Token} {plan : BatchPlan} {seqs : List Sequence} {hidden : TokenRows m.Hidden}
  {results : IterationResults}

def RowsComputed (m : Modules) (pairs : List (BatchEntry × Sequence))
    (hidden : TokenRows m.Hidden) : Prop :=
  ∀ i entry seq position, RowAt pairs i entry seq position →
    hidden i = m.norm (m.hiddenAt seq.tokens m.layers position)

theorem rowAt_owed {e start : Nat} {entry : BatchEntry} {seq : Sequence}
    (bookkept : RunningOk (some entry) seq) (here : (batch plan seqs)[e]? = some (entry, seq))
    (span : (spans 0 (batch plan seqs))[e]? = some (start, start + entry.nTokens))
    (owes : owesToken entry seq = true) :
    RowAt (batch plan seqs) (start + entry.nTokens - 1) entry seq (seq.tokens.length - 1) := by
  have whole := (bookkept.owes owes).2
  have le := bookkept.nTokens_le
  have positive : 0 < entry.nTokens := by
    simp only [RunningOk] at bookkept
    split at bookkept
    · exact bookkept.2.1
    · omega
  refine ⟨e, start, entry.nTokens - 1, here, span, by omega, by omega, ?_⟩
  rw [Sequence.length_tokens, ← whole, cachedBefore]
  omega

theorem owed_logits {e start : Nat} {entry : BatchEntry} {seq : Sequence}
    (computed : RowsComputed m (batch plan seqs) hidden) (bookkept : RunningOk (some entry) seq)
    (here : (batch plan seqs)[e]? = some (entry, seq))
    (span : (spans 0 (batch plan seqs))[e]? = some (start, start + entry.nTokens))
    (owes : owesToken entry seq = true) :
    m.outputEmbeddings (hidden (start + entry.nTokens - 1)) = m.logits seq.tokens := by
  rw [computed _ _ _ _ (rowAt_owed bookkept here span owes)]
  rfl

theorem EmitOwed.emits (emitted : EmitOwed m softmax sort eos hidden plan seqs
      (flatRows plan seqs).offsets results) :
    ∃ tokens : List Token, tokens.length = (owed plan seqs).length ∧
      results = emitTokens eos (owed plan seqs) tokens := by
  have named := owedRows_fst plan seqs
  unfold EmitOwed at emitted
  dsimp only at emitted
  split at emitted
  · rename_i none
    rw [none] at named
    exact ⟨[], by rw [← named]; rfl, by rw [← named, emitted]; rfl⟩
  · rw [← named]
    exact Emitted.emits emitted

theorem EmitOwed.likely (bookkept : ∀ pair ∈ batch plan seqs, RunningOk (some pair.1) pair.2)
    (computed : RowsComputed m (batch plan seqs) hidden)
    (emitted : EmitOwed m softmax sort eos hidden plan seqs (spans 0 (batch plan seqs)) results) :
    ∀ result ∈ results, ∃ pair ∈ batch plan seqs, ∃ token, result = emitToken eos pair.2 token ∧
      Likely m.logits softmax sort pair.2.samplingParams pair.2.tokens token := by
  intro result member
  unfold EmitOwed at emitted
  dsimp only at emitted
  split at emitted
  · rw [emitted] at member
    cases member
  · obtain ⟨i, inside, seq, token, here, same, weight⟩ := emitted.likely member
    rw [List.getElem?_map, List.getElem?_eq_getElem inside, Option.map_some,
      Option.some.injEq] at here
    subst here
    obtain ⟨e, entry, start, found, span, owes, row⟩ := mem_owedRows (List.getElem_mem inside)
    have inBatch := List.mem_of_getElem? found
    refine ⟨_, inBatch, token, same, token, rfl, ?_⟩
    rw [← owed_logits computed (bookkept _ inBatch) found span owes, ← row]
    exact weight

theorem Emitted.decodes {rows : Nat} (ready : BatchReady blockSize plan seqs)
    (decodes : ∀ pair ∈ batch plan seqs, pair.1.isPrefillChunk = false)
    (computed : RowsComputed m (batch plan seqs) hidden)
    (emitted : Emitted softmax sort eos (fun i : Fin rows => m.outputEmbeddings (hidden i))
      ((batch plan seqs).map (·.2)) results) :
    ∀ result ∈ results, ∃ pair ∈ batch plan seqs, ∃ token, result = emitToken eos pair.2 token ∧
      Likely m.logits softmax sort pair.2.samplingParams pair.2.tokens token := by
  intro result member
  obtain ⟨i, inside, seq, token, here, same, weight⟩ := emitted.likely member
  rw [List.getElem?_map, Option.map_eq_some_iff] at here
  obtain ⟨⟨entry, seq⟩, found, rfl⟩ := here
  have inBatch := List.mem_of_getElem? found
  have single (pair : BatchEntry × Sequence) (member : pair ∈ batch plan seqs) : pair.1.nTokens = 1 :=
    (Paged.entryRows_decode (ready pair member) (decodes pair member)).1
  have starts : ((spans 0 (batch plan seqs)).map (·.1))[i]? = some i := by
    have bound := (List.getElem?_eq_some_iff.mp found).1
    rw [Paged.spans_decodes 0 single]
    simp [bound]
  obtain ⟨skip, span, -⟩ := Paged.row_at 1 0 found
  rw [List.getElem?_map, span, Option.map_some, Option.some.injEq] at starts
  dsimp only at starts
  rw [starts] at span
  have owes : owesToken entry seq = true := by
    have decode : entry.isPrefillChunk = false := decodes _ inBatch
    simp [owesToken, decode]
  refine ⟨(entry, seq), inBatch, token, same, token, rfl, ?_⟩
  have logits := owed_logits computed (ready _ inBatch).bookkept found span owes
  rw [single _ inBatch, Nat.add_sub_cancel] at logits
  rw [← logits]
  exact weight

theorem exists_emitted {rows vocab : Nat} [NeZero vocab] (softmax : Softmax vocab)
    (sort : Descending vocab) (eos : List Token) (logits : Rows rows vocab) (owed : List Sequence)
    (enough : owed.length ≤ rows) : ∃ results, Emitted softmax sort eos logits owed results := by
  obtain ⟨choices, sampled, -⟩ := sampleTokens_eq softmax sort
    (fun i : Fin owed.length => logits (i.castLE enough)) fun i => owed[i].samplingParams
  have drawable (i : Fin owed.length) : ∃ token, 0 < (choices i).weight token := by
    rw [weight_of_choice sampled]
    unfold law
    split
    · exact ⟨argmax (logits (i.castLE enough)), by simp⟩
    · obtain ⟨count, first, -, positive⟩ := rowWeight_prefix softmax sort (logits (i.castLE enough))
        owed[i].samplingParams
      refine ⟨rowIds softmax sort (logits (i.castLE enough)) owed[i].samplingParams 0, ?_⟩
      rw [positive, Equiv.symm_apply_apply]
      exact first
  choose drawn possible using drawable
  exact ⟨_, enough, choices, drawn, sampled, possible, rfl⟩

theorem exists_emitOwed (m : Modules) (softmax : Softmax m.vocab) (sort : Descending m.vocab)
    (eos : List Token) (hidden : TokenRows m.Hidden) (plan : BatchPlan) (seqs : List Sequence)
    (offsets : List (Nat × Nat)) :
    ∃ results, EmitOwed m softmax sort eos hidden plan seqs offsets results := by
  unfold EmitOwed
  dsimp only
  split
  · exact ⟨[], rfl⟩
  · exact exists_emitted _ _ _ _ _ (List.length_map _).le

section

variable {vocab : Nat} [NeZero vocab] {logits : List Token → Row vocab} {softmax : Softmax vocab}
  {sort : Descending vocab} {eos : List Token}

def greedyNext (logits : List Token → Row vocab) (tokens : List Token) : Token :=
  (argmax (logits tokens)).val

theorem likely_greedy {params : SamplingParams} (greedy : params.temperature = 0)
    (tokens : List Token) (token : Token) (likely : Likely logits softmax sort params tokens token) :
    token = greedyNext logits tokens := by
  obtain ⟨id, rfl, positive⟩ := likely
  rw [law, if_pos greedy] at positive
  by_contra other
  refine absurd positive ?_
  rw [if_neg fun same => other (congrArg Fin.val same)]
  exact lt_irrefl 0

theorem genuine_greedy {α ρ : Type} {s : EngineState α ρ}
    (genuine : Genuine eos (Likely logits softmax sort) s) :
    ∀ seq ∈ s.running ++ s.waiting ++ s.ended, seq.samplingParams.temperature = 0 →
      seq.generatedTokens <+: reference eos (greedyNext logits) seq ∧
        (seq.metrics.doneTime ≠ none →
          seq.generatedTokens = reference eos (greedyNext logits) seq) :=
  fun _ member cold => genuine.reference member (likely_greedy cold)

end

end LlmServing.Decoder
