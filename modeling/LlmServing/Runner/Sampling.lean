import LlmServing.Lib.Nucleus
import LlmServing.Runner.ModelRunner
import Mathlib.Data.List.MinMax
import Mathlib.Data.List.FinRange
import Mathlib.Algebra.Order.Ring.Rat
import Mathlib.Data.Fin.Tuple.Sort
import Mathlib.Logic.Equiv.Defs
import Mathlib.Tactic.NormNum

/-!
# Batched sampling

`sample_tokens` of `sampling.py`. A tensor is a function of its indices, with rational entries;
softmax gives positive probabilities, `torch.sort` some descending order of each row, and
`torch.multinomial` a position drawn with its row of weights.
-/

namespace LlmServing.Runner

open Scheduling Lib.Nucleus

abbrev Row (vocab : Nat) := Fin vocab → ℚ

abbrev Rows (batch vocab : Nat) := Fin batch → Row vocab

structure Softmax (vocab : Nat) where
  probs : Row vocab → Row vocab
  probs_pos (logits : Row vocab) (token : Fin vocab) : 0 < probs logits token

structure Descending (vocab : Nat) where
  ids : Row vocab → Equiv.Perm (Fin vocab)
  antitone (probs : Row vocab) : Antitone fun rank => probs (ids probs rank)

/-- A row of the result: a token, or `ids` of a position drawn with `weights`. -/
inductive Choice (vocab : Nat) where
  | token (id : Fin vocab)
  | draw (weights : Row vocab) (ids : Equiv.Perm (Fin vocab))

namespace Choice

variable {vocab : Nat}

def weight : Choice vocab → Row vocab
  | .token id => fun other => if other = id then 1 else 0
  | .draw weights ids => fun id => weights (ids.symm id)

def gather (ids : Equiv.Perm (Fin vocab)) : Choice vocab → Choice vocab
  | .token position => .token (ids position)
  | .draw weights positions => .draw weights (positions.trans ids)

end Choice

section

variable {batch vocab : Nat}

/-- The first of the largest. -/
def argmax [NeZero vocab] (row : Row vocab) : Fin vocab :=
  ((List.finRange vocab).argmax row).getD 0

def multinomial (rows : Rows batch vocab) : Except String (Fin batch → Choice vocab) :=
  if ∃ i, ∃ position, rows i position < 0 then
    throw "probability tensor contains either inf, nan or element < 0"
  else if ∃ i, ∑ position, rows i position = 0 then
    throw "invalid multinomial distribution (sum of probabilities <= 0)"
  else pure fun i => .draw (rows i) (Equiv.refl _)

def cumsum (row : Row vocab) (rank : Fin vocab) : ℚ := ∑ earlier ∈ Finset.Iic rank, row earlier

structure Knobs where
  temperature : ℚ
  topP : ℚ
  topK : Nat

def topKOn (vocab : Nat) (params : SamplingParams) : Prop := 0 < params.topK ∧ params.topK < vocab

instance (vocab : Nat) (params : SamplingParams) : Decidable (topKOn vocab params) :=
  inferInstanceAs (Decidable (_ ∧ _))

def knobs (vocab : Nat) (params : SamplingParams) : Knobs where
  temperature := if params.temperature = 0 then 1 else params.temperature
  topP := params.topP
  topK := if topKOn vocab params then params.topK.toNat else vocab

/-- One row of the sorted path: top-k, then top-p within what top-k kept. -/
def masked (knobs : Knobs) (sortedProbs : Row vocab) : Row vocab :=
  let sortedProbs : Row vocab := fun rank => if knobs.topK ≤ rank.val then 0 else sortedProbs rank
  let keptMass := ∑ rank, sortedProbs rank
  let massBefore := fun rank => cumsum sortedProbs rank - sortedProbs rank
  fun rank => if knobs.topP * keptMass < massBefore rank then 0 else sortedProbs rank

def sampleTokens [NeZero vocab] (softmax : Softmax vocab) (sort : Descending vocab)
    (logits : Rows batch vocab) (params : Fin batch → SamplingParams) :
    Except String (Fin batch → Choice vocab) :=
  let greedy := fun i => argmax (logits i)
  if ∀ i, (params i).temperature = 0 then pure fun i => .token (greedy i)
  else do
    let knobs := fun i => knobs vocab (params i)
    let probs := fun i => softmax.probs fun token => logits i token / (knobs i).temperature
    let sampled ←
      if ∀ i, (params i).topP = 1 ∧ ¬topKOn vocab (params i) then multinomial probs
      else
        let sortedIds := fun i => sort.ids (probs i)
        let sortedProbs := fun i => masked (knobs i) fun rank => probs i (sortedIds i rank)
        let drawn ← multinomial sortedProbs
        pure fun i => (drawn i).gather (sortedIds i)
    pure fun i => if (params i).temperature = 0 then .token (greedy i) else sampled i

end

/-! ## A row by itself -/

section

variable {batch vocab : Nat}

def rowTopK (vocab : Nat) (params : SamplingParams) : Nat :=
  if 0 < params.topK then params.topK.toNat else vocab

def rowProbs (softmax : Softmax vocab) (logits : Row vocab) (params : SamplingParams) : Row vocab :=
  softmax.probs fun token => logits token / params.temperature

def rowIds (softmax : Softmax vocab) (sort : Descending vocab) (logits : Row vocab)
    (params : SamplingParams) : Equiv.Perm (Fin vocab) :=
  sort.ids (rowProbs softmax logits params)

def rowWeight (softmax : Softmax vocab) (sort : Descending vocab) (logits : Row vocab)
    (params : SamplingParams) (token : Fin vocab) : ℚ :=
  let probs := rowProbs softmax logits params
  let ids := rowIds softmax sort logits params
  if Survives (rowTopK vocab params) params.topP (fun rank => probs (ids rank)) (ids.symm token) then
    probs token
  else 0

theorem le_argmax [NeZero vocab] (row : Row vocab) (token : Fin vocab) :
    row token ≤ row (argmax row) := by
  have some : (List.finRange vocab).argmax row ≠ none := by
    rw [ne_eq, List.argmax_eq_none, List.finRange_eq_nil_iff]
    exact NeZero.ne vocab
  obtain ⟨best, found⟩ := Option.ne_none_iff_exists'.mp some
  rw [argmax, found]
  exact List.le_of_mem_argmax (List.mem_finRange token) found

theorem cumsum_sub (row : Row vocab) (rank : Fin vocab) :
    cumsum row rank - row rank = before row rank := by
  rw [cumsum, before, ← Finset.Iio_insert, Finset.sum_insert Finset.notMem_Iio_self,
    add_sub_cancel_left]

theorem knobs_topK_le_iff (params : SamplingParams) (rank : Fin vocab) :
    (knobs vocab params).topK ≤ rank.val ↔ ¬rank.val < rowTopK vocab params := by
  have inside := rank.isLt
  rw [not_lt, rowTopK]
  show (if topKOn vocab params then params.topK.toNat else vocab) ≤ rank.val ↔ _
  by_cases on : topKOn vocab params
  · rw [if_pos on, if_pos on.1]
  · rw [if_neg on]
    by_cases positive : 0 < params.topK
    · have large : ¬params.topK < vocab := fun small => on ⟨positive, small⟩
      rw [if_pos positive]
      omega
    · rw [if_neg positive]

theorem masked_eq (params : SamplingParams) (mass : Row vocab) (rank : Fin vocab) :
    masked (knobs vocab params) mass rank =
      if Survives (rowTopK vocab params) params.topP mass rank then mass rank else 0 := by
  simp only [masked, knobs_topK_le_iff, ite_not]
  show (if params.topP * ∑ other, kept (rowTopK vocab params) mass other <
      cumsum (kept (rowTopK vocab params) mass) rank - kept (rowTopK vocab params) mass rank then 0
    else kept (rowTopK vocab params) mass rank) = _
  rw [cumsum_sub]
  by_cases past : params.topP * ∑ other, kept (rowTopK vocab params) mass other <
      before (kept (rowTopK vocab params) mass) rank
  · rw [if_pos past, if_neg fun survives => survives.2.not_gt past]
  · rw [if_neg past, kept]
    by_cases inside : rank.val < rowTopK vocab params
    · rw [if_pos inside, if_pos ⟨inside, not_lt.mp past⟩]
    · rw [if_neg inside, if_neg fun survives => inside survives.1]

theorem rowTopK_pos [NeZero vocab] (params : SamplingParams) : 0 < rowTopK vocab params := by
  have room := NeZero.pos vocab
  unfold rowTopK
  split <;> omega

theorem survives_off (softmax : Softmax vocab) (params : SamplingParams) (logits : Row vocab)
    (ids : Equiv.Perm (Fin vocab)) (whole : params.topP = 1) (off : ¬topKOn vocab params)
    (rank : Fin vocab) :
    Survives (rowTopK vocab params) params.topP
      (fun rank => rowProbs softmax logits params (ids rank)) rank := by
  have all : vocab ≤ rowTopK vocab params := by
    unfold rowTopK
    unfold topKOn at off
    split <;> omega
  rw [whole]
  exact survives_all (fun rank => (softmax.probs_pos _ _).le) all rank

theorem multinomial_eq_ok {rows : Rows batch vocab} (nonneg : ∀ i position, 0 ≤ rows i position)
    (some : ∀ i, ∃ position, 0 < rows i position) :
    multinomial rows = .ok fun i => .draw (rows i) (Equiv.refl _) := by
  have noneNegative : ¬∃ i, ∃ position, rows i position < 0 := fun ⟨i, position, negative⟩ =>
    (nonneg i position).not_gt negative
  have noneZero : ¬∃ i, ∑ position, rows i position = 0 := fun ⟨i, zero⟩ => by
    obtain ⟨position, positive⟩ := some i
    have least := Finset.single_le_sum (fun other _ => nonneg i other) (Finset.mem_univ position)
    exact (positive.trans_le least).ne' zero
  rw [multinomial, if_neg noneNegative, if_neg noneZero]
  rfl

section

variable (softmax : Softmax vocab) (sort : Descending vocab) (logits : Row vocab)
  (params : SamplingParams)

theorem rowWeight_nonneg (token : Fin vocab) : 0 ≤ rowWeight softmax sort logits params token := by
  unfold rowWeight
  dsimp only
  split
  · exact (softmax.probs_pos _ _).le
  · exact le_rfl

theorem rowWeight_pos_iff (token : Fin vocab) :
    0 < rowWeight softmax sort logits params token ↔
      Survives (rowTopK vocab params) params.topP
        (fun rank => rowProbs softmax logits params (rowIds softmax sort logits params rank))
        ((rowIds softmax sort logits params).symm token) := by
  unfold rowWeight
  dsimp only
  split
  next survives => exact iff_of_true (softmax.probs_pos _ _) survives
  next out => exact iff_of_false (lt_irrefl _) out

theorem rowWeight_prefix [NeZero vocab] :
    ∃ count : Nat, 0 < count ∧ count ≤ vocab ∧ ∀ token, 0 < rowWeight softmax sort logits params token ↔
      ((rowIds softmax sort logits params).symm token).val < count := by
  have nonneg (rank : Fin vocab) :
      0 ≤ rowProbs softmax logits params (rowIds softmax sort logits params rank) :=
    (softmax.probs_pos _ _).le
  obtain ⟨count, inside, survives⟩ :=
    exists_survives_iff nonneg (rowTopK vocab params) params.topP
  have first : Survives (rowTopK vocab params) params.topP
      (fun rank => rowProbs softmax logits params (rowIds softmax sort logits params rank))
      (0 : Fin vocab) := survives_first nonneg (rowTopK_pos params) params.topP_pos.le
  refine ⟨count, (survives 0).mp first, inside, fun token => ?_⟩
  rw [rowWeight_pos_iff, survives]

theorem le_rowProbs_first [NeZero vocab] (token : Fin vocab) :
    rowProbs softmax logits params token ≤
      rowProbs softmax logits params (rowIds softmax sort logits params 0) := by
  have sorted := sort.antitone (rowProbs softmax logits params)
    (Fin.zero_le ((rowIds softmax sort logits params).symm token))
  simpa only [rowIds, Equiv.apply_symm_apply] using sorted

end

theorem masked_drawable [NeZero vocab] (params : SamplingParams) {mass : Row vocab}
    (positive : ∀ rank, 0 < mass rank) :
    (∀ rank, 0 ≤ masked (knobs vocab params) mass rank) ∧
      ∃ rank, 0 < masked (knobs vocab params) mass rank := by
  constructor
  · intro rank
    rw [masked_eq]
    split
    · exact (positive rank).le
    · exact le_rfl
  · have first : Survives (rowTopK vocab params) params.topP mass 0 :=
      survives_first (fun rank => (positive rank).le) (rowTopK_pos params) params.topP_pos.le
    use 0
    rw [masked_eq, if_pos first]
    exact positive 0

end

/-! ## A batch row by row -/

section

variable {batch vocab : Nat} [NeZero vocab] (softmax : Softmax vocab) (sort : Descending vocab)
  (logits : Rows batch vocab) (params : Fin batch → SamplingParams)

def knobProbs (i : Fin batch) : Row vocab :=
  softmax.probs fun token => logits i token / (knobs vocab (params i)).temperature

def knobSorted (i : Fin batch) : Row vocab := fun rank =>
  knobProbs softmax logits params i (sort.ids (knobProbs softmax logits params i) rank)

omit [NeZero vocab] in
theorem knobSorted_pos (i : Fin batch) (rank : Fin vocab) :
    0 < knobSorted softmax sort logits params i rank := softmax.probs_pos _ _

omit [NeZero vocab] in
theorem knobProbs_eq {i : Fin batch} (hot : (params i).temperature ≠ 0) :
    knobProbs softmax logits params i = rowProbs softmax (logits i) (params i) := by
  simp only [knobProbs, rowProbs, knobs, if_neg hot]

theorem sampleTokens_greedy (cold : ∀ i, (params i).temperature = 0) :
    sampleTokens softmax sort logits params = .ok fun i => .token (argmax (logits i)) := by
  rw [sampleTokens, if_pos cold]
  rfl

theorem sampleTokens_unsorted (hot : ¬∀ i, (params i).temperature = 0)
    (off : ∀ i, (params i).topP = 1 ∧ ¬topKOn vocab (params i)) :
    sampleTokens softmax sort logits params = .ok fun i =>
      if (params i).temperature = 0 then .token (argmax (logits i))
      else .draw (knobProbs softmax logits params i) (Equiv.refl _) := by
  have drawn : multinomial (knobProbs softmax logits params) = .ok _ :=
    multinomial_eq_ok (fun i position => (softmax.probs_pos _ position).le)
      (fun i => ⟨0, softmax.probs_pos _ 0⟩)
  rw [sampleTokens, if_neg hot, if_pos off]
  show (multinomial (knobProbs softmax logits params) >>= _) = _
  rw [drawn]
  rfl

theorem sampleTokens_sorted (hot : ¬∀ i, (params i).temperature = 0)
    (on : ¬∀ i, (params i).topP = 1 ∧ ¬topKOn vocab (params i)) :
    sampleTokens softmax sort logits params = .ok fun i =>
      if (params i).temperature = 0 then .token (argmax (logits i))
      else .draw (masked (knobs vocab (params i)) (knobSorted softmax sort logits params i))
        (sort.ids (knobProbs softmax logits params i)) := by
  have weights (i : Fin batch) :=
    masked_drawable (params i) (knobSorted_pos softmax sort logits params i)
  have drawn := multinomial_eq_ok (fun i => (weights i).1) (fun i => (weights i).2)
  rw [sampleTokens, if_neg hot, if_neg on]
  show (multinomial (fun i => masked (knobs vocab (params i))
    (knobSorted softmax sort logits params i)) >>= _) = _
  rw [drawn]
  rfl

/-! The choice for a row in the two branches that draw, mapped back to tokens. -/

omit [NeZero vocab] in
theorem weight_unsorted {i : Fin batch} (hot : (params i).temperature ≠ 0)
    (whole : (params i).topP = 1) (off : ¬topKOn vocab (params i)) :
    (Choice.draw (knobProbs softmax logits params i) (Equiv.refl _)).weight =
      rowWeight softmax sort (logits i) (params i) := by
  funext token
  have survives := survives_off softmax (params i) (logits i)
    (rowIds softmax sort (logits i) (params i)) whole off
    ((rowIds softmax sort (logits i) (params i)).symm token)
  rw [knobProbs_eq softmax logits params hot, rowWeight, if_pos survives]
  rfl

omit [NeZero vocab] in
theorem weight_sorted {i : Fin batch} (hot : (params i).temperature ≠ 0) :
    (Choice.draw (masked (knobs vocab (params i)) (knobSorted softmax sort logits params i))
        (sort.ids (knobProbs softmax logits params i))).weight =
      rowWeight softmax sort (logits i) (params i) := by
  funext token
  have same : knobSorted softmax sort logits params i = fun rank =>
      rowProbs softmax (logits i) (params i) (rowIds softmax sort (logits i) (params i) rank) := by
    funext rank
    rw [knobSorted, knobProbs_eq softmax logits params hot, rowIds]
  show masked _ _ ((sort.ids (knobProbs softmax logits params i)).symm token) = _
  rw [masked_eq, same, knobProbs_eq softmax logits params hot]
  show (if _ then rowProbs softmax (logits i) (params i)
    (rowIds softmax sort (logits i) (params i)
      ((rowIds softmax sort (logits i) (params i)).symm token)) else 0) = _
  rw [Equiv.apply_symm_apply]
  rfl

/-- Every row is sampled as it would be alone, whichever branch its batch takes. -/
theorem sampleTokens_eq :
    ∃ choices, sampleTokens softmax sort logits params = .ok choices ∧ ∀ i,
      ((params i).temperature = 0 → choices i = .token (argmax (logits i))) ∧
      ((params i).temperature ≠ 0 → ∃ weights ids, choices i = .draw weights ids ∧
        (Choice.draw weights ids).weight = rowWeight softmax sort (logits i) (params i)) := by
  by_cases cold : ∀ i, (params i).temperature = 0
  · refine ⟨_, sampleTokens_greedy softmax sort logits params cold, fun i => ⟨fun _ => rfl, ?_⟩⟩
    exact fun hot => absurd (cold i) hot
  · by_cases off : ∀ i, (params i).topP = 1 ∧ ¬topKOn vocab (params i)
    · refine ⟨_, sampleTokens_unsorted softmax sort logits params cold off, fun i =>
        ⟨fun zero => if_pos zero, fun hot => ⟨_, _, if_neg hot, ?_⟩⟩⟩
      exact weight_unsorted softmax sort logits params hot (off i).1 (off i).2
    · refine ⟨_, sampleTokens_sorted softmax sort logits params cold off, fun i =>
        ⟨fun zero => if_pos zero, fun hot => ⟨_, _, if_neg hot, ?_⟩⟩⟩
      exact weight_sorted softmax sort logits params hot

end

theorem sum_weight {vocab : Nat} (weights : Row vocab) (ids : Equiv.Perm (Fin vocab)) :
    ∑ token, (Choice.draw weights ids).weight token = ∑ position, weights position :=
  Equiv.sum_comp ids.symm weights

theorem sample_tokens_rowwise {batch vocab : Nat} [NeZero vocab] (softmax : Softmax vocab)
    (sort : Descending vocab) (logits : Rows batch vocab) (params : Fin batch → SamplingParams) :
    ∃ choices, sampleTokens softmax sort logits params = .ok choices ∧ ∀ i,
      ((params i).temperature = 0 → choices i = .token (argmax (logits i)) ∧
        ∀ token, logits i token ≤ logits i (argmax (logits i))) ∧
      ((params i).temperature ≠ 0 →
        (∃ weights ids, choices i = .draw weights ids ∧ 0 < ∑ position, weights position ∧
          ∀ token, weights (ids.symm token) = rowWeight softmax sort (logits i) (params i) token) ∧
        (∃ count : Nat, 0 < count ∧ count ≤ vocab ∧
          ∀ token, 0 < rowWeight softmax sort (logits i) (params i) token ↔
            ((rowIds softmax sort (logits i) (params i)).symm token).val < count) ∧
        ∀ token, rowProbs softmax (logits i) (params i) token ≤
          rowProbs softmax (logits i) (params i)
            (rowIds softmax sort (logits i) (params i) 0)) := by
  obtain ⟨choices, sampled, rows⟩ := sampleTokens_eq softmax sort logits params
  refine ⟨choices, sampled, fun i => ⟨fun cold => ?_, fun hot => ⟨?_, ?_, ?_⟩⟩⟩
  · exact ⟨(rows i).1 cold, le_argmax (logits i)⟩
  · obtain ⟨weights, ids, drawn, law⟩ := (rows i).2 hot
    obtain ⟨count, first, -, survives⟩ := rowWeight_prefix softmax sort (logits i) (params i)
    have positive : 0 < rowWeight softmax sort (logits i) (params i)
        (rowIds softmax sort (logits i) (params i) 0) := by
      rw [survives, Equiv.symm_apply_apply]
      exact first
    refine ⟨weights, ids, drawn, ?_, fun token => congrFun law token⟩
    rw [← sum_weight weights ids, law]
    exact Finset.sum_pos' (fun token _ => rowWeight_nonneg _ _ _ _ token)
      ⟨_, Finset.mem_univ _, positive⟩
  · exact rowWeight_prefix softmax sort (logits i) (params i)
  · exact le_rowProbs_first softmax sort (logits i) (params i)

theorem third_pos : (0 : ℚ) < 1 / 3 := by norm_num

theorem half_share : (0 : ℚ) < 1 / 2 ∧ (1 / 2 : ℚ) ≤ 1 := by norm_num

/-- Softmax as it is on rows of equal logits. -/
def evenSoftmax : Softmax 3 := ⟨fun _ _ => 1 / 3, fun _ _ => third_pos⟩

/-- `torch.sort` with equal probabilities in the order they came in. -/
def stableDescending (vocab : Nat) : Descending vocab where
  ids probs := Tuple.sort fun token => -probs token
  antitone probs := fun _ _ earlier =>
    neg_le_neg_iff.mp (Tuple.monotone_sort (fun token => -probs token) earlier)

def evenLogits : Rows 2 3 := fun _ _ => 0

def sampleParams : Fin 2 → SamplingParams
  | 0 => { temperature := 0 }
  | 1 => { topK := 2, topP := 1 / 2, topP_pos := half_share.1, topP_le_one := half_share.2 }

theorem sample_tokens_rowwise_sample :
    ∃ choices, sampleTokens evenSoftmax (stableDescending 3) evenLogits sampleParams = .ok choices ∧
      ∀ i,
      ((sampleParams i).temperature = 0 → choices i = .token (argmax (evenLogits i)) ∧
        ∀ token, evenLogits i token ≤ evenLogits i (argmax (evenLogits i))) ∧
      ((sampleParams i).temperature ≠ 0 →
        (∃ weights ids, choices i = .draw weights ids ∧ 0 < ∑ position, weights position ∧
          ∀ token, weights (ids.symm token) =
            rowWeight evenSoftmax (stableDescending 3) (evenLogits i) (sampleParams i) token) ∧
        (∃ count : Nat, 0 < count ∧ count ≤ 3 ∧
          ∀ token, 0 < rowWeight evenSoftmax (stableDescending 3) (evenLogits i) (sampleParams i)
              token ↔
            ((rowIds evenSoftmax (stableDescending 3) (evenLogits i) (sampleParams i)).symm
              token).val < count) ∧
        ∀ token, rowProbs evenSoftmax (evenLogits i) (sampleParams i) token ≤
          rowProbs evenSoftmax (evenLogits i) (sampleParams i)
            (rowIds evenSoftmax (stableDescending 3) (evenLogits i) (sampleParams i) 0)) :=
  sample_tokens_rowwise evenSoftmax (stableDescending 3) evenLogits sampleParams

def emitChoices {rows vocab : Nat} [NeZero vocab] (softmax : Softmax vocab)
    (sort : Descending vocab) (logits : Rows rows vocab) (owed : List Sequence)
    (enough : owed.length ≤ rows) : Except String (Fin owed.length → Choice vocab) :=
  sampleTokens softmax sort (fun i => logits (i.castLE enough)) fun i => owed[i].samplingParams

end LlmServing.Runner
