import LlmServing.Kernels.Programs
import LlmServing.Lib.OnlineSoftmax
import Mathlib.Analysis.Real.Sqrt

/-!
# Tiled attention is attention

`flash_attention_2` over the reals, against the softmax of a whole row of scores.
-/

namespace LlmServing.Kernels

open Lib Extended

/-- Exact arithmetic, where what has no value stays undefined. -/
noncomputable def exact : Arithmetic Extended where
  zero := real 0
  negInf := negInf
  add := add
  sub := sub
  mul := mul
  div := div
  maximum := maximum
  exp := Extended.exp
  invSqrt d := real (1 / Real.sqrt d)
  toV x := x
  dot _ x y := fun i c => sum fun j => mul (x i j) (y j c)
  rowMax tile i := greatest (tile i)
  rowSum tile i := sum (tile i)

abbrev FlashArgs.real (args : FlashArgs ℝ) : FlashArgs Extended where
  q cell := .real (args.q cell)
  k cell := .real (args.k cell)
  v cell := .real (args.v cell)
  h := args.h
  nQ := args.nQ
  nK := args.nK
  d := args.d
  softmaxScale := .real args.softmaxScale
  queryOffset := args.queryOffset
  blockM := args.blockM
  blockN := args.blockN
  blockD := args.blockD
  isCausal := args.isCausal
  precision := args.precision
  nGroups := args.nGroups

namespace FlashArgs

variable (args : FlashArgs ℝ) (z head row : Nat)

def score (j : Nat) : ℝ :=
  (∑ c ∈ Finset.range args.d,
    args.q (z, head, row, c) * args.k (z, head / args.nGroups, j, c)) * args.softmaxScale

def visible : Finset Nat :=
  (Finset.range args.nK).filter fun j => args.isCausal = true → j ≤ args.queryOffset + row

noncomputable def attention (c : Nat) : ℝ :=
  (∑ j ∈ args.visible row,
    Real.exp (args.score z head row j) * args.v (z, head / args.nGroups, j, c)) /
  ∑ j ∈ args.visible row, Real.exp (args.score z head row j)

theorem mem_visible {j : Nat} :
    j ∈ args.visible row ↔ j < args.nK ∧ (args.isCausal = true → j ≤ args.queryOffset + row) := by
  simp [visible]

theorem visible_lt_endN {startM : Nat} (i : Fin args.blockM) {j : Nat}
    (member : j ∈ args.visible (args.offsM startM i)) : j < args.endN startM := by
  obtain ⟨inside, causal⟩ := (args.mem_visible _).mp member
  unfold endN
  by_cases isCausal : args.isCausal = true
  · have near := causal isCausal
    rw [offsM] at near
    rw [if_pos isCausal, Nat.succ_mul]
    omega
  · rw [if_neg isCausal]
    exact inside

end FlashArgs

/-! ## One row of a tile -/

section Row

variable {blockM blockN blockD : Nat}

theorem load_real {a b : Nat} (mask : Fin a → Fin b → Bool) (tile : Tile ℝ a b) :
    load exact mask (fun i j => real (tile i j)) =
      fun i j => real (if mask i j then tile i j else 0) := by
  funext i j
  unfold load
  split <;> rfl

theorem dot_real {a b c : Nat} (precision : Precision) (x : Tile ℝ a b) (y : Tile ℝ b c) (i : Fin a)
    (j : Fin c) :
    exact.dot precision (fun i k => real (x i k)) (fun k j => real (y k j)) i j =
      real (∑ k, x i k * y k j) :=
  sum_real fun k => x i k * y k j

theorem onlineSoftmax_scores (precision : Precision) (scale : ℝ) (q : Tile ℝ blockM blockD)
    (k : Tile ℝ blockN blockD) (scoreMask : Fin blockM → Fin blockN → Bool) (i : Fin blockM) :
    (fun j => if scoreMask i j then
      exact.mul (exact.dot precision (fun i c => real (q i c))
        (trans fun j c => real (k j c)) i j) (real scale) else exact.negInf) =
      masked (scoreMask i) fun j => (∑ c, q i c * k j c) * scale := by
  funext j
  unfold masked trans
  rw [dot_real precision q (fun c j => k j c) i j]
  rfl

theorem sum_tile (f : Nat → ℝ) (start n : Nat) :
    (∑ j ∈ Finset.range start, f j) + ∑ j : Fin n, f (start + j) =
      ∑ j ∈ Finset.range (start + n), f j := by
  rw [Finset.sum_range_add, Finset.sum_range (fun j => f (start + j))]

theorem sum_lanes (f : Nat → ℝ) {d : Nat} (wide : d ≤ blockD) :
    (∑ c : Fin blockD, if c < d then f c else 0) = ∑ c ∈ Finset.range d, f c := by
  rw [← Finset.sum_range fun c => if c < d then f c else 0, ← Finset.sum_filter]
  congr 1
  ext c
  simp only [Finset.mem_filter, Finset.mem_range]
  omega

theorem onlineSoftmax_row (precision : Precision) (scale : ℝ) (q : Tile ℝ blockM blockD)
    (k v : Tile ℝ blockN blockD) (scoreMask : Fin blockM → Fin blockN → Bool)
    {before : Accumulators Extended blockM blockD} {i : Fin blockM} {c : Fin blockD}
    {weight weighted : ℝ}
    (holds : Holds weight weighted (before.runningMax i) (before.runningDenom i) (before.acc i c))
    (some : (before.runningMax i).IsReal ∨ ∃ j, scoreMask i j = true) :
    let after := onlineSoftmax exact precision (real scale) (fun i c => real (q i c))
      (fun j c => real (k j c)) (fun j c => real (v j c)) scoreMask before
    let score := fun j => (∑ c, q i c * k j c) * scale
    (after.runningMax i).IsReal ∧
      Holds (weight + ∑ j, if scoreMask i j then Real.exp (score j) else 0)
        (weighted + ∑ j, if scoreMask i j then Real.exp (score j) * v j c else 0)
        (after.runningMax i) (after.runningDenom i) (after.acc i c) := by
  have tile := holds.tile (scoreMask i) (fun j => (∑ c, q i c * k j c) * scale) (fun j => v j c) some
  rw [← onlineSoftmax_scores precision] at tile
  exact tile

end Row

/-! ## The loop -/

namespace FlashArgs

variable {args : FlashArgs ℝ} {startM offHz : Nat} {i : Fin args.blockM} {c : Fin args.blockD}

noncomputable def weight (args : FlashArgs ℝ) (z head row j : Nat) : ℝ :=
  if j ∈ args.visible row then Real.exp (args.score z head row j) else 0

noncomputable def weighted (args : FlashArgs ℝ) (z head row c j : Nat) : ℝ :=
  if j ∈ args.visible row then
    Real.exp (args.score z head row j) * args.v (z, head / args.nGroups, j, c)
  else 0

def realQueries (args : FlashArgs ℝ) (startM offHz : Nat) : Tile ℝ args.blockM args.blockD :=
  fun i c => if args.mMask startM i && args.dMask c then
    args.q (args.offZ offHz, args.offH offHz, args.offsM startM i, c) else 0

def realKeys (args : FlashArgs ℝ) (offHz startN : Nat) : Tile ℝ args.blockN args.blockD :=
  fun j c => if args.nMask startN j && args.dMask c then
    args.k (args.offZ offHz, args.offKvH offHz, startN + j, c) else 0

def realValues (args : FlashArgs ℝ) (offHz startN : Nat) : Tile ℝ args.blockN args.blockD :=
  fun j c => if args.nMask startN j && args.dMask c then
    args.v (args.offZ offHz, args.offKvH offHz, startN + j, c) else 0

theorem real_queries : args.real.queries exact startM offHz =
    fun i c => .real (args.realQueries startM offHz i c) :=
  load_real (fun i c => args.mMask startM i && args.dMask c) fun i c =>
    args.q (args.offZ offHz, args.offH offHz, args.offsM startM i, c)

theorem real_keys {startN : Nat} : args.real.keys exact offHz startN =
    fun j c => .real (args.realKeys offHz startN j c) :=
  load_real (fun j c => args.nMask startN j && args.dMask c) fun j c =>
    args.k (args.offZ offHz, args.offKvH offHz, startN + j, c)

theorem real_values {startN : Nat} : args.real.values exact offHz startN =
    fun j c => .real (args.realValues offHz startN j c) :=
  load_real (fun j c => args.nMask startN j && args.dMask c) fun j c =>
    args.v (args.offZ offHz, args.offKvH offHz, startN + j, c)

theorem nMask_of_visible {startN : Nat} {j : Fin args.blockN} {row : Nat}
    (member : startN + j ∈ args.visible row) : args.nMask startN j = true :=
  decide_eq_true ((args.mem_visible row).mp member).1

theorem realScore (wide : args.d ≤ args.blockD) (stored : args.mMask startM i = true) {startN : Nat}
    {j : Fin args.blockN} (member : startN + j ∈ args.visible (args.offsM startM i)) :
    (∑ c, args.realQueries startM offHz i c * args.realKeys offHz startN j c) * args.softmaxScale =
      args.score (args.offZ offHz) (args.offH offHz) (args.offsM startM i) (startN + j) := by
  have lanes (c : Fin args.blockD) :
      args.realQueries startM offHz i c * args.realKeys offHz startN j c =
        if c < args.d then
          args.q (args.offZ offHz, args.offH offHz, args.offsM startM i, c) *
            args.k (args.offZ offHz, args.offKvH offHz, startN + j, c)
        else 0 := by
    rw [realQueries, realKeys, stored, nMask_of_visible member, dMask]
    by_cases lane : c < args.d <;> simp [lane]
  rw [score, Finset.sum_congr rfl fun c _ => lanes c]
  rw [sum_lanes (fun c => args.q (args.offZ offHz, args.offH offHz, args.offsM startM i, c) *
    args.k (args.offZ offHz, args.offKvH offHz, startN + j, c)) wide]
  rfl

theorem loopBody_row (wide : args.d ≤ args.blockD) (stored : args.mMask startM i = true)
    (lane : c < args.d) (startN : Nat) {before : Accumulators Extended args.blockM args.blockD}
    {denom numer : ℝ}
    (holds : Holds denom numer (before.runningMax i) (before.runningDenom i) (before.acc i c))
    (some : (before.runningMax i).IsReal ∨
      ∃ j : Fin args.blockN, startN + j ∈ args.visible (args.offsM startM i)) :
    let z := args.offZ offHz
    let head := args.offH offHz
    let row := args.offsM startM i
    let after := args.real.loopBody exact startM offHz before startN
    (after.runningMax i).IsReal ∧
      Holds (denom + ∑ j : Fin args.blockN, args.weight z head row (startN + j))
        (numer + ∑ j : Fin args.blockN, args.weighted z head row c (startN + j))
        (after.runningMax i) (after.runningDenom i) (after.acc i c) := by
  intro z head row after
  have seen (j : Fin args.blockN) :
      args.scoreMask startM startN i j = true ↔ startN + j ∈ args.visible row := by
    rw [scoreMask, stored, nMask, mem_visible]
    cases args.isCausal <;> simp [row]
  have tile := onlineSoftmax_row args.precision args.softmaxScale
    (args.realQueries startM offHz) (args.realKeys offHz startN) (args.realValues offHz startN)
    (args.scoreMask startM startN) holds (some.imp id fun ⟨j, member⟩ => ⟨j, (seen j).mpr member⟩)
  have same : after = onlineSoftmax exact args.precision (.real args.softmaxScale)
      (fun i c => .real (args.realQueries startM offHz i c))
      (fun j c => .real (args.realKeys offHz startN j c))
      (fun j c => .real (args.realValues offHz startN j c)) (args.scoreMask startM startN) before := by
    rw [← real_queries, ← real_keys, ← real_values]
    rfl
  have weights (j : Fin args.blockN) : (if args.scoreMask startM startN i j = true then
      Real.exp ((∑ c, args.realQueries startM offHz i c * args.realKeys offHz startN j c) *
        args.softmaxScale) else 0) = args.weight z head row (startN + j) := by
    unfold weight
    by_cases member : startN + j ∈ args.visible row
    · rw [if_pos member, if_pos ((seen j).mpr member), realScore wide stored member]
    · rw [if_neg member, if_neg fun masked => member ((seen j).mp masked)]
  have values (j : Fin args.blockN) : (if args.scoreMask startM startN i j = true then
      Real.exp ((∑ c, args.realQueries startM offHz i c * args.realKeys offHz startN j c) *
        args.softmaxScale) * args.realValues offHz startN j c else 0) =
      args.weighted z head row c (startN + j) := by
    unfold weighted
    by_cases member : startN + j ∈ args.visible row
    · rw [if_pos member, if_pos ((seen j).mpr member), realScore wide stored member, realValues,
        nMask_of_visible member, dMask, decide_eq_true lane]
      rfl
    · rw [if_neg member, if_neg fun masked => member ((seen j).mp masked)]
  rw [same]
  simp only [weights, values] at tile
  exact tile

/-- Induction over the tiles: after each, the sums are over the keys before its end. -/
theorem loop_row (offHz : Nat) (wide : args.d ≤ args.blockD) (stored : args.mMask startM i = true)
    (lane : c < args.d) (positive : 1 ≤ args.blockN)
    (first : 0 ∈ args.visible (args.offsM startM i)) (tiles : Nat) :
    let z := args.offZ offHz
    let head := args.offH offHz
    let row := args.offsM startM i
    let after := args.real.loop exact startM offHz (List.range' 0 tiles args.blockN)
    (1 ≤ tiles → (after.runningMax i).IsReal) ∧
      Holds (∑ j ∈ Finset.range (args.blockN * tiles), args.weight z head row j)
        (∑ j ∈ Finset.range (args.blockN * tiles), args.weighted z head row c j)
        (after.runningMax i) (after.runningDenom i) (after.acc i c) := by
  intro z head row after
  induction tiles with
  | zero => exact ⟨fun impossible => absurd impossible (by decide), Holds.start⟩
  | succ tiles ih =>
      obtain ⟨isReal, holds⟩ := ih
      have some : ((args.real.loop exact startM offHz
          (List.range' 0 tiles args.blockN)).runningMax i).IsReal ∨
          ∃ j : Fin args.blockN, args.blockN * tiles + j ∈ args.visible row := by
        by_cases one : 1 ≤ tiles
        · exact .inl (isReal one)
        · have none : tiles = 0 := by omega
          refine .inr ⟨⟨0, positive⟩, ?_⟩
          rw [none]
          exact first
      obtain ⟨here, step⟩ := loopBody_row wide stored lane (args.blockN * tiles) holds some
      rw [sum_tile, sum_tile, ← Nat.mul_succ] at step
      have next : after = args.real.loopBody exact startM offHz
          (args.real.loop exact startM offHz (List.range' 0 tiles args.blockN))
          (args.blockN * tiles) := by
        simp only [after, loop, List.range'_concat, List.foldl_append, List.foldl_cons,
          List.foldl_nil, Nat.zero_add]
      rw [next]
      exact ⟨fun _ => here, step⟩

theorem sum_visible (positive : 1 ≤ args.blockN) (i : Fin args.blockM) (f : Nat → ℝ) :
    (∑ j ∈ Finset.range (args.blockN * (args.endN startM ⌈/⌉ args.blockN)),
      if j ∈ args.visible (args.offsM startM i) then f j else 0) =
    ∑ j ∈ args.visible (args.offsM startM i), f j := by
  have covers : args.visible (args.offsM startM i) ⊆
      Finset.range (args.blockN * (args.endN startM ⌈/⌉ args.blockN)) := by
    intro j member
    have bound := (ceilDiv_le_iff_le_mul positive).mp (le_refl (args.endN startM ⌈/⌉ args.blockN))
    have near := args.visible_lt_endN i member
    rw [Finset.mem_range]
    omega
  rw [Finset.sum_ite_mem, Finset.inter_eq_right.mpr covers]

theorem program_row (wide : args.d ≤ args.blockD) (stored : args.mMask startM i = true)
    (lane : c < args.d) (positive : 1 ≤ args.blockN)
    (first : 0 ∈ args.visible (args.offsM startM i)) :
    let final := args.real.loop exact startM offHz (tileStarts (args.endN startM) args.blockN)
    (∃ y, 0 < y ∧ final.runningDenom i = .real y) ∧
      final.quotient exact i c =
        .real (args.attention (args.offZ offHz) (args.offH offHz) (args.offsM startM i) c) := by
  obtain ⟨-, holds⟩ := loop_row offHz wide stored lane positive first
    (args.endN startM ⌈/⌉ args.blockN)
  simp only [weight, weighted] at holds
  rw [sum_visible positive, sum_visible positive] at holds
  exact holds.quotient (Finset.sum_pos (fun j _ => Real.exp_pos _) ⟨0, first⟩)

theorem launch_attention (args : FlashArgs ℝ) (keys : 1 ≤ args.nK) (blockM : 1 ≤ args.blockM)
    (blockN : 1 ≤ args.blockN) (wide : args.d ≤ args.blockD) {z : Nat} {before after : Cell → Extended}
    (result : (args.real.launch exact z).Result before after) {batch head row c : Nat}
    (batch_lt : batch < z) (head_lt : head < args.h) (row_lt : row < args.nQ) (c_lt : c < args.d) :
    after (batch, head, row, c) = .real (args.attention batch head row c) := by
  obtain ⟨startM, offHz, i, lane, inside, rfl, rfl, rfl, rfl, stored, kept⟩ :=
    args.real.program_of_row (A := exact) blockM wide batch_lt head_lt row_lt c_lt
  have first : 0 ∈ args.visible (args.offsM startM i) :=
    (args.mem_visible _).mpr ⟨keys, fun _ => Nat.zero_le _⟩
  refine result.written (args.real.separate z) inside (mem_store.mpr ⟨i, lane, ?_, rfl, ?_⟩)
  · rw [stored, kept]
    rfl
  · exact (program_row wide stored (of_decide_eq_true kept) blockN first).2

/-- What a launch of `flash_attention_2` stores is attention, and no row it stores meets minus infinity
less itself or a zero denominator on the way. -/
theorem stores_attention (args : FlashArgs ℝ) (keys : 1 ≤ args.nK) (blockM : 1 ≤ args.blockM)
    (blockN : 1 ≤ args.blockN) (wide : args.d ≤ args.blockD) (z : Nat) :
    (∀ before after, (args.real.launch exact z).Result before after →
      ∀ batch < z, ∀ head < args.h, ∀ row < args.nQ, ∀ c < args.d,
        after (batch, head, row, c) = .real (args.attention batch head row c)) ∧
    ∀ startM offHz i c, args.mMask startM i = true → args.dMask c = true →
      (∀ j ∈ args.visible (args.offsM startM i), j < args.endN startM) ∧
      (∀ starts, starts <+: tileStarts (args.endN startM) args.blockN → starts ≠ [] →
        ((args.real.loop exact startM offHz starts).runningMax i).IsReal) ∧
      ∃ y, 0 < y ∧ (args.real.loop exact startM offHz
        (tileStarts (args.endN startM) args.blockN)).runningDenom i = .real y := by
  have first (row : Nat) : 0 ∈ args.visible row :=
    (args.mem_visible row).mpr ⟨keys, fun _ => Nat.zero_le _⟩
  constructor
  · intro before after result batch batch_lt head head_lt row row_lt c c_lt
    obtain ⟨startM, offHz, i, lane, inside, rfl, rfl, rfl, rfl, stored, kept⟩ :=
      args.real.program_of_row (A := exact) blockM wide batch_lt head_lt row_lt c_lt
    refine result.written (args.real.separate z) inside (mem_store.mpr ⟨i, lane, ?_, rfl, ?_⟩)
    · rw [stored, kept]
      rfl
    · exact (program_row wide stored (of_decide_eq_true kept) blockN (first _)).2
  · intro startM offHz i c stored kept
    refine ⟨fun j member => args.visible_lt_endN i member, fun starts before nonempty => ?_,
      (program_row wide stored (of_decide_eq_true kept) blockN (first _)).1⟩
    obtain ⟨tiles, rfl⟩ : ∃ tiles, starts = List.range' 0 tiles args.blockN := by
      refine ⟨starts.length, ?_⟩
      have taken := List.prefix_iff_eq_take.mp before
      have shorter := before.length_le
      rw [tileStarts, List.length_range'] at shorter
      rw [tileStarts, List.take_range'_of_length_ge shorter] at taken
      exact taken
    refine (loop_row offHz wide stored (of_decide_eq_true kept) blockN (first _) tiles).1 ?_
    exact Nat.pos_of_ne_zero fun none => nonempty (List.range'_eq_nil_iff.mpr none)

noncomputable def sample : FlashArgs ℝ where
  q := fun (_, _, row, _) => row
  k := fun (_, _, j, _) => j
  v := fun (_, _, j, _) => j
  h := 1
  nQ := 2
  nK := 3
  d := 1
  softmaxScale := 1
  queryOffset := 1
  blockM := 2
  blockN := 2
  blockD := 1
  isCausal := true
  precision := .ieee
  nGroups := 1

theorem stores_attention_sample :
    ∃ after, (sample.real.launch exact 1).Result (fun _ => .undefined) after ∧
      after (0, 0, 1, 0) = .real (sample.attention 0 0 1 0) :=
  have result : (sample.real.launch exact 1).Result (fun _ => .undefined)
      (writeAll (fun _ => .undefined)
        ((sample.real.launch exact 1).writesOf (sample.real.launch exact 1).programs)) :=
    ⟨_, List.Perm.refl _, rfl⟩
  ⟨_, result, (stores_attention sample (by decide) (by decide) (by decide) (by decide) 1).1 _ _
    result 0 (by decide) 0 (by decide) 1 (by decide) 0 (by decide)⟩

end FlashArgs

def Tensor.real {ι : Type} (t : Tensor ι ℝ) : Tensor ι Extended where
  shape := t.shape
  dtype := t.dtype
  isCuda := t.isCuda
  value i := .real (t.value i)

theorem flashAttentionForward_attention {q k v : Tensor Cell ℝ} {isCausal : Bool} {queryOffset : Nat}
    {l : Launch Cell Extended}
    (ok : flashAttentionForward exact q.real k.real v.real isCausal queryOffset = .ok l)
    (keys : 1 ≤ k.shape.2.2.1) {before after : Cell → Extended} (result : l.Result before after)
    {batch head row c : Nat} (batch_lt : batch < q.shape.1) (head_lt : head < q.shape.2.1)
    (row_lt : row < q.shape.2.2.1) (c_lt : c < q.shape.2.2.2) :
    ∃ blockM blockN, after (batch, head, row, c) = .real ((flashArgs (1 / Real.sqrt q.shape.2.2.2)
      q k v isCausal queryOffset blockM blockN).attention batch head row c) := by
  obtain ⟨blockM, blockN, blocks, -, rfl⟩ := flashAttentionForward_ok ok
  obtain ⟨positiveM, positiveN⟩ := tilesOf_ok blocks
  refine ⟨blockM, blockN, ?_⟩
  exact FlashArgs.launch_attention (flashArgs (1 / Real.sqrt q.shape.2.2.2) q k v isCausal
    queryOffset blockM blockN) keys positiveM positiveN (le_nextPowerOf2 _) result batch_lt head_lt
    row_lt c_lt

end LlmServing.Kernels
