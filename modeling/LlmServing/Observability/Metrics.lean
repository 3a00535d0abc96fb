import LlmServing.Lib.Decimal
import LlmServing.Lib.Fallible
import LlmServing.Lib.Ranks
import LlmServing.Lib.Unordered
import Mathlib.Algebra.Order.BigOperators.Group.List
import Mathlib.Algebra.Order.Floor.Div
import Mathlib.Algebra.Order.Ring.Nat
import Mathlib.GroupTheory.GroupAction.Ring

/-!
# Percentiles and the sample sizes they need

The aggregation of `metrics.py`, and `trusted_ms` of `plotting.py`, which drops a percentile over too
few samples. Latencies are exact rationals, or any values with a total order, and `round` is decimal.
-/

namespace LlmServing.Observability

open Lib

section

variable {α : Type} [LinearOrder α]

def rankIndex (p : ℚ) (n : Nat) : Nat :=
  let rank := ⌈roundDigits (p * n / 100) 9⌉ - 1
  (max 0 (min rank (n - 1))).toNat

def percentile (values : List α) (p : ℚ) : Except String α :=
  if values.isEmpty then throw "percentile of empty sequence"
  else
    let ordered := values.insertionSort (· ≤ ·)
    match ordered[rankIndex p ordered.length]? with
    | some value => pure value
    | none => throw "list index out of range"

def minSamples (p : ℚ) : Int := ⌈roundDigits (100 / (100 - p)) 6⌉

end

structure LatencySummary where
  count : Nat
  p50 : ℚ
  p90 : ℚ
  p95 : ℚ
  p99 : ℚ
  p999 : ℚ
  mean : ℚ
  min : ℚ
  max : ℚ

def summarize (values : List ℚ) : Except String LatencySummary :=
  match values.min?, values.max? with
  | some min, some max => do
      let p50 ← percentile values 50
      let p90 ← percentile values 90
      let p95 ← percentile values 95
      let p99 ← percentile values 99
      let p999 ← percentile values (999 / 10)
      pure
        { count := values.length, p50, p90, p95, p99, p999
          mean := values.sum / values.length, min, max }
  | _, _ => throw "summarize of empty sequence"

inductive PercentileName where
  | p50 | p95 | p99
  deriving DecidableEq

def PercentileName.percent : PercentileName → ℚ
  | .p50 => 50
  | .p95 => 95
  | .p99 => 99

def PercentileName.of (summary : LatencySummary) : PercentileName → ℚ
  | .p50 => summary.p50
  | .p95 => summary.p95
  | .p99 => summary.p99

def trustedMs (summary : Option LatencySummary) (name : PercentileName) : Option ℚ :=
  match summary with
  | none => none
  | some summary =>
      if summary.count < minSamples name.percent then none else some (name.of summary * 1000)

theorem ceil_div_natCast (a : Nat) {b : Nat} (positive : 0 < b) :
    ⌈(a : ℚ) / b⌉ = ((a ⌈/⌉ b : Nat) : ℤ) := by
  have scale : (0 : ℚ) < b := by exact_mod_cast positive
  have covers : a ≤ b * (a ⌈/⌉ b) := le_smul_ceilDiv positive
  have close : b * (a ⌈/⌉ b) < a + b := by
    rw [Nat.ceilDiv_eq_add_pred_div]
    have part := Nat.mul_div_le (a + b - 1) b
    omega
  rw [Int.ceil_eq_iff, div_le_iff₀ scale, lt_div_iff₀ scale]
  constructor
  · have cast : (b : ℚ) * (a ⌈/⌉ b : Nat) < a + b := by exact_mod_cast close
    push_cast
    linarith
  · have cast : (a : ℚ) ≤ b * (a ⌈/⌉ b : Nat) := by exact_mod_cast covers
    push_cast
    linarith

theorem rankIndex_eq {k n : Nat} (percents : k ≤ 1000) :
    rankIndex ((k : ℚ) / 10) n = (k * n) ⌈/⌉ 1000 - 1 := by
  have exact : ((k : ℚ) / 10 * n / 100) * 10 ^ 9 = ((k * n * 10 ^ 6 : Nat) : ℤ) := by
    push_cast
    ring
  have same : (k : ℚ) / 10 * n / 100 = ((k * n : Nat) : ℚ) / (1000 : Nat) := by
    push_cast
    ring
  have few : (k * n) ⌈/⌉ 1000 ≤ n := by
    rw [ceilDiv_le_iff_le_mul (by decide)]
    exact Nat.mul_le_mul_right n percents
  rw [rankIndex, roundDigits_of_int exact, same, ceil_div_natCast _ (by decide)]
  omega

theorem minSamples_eq {k : Nat} (percents : k ≤ 999) :
    minSamples ((k : ℚ) / 10) = ((1000 ⌈/⌉ (1000 - k) : Nat) : ℤ) := by
  have positive : 0 < 1000 - k := by omega
  have cast : ((1000 - k : Nat) : ℚ) = 1000 - k := Nat.cast_sub (by omega)
  have scale : (0 : ℚ) < 1000 - k := by
    rw [← cast]
    exact_mod_cast positive
  have same : (100 : ℚ) / (100 - k / 10) = ((1000 : Nat) : ℚ) / (1000 - k : Nat) := by
    rw [cast, div_eq_div_iff (by linarith) (by linarith)]
    push_cast
    ring
  have ceiling := ceil_div_natCast 1000 positive
  rw [minSamples, same, ceil_roundDigits, ceiling]
  -- A share of a thousand clears the integer below it by a thousandth at least.
  have above : (1000 - k) * (1000 ⌈/⌉ (1000 - k)) < 1000 + (1000 - k) := by
    rw [Nat.ceilDiv_eq_add_pred_div]
    have part := Nat.mul_div_le (1000 + (1000 - k) - 1) (1000 - k)
    omega
  have clear : ((1000 - k : Nat) : ℚ) * (1000 ⌈/⌉ (1000 - k) : Nat) + 1 ≤ 1000 + (1000 - k : Nat) := by
    exact_mod_cast above
  rw [ceiling, lt_div_iff₀ (cast ▸ scale)]
  rw [cast] at clear ⊢
  push_cast
  have most : (0 : ℚ) ≤ k := Nat.cast_nonneg k
  linarith

/-! ## The nearest rank -/

section

variable {α : Type} [LinearOrder α] {values : List α}

theorem percentile_eq (some : values ≠ []) {k : Nat} (percents : k ≤ 1000) :
    ∃ v, (values.insertionSort (· ≤ ·))[(k * values.length) ⌈/⌉ 1000 - 1]? = .some v ∧
      percentile values ((k : ℚ) / 10) = .ok v := by
  have positive : 0 < values.length := List.length_pos_iff.mpr some
  have few : (k * values.length) ⌈/⌉ 1000 ≤ values.length := by
    rw [ceilDiv_le_iff_le_mul (by decide)]
    exact Nat.mul_le_mul_right _ percents
  have length : (values.insertionSort (· ≤ ·)).length = values.length :=
    List.length_insertionSort _ _
  have inside : (k * values.length) ⌈/⌉ 1000 - 1 < (values.insertionSort (· ≤ ·)).length := by
    omega
  refine ⟨_, List.getElem?_eq_getElem inside, ?_⟩
  have filled : values.isEmpty = false := by simpa using some
  rw [percentile, filled, if_neg Bool.false_ne_true]
  dsimp only
  rw [length, rankIndex_eq percents, List.getElem?_eq_getElem inside]
  rfl

theorem percentile_mem {k : Nat} (percents : k ≤ 1000) {v : α} (computed : percentile values ((k : ℚ) / 10) = .ok v) :
    v ∈ values := by
  have some : values ≠ [] := by
    rintro rfl
    cases computed
  obtain ⟨w, ranked, found⟩ := percentile_eq some percents
  rw [found] at computed
  cases computed
  exact (isLeast_ranked ranked).1.1

theorem percentile_mono {k later : Nat} (le : k ≤ later) (within : later ≤ 1000) {v w : α}
    (first : percentile values ((k : ℚ) / 10) = .ok v)
    (second : percentile values ((later : ℚ) / 10) = .ok w) : v ≤ w := by
  have some : values ≠ [] := by
    rintro rfl
    cases first
  obtain ⟨v', ranked, found⟩ := percentile_eq some (le.trans within)
  obtain ⟨w', there, computed⟩ := percentile_eq some within
  have further : (k * values.length) ⌈/⌉ 1000 ≤ (later * values.length) ⌈/⌉ 1000 :=
    (gc_mul_ceilDiv (by decide)).monotone_l (Nat.mul_le_mul_right _ le)
  rw [found] at first
  rw [computed] at second
  cases first
  cases second
  exact ranked_mono (by omega) ranked there

def Covers (values : List α) (p : ℚ) (u : α) : Prop :=
  p / 100 * values.length ≤ values.countP (· ≤ u)

theorem covers_iff {k : Nat} (positive : 1 ≤ k) {u : α} (some : values ≠ []) :
    Covers values ((k : ℚ) / 10) u ↔
      (k * values.length) ⌈/⌉ 1000 - 1 < values.countP (· ≤ u) := by
  have share : (k : ℚ) / 10 / 100 * values.length ≤ values.countP (· ≤ u) ↔
      k * values.length ≤ 1000 * values.countP (· ≤ u) := by
    rw [← Nat.cast_le (α := ℚ)]
    push_cast
    constructor <;> intro le <;> linarith
  have above : 0 < (k * values.length) ⌈/⌉ 1000 := by
    have length := List.length_pos_iff.mpr some
    have product : 0 < k * values.length := Nat.mul_pos positive length
    by_contra none
    have nothing := (ceilDiv_le_iff_le_mul (a := 1000) (c := 0) (by decide)).mp (Nat.not_lt.mp none)
    omega
  rw [Covers, share, ← ceilDiv_le_iff_le_mul (by decide)]
  omega

theorem percentile_eq_greatest {k : Nat} (percents : k ≤ 999) (distinct : values.Nodup) {greatest : α}
    (most : IsGreatest {u | u ∈ values} greatest) :
    percentile values ((k : ℚ) / 10) ≠ .ok greatest ↔
      2 ≤ values.length ∧ minSamples ((k : ℚ) / 10) ≤ values.length := by
  have some : values ≠ [] := List.ne_nil_of_mem most.1
  have length := List.length_pos_iff.mpr some
  obtain ⟨v, ranked, found⟩ := percentile_eq some (percents.trans (by decide) : k ≤ 1000)
  have last : (.ok v : Except String α) = .ok greatest ↔
      (k * values.length) ⌈/⌉ 1000 - 1 + 1 = values.length := by
    rw [Except.ok.injEq]
    exact ranked_eq_greatest distinct ranked most
  have enough : 1000 ⌈/⌉ (1000 - k) ≤ values.length ↔
      (k * values.length) ⌈/⌉ 1000 ≤ values.length - 1 := by
    rw [ceilDiv_le_iff_le_mul (by omega), ceilDiv_le_iff_le_mul (by decide), Nat.sub_mul,
      Nat.mul_sub]
    have part : k * values.length ≤ 1000 * values.length :=
      Nat.mul_le_mul_right _ (percents.trans (by decide))
    omega
  have few : (k * values.length) ⌈/⌉ 1000 ≤ values.length := by
    rw [ceilDiv_le_iff_le_mul (by decide)]
    exact Nat.mul_le_mul_right _ (percents.trans (by decide))
  rw [found, Ne, last, minSamples_eq percents, Nat.cast_le, enough]
  omega

theorem minSamples_le_one {k : Nat} (percents : k ≤ 999) :
    minSamples ((k : ℚ) / 10) ≤ 1 ↔ k = 0 := by
  have one : 1000 ⌈/⌉ (1000 - k) ≤ 1 ↔ 1000 ≤ (1000 - k) * 1 := ceilDiv_le_iff_le_mul (by omega)
  rw [minSamples_eq percents]
  omega

theorem percentile_ne_greatest {k : Nat} (positive : 1 ≤ k) (percents : k ≤ 999)
    (distinct : values.Nodup) {greatest : α} (most : IsGreatest {u | u ∈ values} greatest) :
    percentile values ((k : ℚ) / 10) ≠ .ok greatest ↔
      minSamples ((k : ℚ) / 10) ≤ values.length := by
  have one := minSamples_le_one percents
  rw [percentile_eq_greatest percents distinct most]
  refine and_iff_right_of_imp fun enough => ?_
  omega

/-- The percentile is the smallest value that covers `p` percent of them, whatever their order, and
that of distinct values is not their maximum exactly from `min_samples` values on, but for one value
at `p = 0`. -/
theorem percentile_nearest_rank (values : List α) (some : values ≠ []) :
    (∀ k : Nat, 1 ≤ k → k ≤ 1000 → ∃ v, percentile values ((k : ℚ) / 10) = .ok v ∧
      IsLeast {u | u ∈ values ∧ Covers values ((k : ℚ) / 10) u} v ∧
      (∀ other : List α, other.Perm values → percentile other ((k : ℚ) / 10) = .ok v) ∧
      (∀ later : Nat, k ≤ later → later ≤ 1000 →
        ∃ w, percentile values ((later : ℚ) / 10) = .ok w ∧ v ≤ w) ∧
      ∀ greatest, IsGreatest {u | u ∈ values} greatest → v ≤ greatest) ∧
    ∀ k : Nat, k ≤ 999 → values.Nodup → ∀ greatest, IsGreatest {u | u ∈ values} greatest →
      ((percentile values ((k : ℚ) / 10) ≠ .ok greatest ↔
        minSamples ((k : ℚ) / 10) ≤ values.length) ↔ ¬(k = 0 ∧ values.length = 1)) := by
  constructor
  · intro k positive percents
    obtain ⟨v, ranked, found⟩ := percentile_eq some percents
    have least := isLeast_ranked ranked
    refine ⟨v, found, ?_, fun other perm => ?_, fun later le within => ?_, fun greatest most =>
      most.2 least.1.1⟩
    · simpa only [covers_iff positive some] using least
    · have others : other ≠ [] := fun none => some (List.nil_perm.mp (none ▸ perm))
      obtain ⟨w, there, computed⟩ := percentile_eq others percents
      rw [ranked_congr perm, perm.length_eq, ranked] at there
      rw [computed, Option.some.inj there]
    · obtain ⟨w, -, computed⟩ := percentile_eq some within
      exact ⟨w, computed, percentile_mono le within found computed⟩
  · intro k percents distinct greatest most
    have one := minSamples_le_one percents
    have length := List.length_pos_iff.mpr some
    rw [percentile_eq_greatest percents distinct most]
    constructor
    · rintro agree ⟨zero, single⟩
      have enough : minSamples ((k : ℚ) / 10) ≤ values.length := by
        rw [single]
        exact one.mpr zero
      have two := (agree.mpr enough).1
      omega
    · intro away
      refine and_iff_right_of_imp fun enough => ?_
      by_contra few
      have single : values.length = 1 := by omega
      rw [single] at enough
      exact away ⟨one.mp enough, single⟩

/-- One value is its own maximum at any percentile, and at `p = 0` it is said to be enough. -/
theorem percentile_nearest_rank_fails :
    ¬∀ k : Nat, k ≤ 999 → ∀ values : List Nat, values ≠ [] → values.Nodup →
      ∀ greatest, IsGreatest {u | u ∈ values} greatest →
        (percentile values ((k : ℚ) / 10) ≠ .ok greatest ↔
          minSamples ((k : ℚ) / 10) ≤ values.length) := by
  intro agree
  have most : IsGreatest {u | u ∈ [5]} 5 :=
    ⟨List.mem_singleton_self 5, fun u member => (List.mem_singleton.mp member).le⟩
  have same := agree 0 (by decide) [5] (by decide) (by decide) 5 most
  rw [percentile_eq_greatest (by decide) (by decide) most] at same
  have two : 2 ≤ [5].length := (same.mpr ((minSamples_le_one (by decide)).mpr rfl)).1
  exact absurd two (by decide)

theorem percentile_nearest_rank_sample :
    (∃ v, percentile [5, 1, 3, 2, 4] ((500 : Nat) / 10) = .ok v ∧
      IsLeast {u : Nat | u ∈ [5, 1, 3, 2, 4] ∧ Covers [5, 1, 3, 2, 4] ((500 : Nat) / 10) u} v) ∧
    (percentile [5, 1, 3, 2, 4] ((750 : Nat) / 10) ≠ .ok (5 : Nat) ↔
      minSamples ((750 : Nat) / 10) ≤ ([5, 1, 3, 2, 4] : List Nat).length) := by
  obtain ⟨nearest, trust⟩ := percentile_nearest_rank ([5, 1, 3, 2, 4] : List Nat) (by decide)
  obtain ⟨v, found, least, -⟩ := nearest 500 (by decide) (by decide)
  have most : IsGreatest {u | u ∈ ([5, 1, 3, 2, 4] : List Nat)} 5 := ⟨by decide, fun u member => by
    have all : ∀ u ∈ ([5, 1, 3, 2, 4] : List Nat), u ≤ 5 := by decide
    exact all u member⟩
  exact ⟨⟨v, found, least⟩, (trust 750 (by decide) (by decide) 5 most).mpr (by decide)⟩

end

/-! ## What is plotted -/

theorem summarize_percentile {values : List ℚ} {summary : LatencySummary}
    (summarized : summarize values = .ok summary) (name : PercentileName) :
    summary.count = values.length ∧ percentile values name.percent = .ok (name.of summary) := by
  unfold summarize at summarized
  split at summarized
  · obtain ⟨p50, half, summarized⟩ := bind_ok summarized
    obtain ⟨p90, -, summarized⟩ := bind_ok summarized
    obtain ⟨p95, most, summarized⟩ := bind_ok summarized
    obtain ⟨p99, nearly, summarized⟩ := bind_ok summarized
    obtain ⟨p999, -, summarized⟩ := bind_ok summarized
    cases summarized
    cases name with
    | p50 => exact ⟨rfl, half⟩
    | p95 => exact ⟨rfl, most⟩
    | p99 => exact ⟨rfl, nearly⟩
  · cases summarized

/-- What is reported of some values is in order. -/
structure LatencySummary.Ordered (summary : LatencySummary) (values : List ℚ) : Prop where
  count : summary.count = values.length
  least : IsLeast {u | u ∈ values} summary.min
  greatest : IsGreatest {u | u ∈ values} summary.max
  ranks : [summary.min, summary.p50, summary.p90, summary.p95, summary.p99, summary.p999,
    summary.max].Pairwise (· ≤ ·)
  mean : summary.min ≤ summary.mean ∧ summary.mean ≤ summary.max

theorem mean_between {values : List ℚ} (some : values ≠ []) {least greatest : ℚ}
    (below : ∀ u ∈ values, least ≤ u) (above : ∀ u ∈ values, u ≤ greatest) :
    least ≤ values.sum / values.length ∧ values.sum / values.length ≤ greatest := by
  have positive : (0 : ℚ) < values.length := Nat.cast_pos.mpr (List.length_pos_iff.mpr some)
  have low := List.card_nsmul_le_sum values least below
  have high := List.sum_le_card_nsmul values greatest above
  rw [nsmul_eq_mul] at low high
  constructor
  · rwa [le_div_iff₀ positive, mul_comm]
  · rwa [div_le_iff₀ positive, mul_comm]

theorem summarize_ordered {values : List ℚ} {summary : LatencySummary}
    (summarized : summarize values = .ok summary) : summary.Ordered values := by
  unfold summarize at summarized
  split at summarized
  · rename_i least greatest min max
    obtain ⟨p50, half, summarized⟩ := bind_ok summarized
    obtain ⟨p90, most, summarized⟩ := bind_ok summarized
    obtain ⟨p95, more, summarized⟩ := bind_ok summarized
    obtain ⟨p99, nearly, summarized⟩ := bind_ok summarized
    obtain ⟨p999, last, summarized⟩ := bind_ok summarized
    cases summarized
    obtain ⟨lowest, below⟩ := List.min?_eq_some_iff.mp min
    obtain ⟨highest, above⟩ := List.max?_eq_some_iff.mp max
    rw [show (50 : ℚ) = (500 : Nat) / 10 by norm_num] at half
    rw [show (90 : ℚ) = (900 : Nat) / 10 by norm_num] at most
    rw [show (95 : ℚ) = (950 : Nat) / 10 by norm_num] at more
    rw [show (99 : ℚ) = (990 : Nat) / 10 by norm_num] at nearly
    rw [show (999 / 10 : ℚ) = (999 : Nat) / 10 by norm_num] at last
    have chain : [least, p50, p90, p95, p99, p999, greatest].IsChain (· ≤ ·) := by
      refine .cons_cons (below _ (percentile_mem (by decide) half)) ?_
      refine .cons_cons (percentile_mono (by decide) (by decide) half most) ?_
      refine .cons_cons (percentile_mono (by decide) (by decide) most more) ?_
      refine .cons_cons (percentile_mono (by decide) (by decide) more nearly) ?_
      refine .cons_cons (percentile_mono (by decide) (by decide) nearly last) ?_
      exact .cons_cons (above _ (percentile_mem (by decide) last)) (.singleton _)
    exact ⟨rfl, ⟨lowest, below⟩, ⟨highest, above⟩, List.isChain_iff_pairwise.mp chain,
      mean_between (List.ne_nil_of_mem lowest) below above⟩
  · cases summarized

theorem trustedMs_eq_none {values : List ℚ} {summary : LatencySummary}
    (summarized : summarize values = .ok summary) (distinct : values.Nodup) {greatest : ℚ}
    (most : IsGreatest {u | u ∈ values} greatest) (name : PercentileName) :
    trustedMs (some summary) name = none ↔ name.of summary = greatest := by
  obtain ⟨count, computed⟩ := summarize_percentile summarized name
  obtain ⟨k, positive, percents, percent⟩ : ∃ k : Nat, 1 ≤ k ∧ k ≤ 999 ∧
      name.percent = (k : ℚ) / 10 := by
    cases name with
    | p50 => exact ⟨500, by decide, by decide, by norm_num [PercentileName.percent]⟩
    | p95 => exact ⟨950, by decide, by decide, by norm_num [PercentileName.percent]⟩
    | p99 => exact ⟨990, by decide, by decide, by norm_num [PercentileName.percent]⟩
  have trust := percentile_ne_greatest positive percents distinct most
  rw [← percent, computed, Ne, Except.ok.injEq] at trust
  rw [trustedMs, count]
  split
  · rename_i few
    exact iff_of_true rfl (by_contra fun other => Int.not_le.mpr few (trust.mp other))
  · rename_i enough
    exact iff_of_false (Option.some_ne_none _) (trust.mpr (Int.not_lt.mp enough))

theorem percentile_congr {α : Type} [LinearOrder α] {values values' : List α} (perm : values.Perm values')
    (p : ℚ) : percentile values p = percentile values' p := by
  have empty : values.isEmpty = values'.isEmpty := by
    rw [Bool.eq_iff_iff, List.isEmpty_iff_length_eq_zero, List.isEmpty_iff_length_eq_zero,
      perm.length_eq]
  unfold percentile
  rw [empty, ranked_congr perm]

theorem summarize_congr {values values' : List ℚ} (perm : values.Perm values') :
    summarize values = summarize values' := by
  unfold summarize
  rw [min?_congr perm, max?_congr perm, perm.sum_eq, perm.length_eq]
  simp only [percentile_congr perm]

theorem summarize_ok {values : List ℚ} (some : values ≠ []) : ∃ summary, summarize values = .ok summary := by
  have each (k : Nat) (percents : k ≤ 1000) : ∃ v, percentile values ((k : ℚ) / 10) = .ok v := by
    obtain ⟨v, -, computed⟩ := percentile_eq some percents
    exact ⟨v, computed⟩
  obtain ⟨p50, half⟩ := each 500 (by decide)
  obtain ⟨p90, most⟩ := each 900 (by decide)
  obtain ⟨p95, more⟩ := each 950 (by decide)
  obtain ⟨p99, nearly⟩ := each 990 (by decide)
  obtain ⟨p999, last⟩ := each 999 (by decide)
  obtain ⟨least, min⟩ := Option.isSome_iff_exists.mp (List.isSome_min?_iff.mpr some)
  obtain ⟨greatest, max⟩ := Option.isSome_iff_exists.mp (List.isSome_max?_iff.mpr some)
  norm_num at half most more nearly last
  unfold summarize
  rw [min, max]
  simp only [half, most, more, nearly, last]
  exact ⟨_, rfl⟩

/-- A table of summaries has one of each key's values. -/
theorem summarize_each {ι : Type} (values : ι → List ℚ) {keys : List ι} (filled : ∀ key ∈ keys, values key ≠ []) :
    ∃ summaries, (keys.mapM fun key => do
        let summary ← summarize (values key)
        pure (key, summary)) = .ok summaries ∧
      summaries.map (·.1) = keys ∧ ∀ pair ∈ summaries, pair.2.Ordered (values pair.1) := by
  induction keys with
  | nil => exact ⟨[], rfl, rfl, List.forall_mem_nil _⟩
  | cons key rest ih =>
      obtain ⟨some, others⟩ := List.forall_mem_cons.mp filled
      obtain ⟨summary, summarized⟩ := summarize_ok some
      obtain ⟨summaries, mapped, names, each⟩ := ih others
      refine ⟨(key, summary) :: summaries, ?_, congrArg (key :: ·) names,
        List.forall_mem_cons.mpr ⟨summarize_ordered summarized, each⟩⟩
      rw [List.mapM_cons, mapped, summarized]
      rfl

end LlmServing.Observability
