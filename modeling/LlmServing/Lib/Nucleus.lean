import Mathlib.Algebra.GroupWithZero.Nat
import Mathlib.Algebra.Order.BigOperators.Group.Finset
import Mathlib.Algebra.Order.Ring.Defs
import Mathlib.Data.Fintype.BigOperators
import Mathlib.Order.Interval.Finset.Fin

/-!
# Top-k, then top-p

Masses by rank: the first `k` are kept, and of these the ones whose mass before them is at most a
share `p` of what was kept.
-/

namespace LlmServing.Lib.Nucleus

variable {K : Type*} [Semiring K] [LinearOrder K] [IsStrictOrderedRing K] {n : Nat}

def kept (k : Nat) (mass : Fin n → K) (rank : Fin n) : K := if rank.val < k then mass rank else 0

def before (mass : Fin n → K) (rank : Fin n) : K := ∑ earlier ∈ Finset.Iio rank, mass earlier

def Survives (k : Nat) (p : K) (mass : Fin n → K) (rank : Fin n) : Prop :=
  rank.val < k ∧ before (kept k mass) rank ≤ p * ∑ other, kept k mass other

instance (k : Nat) (p : K) (mass : Fin n → K) (rank : Fin n) : Decidable (Survives k p mass rank) :=
  inferInstanceAs (Decidable (_ ∧ _))

section

variable {mass : Fin n → K} (nonneg : ∀ rank, 0 ≤ mass rank)

include nonneg

omit [IsStrictOrderedRing K] in
theorem kept_nonneg (k : Nat) (rank : Fin n) : 0 ≤ kept k mass rank := by
  unfold kept
  split
  · exact nonneg rank
  · exact le_rfl

theorem before_mono : Monotone (before mass) := fun _ _ earlier =>
  Finset.sum_le_sum_of_subset_of_nonneg (Finset.Iio_subset_Iio earlier) fun rank _ _ => nonneg rank

theorem before_le_sum (rank : Fin n) : before mass rank ≤ ∑ other, mass other :=
  Finset.sum_le_sum_of_subset_of_nonneg (Finset.subset_univ _) fun rank _ _ => nonneg rank

theorem Survives.earlier {k : Nat} {p : K} {rank earlier : Fin n} (here : Survives k p mass rank)
    (le : earlier ≤ rank) : Survives k p mass earlier :=
  ⟨lt_of_le_of_lt (Fin.le_def.mp le) here.1,
    (before_mono (kept_nonneg nonneg k) le).trans here.2⟩

omit nonneg [LinearOrder K] [IsStrictOrderedRing K] in
theorem before_first [NeZero n] (mass : Fin n → K) : before mass 0 = 0 := by
  have none : Finset.Iio (0 : Fin n) = ∅ := Finset.Iio_eq_empty.mpr fun rank _ => Fin.zero_le rank
  rw [before, none, Finset.sum_empty]

theorem survives_first [NeZero n] {k : Nat} {p : K} (some : 0 < k) (share : 0 ≤ p) :
    Survives k p mass 0 := by
  constructor
  · exact some
  · rw [before_first]
    exact mul_nonneg share (Finset.sum_nonneg fun rank _ => kept_nonneg nonneg k rank)

theorem survives_all {k : Nat} (all : n ≤ k) (rank : Fin n) : Survives k 1 mass rank :=
  ⟨rank.isLt.trans_le all, by
    rw [one_mul]
    exact before_le_sum (kept_nonneg nonneg k) rank⟩

theorem exists_survives_iff (k : Nat) (p : K) :
    ∃ count ≤ n, ∀ rank : Fin n, Survives k p mass rank ↔ rank.val < count := by
  classical
  have bounded : ∃ count : Nat, ∀ rank : Fin n, Survives k p mass rank → rank.val < count :=
    ⟨n, fun rank _ => rank.isLt⟩
  refine ⟨Nat.find bounded, Nat.find_min' bounded fun rank _ => rank.isLt, fun rank => ⟨?_, ?_⟩⟩
  · exact Nat.find_spec bounded rank
  · intro inside
    have past := Nat.find_min bounded inside
    push Not at past
    obtain ⟨later, survives, le⟩ := past
    exact survives.earlier nonneg le

end

end LlmServing.Lib.Nucleus
