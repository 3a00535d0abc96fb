import Mathlib.Algebra.BigOperators.Group.Finset.Basic
import Mathlib.Algebra.Order.BigOperators.Group.Finset

/-!
# Consecutive spans

Spans laid end to end, of the lengths `len`. Every index before the end of the last is in one of them.
-/

namespace LlmServing.Lib

variable {len : Nat → Nat}

def spanStart (len : Nat → Nat) (e : Nat) : Nat := ∑ i ∈ Finset.range e, len i

def InSpan (len : Nat → Nat) (e row : Nat) : Prop :=
  spanStart len e ≤ row ∧ row < spanStart len e + len e

theorem spanStart_succ (e : Nat) : spanStart len (e + 1) = spanStart len e + len e :=
  Finset.sum_range_succ len e

theorem spanStart_le {e e' : Nat} (le : e ≤ e') : spanStart len e ≤ spanStart len e' :=
  Finset.sum_le_sum_of_subset (Finset.range_subset_range.mpr le)

theorem exists_span {n row : Nat} (inside : row < spanStart len n) : ∃ e < n, InSpan len e row := by
  induction n with
  | zero => cases inside
  | succ n ih =>
      by_cases before : row < spanStart len n
      · obtain ⟨e, e_lt, here⟩ := ih before
        exact ⟨e, Nat.lt_succ_of_lt e_lt, here⟩
      · rw [spanStart_succ] at inside
        exact ⟨n, Nat.lt_succ_self n, Nat.le_of_not_lt before, inside⟩

theorem InSpan.unique {e e' row : Nat} (here : InSpan len e row) (there : InSpan len e' row) :
    e = e' := by
  have ordered {a b : Nat} (first : InSpan len a row) (second : InSpan len b row) : b ≤ a := by
    by_contra later
    have next : spanStart len (a + 1) ≤ spanStart len b := spanStart_le (Nat.lt_of_not_le later)
    rw [spanStart_succ] at next
    exact absurd first.2 (Nat.not_lt.mpr (next.trans second.1))
  exact Nat.le_antisymm (ordered there here) (ordered here there)

end LlmServing.Lib
