import Mathlib.Data.List.MinMax
import Mathlib.Data.List.Sort
import Mathlib.Data.Rat.Defs
import Mathlib.Algebra.Order.Ring.Rat

/-!
# What does not depend on the order of a list

Sorting, extremes and the most frequent element, of lists that are permutations of each other.
-/

namespace LlmServing.Lib

variable {α β : Type}

section

variable [LinearOrder α] {xs ys : List α}

theorem min?_congr (perm : xs.Perm ys) : xs.min? = ys.min? := by
  refine Option.ext fun least => ?_
  rw [List.min?_eq_some_iff, List.min?_eq_some_iff, perm.mem_iff]
  exact and_congr_right fun _ => forall_congr' fun other => by rw [perm.mem_iff]

theorem max?_congr (perm : xs.Perm ys) : xs.max? = ys.max? := by
  refine Option.ext fun greatest => ?_
  rw [List.max?_eq_some_iff, List.max?_eq_some_iff, perm.mem_iff]
  exact and_congr_right fun _ => forall_congr' fun other => by rw [perm.mem_iff]

end

theorem insertionSort_key_congr [LinearOrder β] (key : α → β) {xs ys : List α}
    (apart : (xs.map key).Nodup) (perm : xs.Perm ys) :
    xs.insertionSort (fun a b => key a ≤ key b) = ys.insertionSort (fun a b => key a ≤ key b) := by
  have total : Std.Total fun a b => key a ≤ key b := ⟨fun a b => le_total (key a) (key b)⟩
  have trans : IsTrans α fun a b => key a ≤ key b := ⟨fun _ _ _ => le_trans⟩
  have sorted (zs : List α) := List.pairwise_insertionSort (fun a b => key a ≤ key b) zs
  have same : (xs.insertionSort fun a b => key a ≤ key b).Perm (ys.insertionSort fun a b => key a ≤ key b) :=
    (List.perm_insertionSort _ xs).trans (perm.trans (List.perm_insertionSort _ ys).symm)
  refine same.eq_of_pairwise (fun a b here there le ge => ?_) (sorted xs) (sorted ys)
  have mine : a ∈ xs := (List.mem_insertionSort _).mp here
  have other : b ∈ xs := perm.mem_iff.mpr ((List.mem_insertionSort _).mp there)
  exact List.inj_on_of_nodup_map apart mine other (le_antisymm le ge)

section

variable [DecidableEq α] {xs ys : List α}

def mostCommon (xs : List α) : Option α := xs.argmax fun a => xs.count a

theorem mostCommon_mem {common : α} (most : mostCommon xs = some common) : common ∈ xs :=
  List.argmax_mem most

theorem mostCommon_eq {common : α} (some : xs ≠ [])
    (most : ∀ other ∈ xs, other ≠ common → xs.count other < xs.count common) :
    mostCommon xs = .some common := by
  cases greatest : mostCommon xs with
  | none => exact absurd (List.argmax_eq_none.mp greatest) some
  | some first =>
      have member := mostCommon_mem greatest
      by_contra different
      have less := most first member fun same => different (congrArg Option.some same)
      have present : common ∈ xs := List.count_pos_iff.mp (Nat.zero_lt_of_lt less)
      exact absurd (List.le_of_mem_argmax present greatest) (Nat.not_le.mpr less)

theorem mostCommon_congr (perm : xs.Perm ys)
    (most : ∃ common, ∀ other ∈ xs, other ≠ common → xs.count other < xs.count common) :
    mostCommon xs = mostCommon ys := by
  obtain ⟨common, most⟩ := most
  by_cases none : xs = []
  · subst none
    rw [perm.nil_eq]
  · have some : ys ≠ [] := fun same => none (List.Perm.eq_nil (same ▸ perm))
    rw [mostCommon_eq none most, mostCommon_eq some]
    intro other member different
    rw [← perm.count_eq, ← perm.count_eq]
    exact most other (perm.mem_iff.mpr member) different

end

end LlmServing.Lib
