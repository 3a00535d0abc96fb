import Mathlib.Data.List.Sort
import Mathlib.Order.Bounds.Basic

/-!
# Order statistics of a list

The element at a rank of the sorted list, said of the list itself: it is the least whose lower set
has more than that many elements.
-/

namespace LlmServing.Lib

variable {α : Type*} [LinearOrder α] {list : List α} {rank : Nat}

theorem lt_countP_iff {ordered : List α} (sorted : ordered.Pairwise (· ≤ ·))
    (inside : rank < ordered.length) (u : α) :
    rank < ordered.countP (· ≤ u) ↔ ordered[rank] ≤ u := by
  induction ordered generalizing rank with
  | nil => cases inside
  | cons least rest ih =>
      obtain ⟨below, sorted⟩ := List.pairwise_cons.mp sorted
      by_cases first : least ≤ u
      · have counted : (least :: rest).countP (· ≤ u) = rest.countP (· ≤ u) + 1 :=
          List.countP_cons_of_pos (by simpa using first)
        rw [counted]
        cases rank with
        | zero => simpa using first
        | succ rank =>
            rw [List.getElem_cons_succ, ← ih sorted (by simpa using inside)]
            omega
      · have none : (least :: rest).countP (· ≤ u) = 0 := by
          refine List.countP_eq_zero.mpr fun v member => ?_
          rcases List.mem_cons.mp member with rfl | later
          · simpa using first
          · simpa using (not_le.mp first).trans_le (below v later)
        have above : least ≤ (least :: rest)[rank] := by
          cases rank with
          | zero => exact le_refl _
          | succ rank => exact below _ (List.getElem_mem _)
        rw [none]
        exact iff_of_false (Nat.not_lt_zero _) fun le => first (above.trans le)

theorem isLeast_ranked {v : α} (here : (list.insertionSort (· ≤ ·))[rank]? = some v) :
    IsLeast {u | u ∈ list ∧ rank < list.countP (· ≤ u)} v := by
  obtain ⟨inside, rfl⟩ := List.getElem?_eq_some_iff.mp here
  have sorted := List.pairwise_insertionSort (· ≤ ·) list
  have perm := List.perm_insertionSort (· ≤ ·) list
  refine ⟨⟨perm.mem_iff.mp (List.getElem_mem _), ?_⟩, fun u member => ?_⟩
  · rw [← perm.countP_eq, lt_countP_iff sorted inside]
  · have more := member.2
    rwa [← perm.countP_eq, lt_countP_iff sorted inside] at more

theorem ranked_congr {other : List α} (perm : other.Perm list) :
    other.insertionSort (· ≤ ·) = list.insertionSort (· ≤ ·) := by
  refine List.Perm.eq_of_pairwise' (List.pairwise_insertionSort (· ≤ ·) other)
    (List.pairwise_insertionSort (· ≤ ·) list) ?_
  exact (List.perm_insertionSort _ _).trans (perm.trans (List.perm_insertionSort _ _).symm)

theorem ranked_mono {rank' : Nat} {v v' : α} (le : rank ≤ rank')
    (here : (list.insertionSort (· ≤ ·))[rank]? = some v)
    (there : (list.insertionSort (· ≤ ·))[rank']? = some v') : v ≤ v' := by
  have later := (isLeast_ranked there).1
  exact (isLeast_ranked here).2 ⟨later.1, le.trans_lt later.2⟩

theorem ranked_eq_greatest {v greatest : α} (distinct : list.Nodup)
    (here : (list.insertionSort (· ≤ ·))[rank]? = some v)
    (most : IsGreatest {u | u ∈ list} greatest) : v = greatest ↔ rank + 1 = list.length := by
  have perm := List.perm_insertionSort (· ≤ ·) list
  have length : (list.insertionSort (· ≤ ·)).length = list.length := perm.length_eq
  obtain ⟨inside, ranked⟩ := List.getElem?_eq_some_iff.mp here
  obtain ⟨last, within, found⟩ := List.getElem_of_mem (perm.mem_iff.mpr most.1)
  have top : last + 1 = list.length := by
    by_contra short
    have next : last + 1 < (list.insertionSort (· ≤ ·)).length := by omega
    have least := isLeast_ranked (List.getElem?_eq_getElem next)
    have le : (list.insertionSort (· ≤ ·))[last + 1] ≤ (list.insertionSort (· ≤ ·))[last] :=
      found ▸ most.2 least.1.1
    have ge : (list.insertionSort (· ≤ ·))[last] ≤ (list.insertionSort (· ≤ ·))[last + 1] :=
      ranked_mono (Nat.le_succ last) (List.getElem?_eq_getElem within)
        (List.getElem?_eq_getElem next)
    have same := (List.Nodup.getElem_inj_iff (perm.nodup_iff.mpr distinct)).mp (le_antisymm le ge)
    omega
  rw [← ranked, ← found, List.Nodup.getElem_inj_iff (perm.nodup_iff.mpr distinct)]
  omega

end LlmServing.Lib
