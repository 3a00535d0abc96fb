import Mathlib.Algebra.BigOperators.Fin
import Mathlib.Algebra.Order.BigOperators.Group.Finset
import Mathlib.Algebra.Order.BigOperators.Group.List
import Mathlib.Algebra.Order.Floor.Ring
import Mathlib.Data.List.FinRange
import Mathlib.Data.List.Sort

/-!
# The method of largest remainders

Exact shares that add up to a whole number, each rounded down, and what is left given out one seat
each to the shares that lost the most.
-/

namespace LlmServing.Lib.Apportion

variable {K : Type*} {n : Nat}

section

variable [LinearOrder K]

/-- From the largest remainder on, the earlier of two equal ones first. -/
def ranked (remainder : Fin n → K) : List (Fin n) :=
  (List.finRange n).insertionSort fun i j => remainder j ≤ remainder i

theorem ranked_perm (remainder : Fin n → K) : (ranked remainder).Perm (List.finRange n) :=
  List.perm_insertionSort _ _

theorem ranked_sorted (remainder : Fin n → K) :
    (ranked remainder).Pairwise fun i j => remainder j ≤ remainder i := by
  have total : Std.Total fun i j : Fin n => remainder j ≤ remainder i :=
    ⟨fun i j => le_total (remainder j) (remainder i)⟩
  have trans : IsTrans (Fin n) fun i j => remainder j ≤ remainder i :=
    ⟨fun _ _ _ first second => second.trans first⟩
  exact List.pairwise_insertionSort _ _

def seated (remainder : Fin n → K) (seats : Nat) : List (Fin n) := (ranked remainder).take seats

theorem seated_nodup (remainder : Fin n → K) (seats : Nat) : (seated remainder seats).Nodup :=
  ((ranked_perm remainder).nodup_iff.mpr (List.nodup_finRange n)).sublist (List.take_sublist _ _)

theorem length_seated (remainder : Fin n → K) {seats : Nat} (few : seats ≤ n) :
    (seated remainder seats).length = seats := by
  rw [seated, List.length_take, (ranked_perm remainder).length_eq, List.length_finRange,
    Nat.min_eq_left few]

theorem le_of_seated {remainder : Fin n → K} {seats : Nat} {i j : Fin n}
    (given : j ∈ seated remainder seats) (other : i ∉ seated remainder seats) :
    remainder i ≤ remainder j := by
  have member : i ∈ ranked remainder := (ranked_perm remainder).mem_iff.mpr (List.mem_finRange i)
  have sorted := ranked_sorted remainder
  rw [← List.take_append_drop seats (ranked remainder)] at sorted member
  have behind := (List.mem_append.mp member).resolve_left other
  exact (List.pairwise_append.mp sorted).2.2 j given i behind

end

variable [Field K] [LinearOrder K] [IsStrictOrderedRing K] [FloorRing K] {exact : Fin n → K}
  {seats : Nat}

def lost (exact : Fin n → K) (i : Fin n) : K := Int.fract (exact i)

theorem seats_le (leftover : ∑ i, lost exact i = seats) : seats ≤ n := by
  have each : ∑ i, lost exact i ≤ ∑ _i : Fin n, (1 : K) :=
    Finset.sum_le_sum fun i _ => (Int.fract_lt_one (exact i)).le
  rw [leftover, Finset.sum_const, Finset.card_fin, nsmul_eq_mul, mul_one] at each
  exact_mod_cast each

/-- The seats are as many as all that was lost, and nobody lost a whole one, so they run out before
the shares that lost something do. -/
theorem lost_pos_of_seated (leftover : ∑ i, lost exact i = seats) {i : Fin n}
    (given : i ∈ seated (lost exact) seats) : 0 < lost exact i := by
  obtain ⟨place, inside, here⟩ := List.getElem_of_mem given
  simp only [seated, List.getElem_take, List.length_take] at here inside
  by_contra nothing
  have front : (((ranked (lost exact)).take place).map (lost exact)).sum ≤ place := by
    have each := List.sum_le_card_nsmul (((ranked (lost exact)).take place).map (lost exact)) 1
      (by
        intro x member
        obtain ⟨j, -, rfl⟩ := List.mem_map.mp member
        exact (Int.fract_lt_one (exact j)).le)
    rw [List.length_map, List.length_take, Nat.min_eq_left (by omega), nsmul_eq_mul,
      mul_one] at each
    exact each
  have behind : (((ranked (lost exact)).drop place).map (lost exact)).sum ≤ 0 := by
    have each := List.sum_le_card_nsmul (((ranked (lost exact)).drop place).map (lost exact)) 0
      (by
        intro x member
        obtain ⟨j, later, rfl⟩ := List.mem_map.mp member
        have sorted := (ranked_sorted (lost exact)).sublist (List.drop_sublist place _)
        rw [List.drop_eq_getElem_cons (by omega), here] at sorted later
        rcases List.mem_cons.mp later with rfl | later
        · exact not_lt.mp nothing
        · exact ((List.pairwise_cons.mp sorted).1 j later).trans (not_lt.mp nothing))
    rwa [nsmul_zero] at each
  have whole : ((ranked (lost exact)).map (lost exact)).sum = seats := by
    rw [((ranked_perm (lost exact)).map _).sum_eq, ← List.ofFn_eq_map, List.sum_ofFn, leftover]
  rw [← List.take_append_drop place (ranked (lost exact)), List.map_append,
    List.sum_append] at whole
  have few : (seats : K) ≤ place := whole ▸ (add_le_add front behind).trans_eq (add_zero _)
  have less : seats ≤ place := by exact_mod_cast few
  omega

def share (exact : Fin n → K) (seats : Nat) (i : Fin n) : ℤ :=
  ⌊exact i⌋ + if i ∈ seated (lost exact) seats then 1 else 0

omit [IsStrictOrderedRing K] in
theorem floor_le_share (exact : Fin n → K) (seats : Nat) (i : Fin n) :
    ⌊exact i⌋ ≤ share exact seats i := by
  unfold share
  split <;> omega

theorem share_near (leftover : ∑ i, lost exact i = seats) (i : Fin n) :
    |(share exact seats i : K) - exact i| < 1 := by
  have low := Int.fract_nonneg (exact i)
  have high := Int.fract_lt_one (exact i)
  have split := Int.floor_add_fract (exact i)
  rw [abs_lt, share]
  by_cases given : i ∈ seated (lost exact) seats
  · have positive : 0 < Int.fract (exact i) := lost_pos_of_seated leftover given
    rw [if_pos given]
    push_cast
    constructor <;> linarith
  · rw [if_neg given]
    push_cast
    constructor <;> linarith

theorem sum_share (leftover : ∑ i, lost exact i = seats) :
    ∑ i, share exact seats i = ∑ i, ⌊exact i⌋ + seats := by
  have given : (∑ i : Fin n, if i ∈ seated (lost exact) seats then (1 : ℤ) else 0) = seats := by
    rw [Finset.sum_boole]
    have same : Finset.univ.filter (· ∈ seated (lost exact) seats) =
        (seated (lost exact) seats).toFinset := by
      ext i
      simp
    rw [same, List.toFinset_card_of_nodup (seated_nodup _ _), length_seated _ (seats_le leftover)]
  simp only [share, Finset.sum_add_distrib, given]

theorem share_mono {i j : Fin n} (more : exact j < exact i) :
    share exact seats j ≤ share exact seats i := by
  have floors := Int.floor_mono more.le
  unfold share
  by_cases same : ⌊exact j⌋ = ⌊exact i⌋
  · have less : lost exact j < lost exact i := by
      rw [lost, lost, ← Int.self_sub_floor, ← Int.self_sub_floor, same]
      exact sub_lt_sub_right more _
    have kept : j ∈ seated (lost exact) seats → i ∈ seated (lost exact) seats := fun given =>
      by_contra fun other => (le_of_seated given other).not_gt less
    split_ifs with first second second
    · omega
    · exact absurd (kept first) second
    · omega
    · omega
  · split_ifs <;> omega

end LlmServing.Lib.Apportion
