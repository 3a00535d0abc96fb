import LlmServing.Lib.Apportion
import Mathlib.Algebra.BigOperators.Field
import Mathlib.Data.List.Perm.Basic
import Mathlib.Data.Rat.Floor
import Mathlib.Tactic.FieldSimp
import Mathlib.Tactic.Linarith

/-!
# How often a run sends each shape of request

`shape_schedule` of `loadgen/client.py`. Weights and shares are exact rationals, and `rng.shuffle` is
any function that keeps what it shuffles.
-/

namespace LlmServing.LoadGen

open Lib.Apportion

structure RequestShape where
  name : String
  prompt : String
  maxTokens : Nat
  weight : ℚ
  deriving DecidableEq

def minRequestsPerShape : Nat := 20

def truncate (share : ℚ) : ℤ := if 0 ≤ share then ⌊share⌋ else ⌈share⌉

def sliceTo {α : Type} (list : List α) (stop : ℤ) : List α :=
  if 0 ≤ stop then list.take stop.toNat else list.take (list.length + stop).toNat

section

variable (workload : List RequestShape) (numRequests minPerShape : Nat)

def shapeFloor : Nat := min minPerShape (numRequests / (2 * workload.length))

def weightTotal : ℚ := (workload.map (·.weight)).sum

def exactShare (i : Fin workload.length) : ℚ :=
  let floor := shapeFloor workload numRequests minPerShape
  let byWeight : ℤ := numRequests - floor * workload.length
  floor + workload[i].weight / weightTotal workload * byWeight

/-- `counts` once the loop has given out what is left over. -/
def shapeCounts : Fin workload.length → ℤ :=
  let exact := exactShare workload numRequests minPerShape
  let counts := fun i => truncate (exact i)
  (sliceTo (ranked fun i => exact i - counts i) (numRequests - ∑ i, counts i)).foldl
    (fun counts i => Function.update counts i (counts i + 1)) counts

end

def shapeSchedule (shuffle : List RequestShape → List RequestShape) (workload : List RequestShape)
    (numRequests : Nat) (minPerShape : Nat := minRequestsPerShape) :
    Except String (List RequestShape) :=
  if workload.length = 0 then throw "integer division or modulo by zero"
  else if weightTotal workload = 0 then throw "division by zero"
  else
    let counts := shapeCounts workload numRequests minPerShape
    pure (shuffle ((List.finRange workload.length).flatMap fun i =>
      List.replicate (counts i).toNat workload[i]))

/-! ## The shares are apportioned -/

section

variable {workload : List RequestShape} {numRequests minPerShape : Nat}

theorem floors_le_half :
    2 * (workload.length * shapeFloor workload numRequests minPerShape) ≤ numRequests := by
  have few : shapeFloor workload numRequests minPerShape ≤ numRequests / (2 * workload.length) :=
    Nat.min_le_right _ _
  have product := Nat.mul_le_mul_left (2 * workload.length) few
  have part := Nat.mul_div_le numRequests (2 * workload.length)
  rw [← Nat.mul_assoc]
  omega

theorem sum_weights : ∑ i : Fin workload.length, workload[i].weight = weightTotal workload := by
  rw [weightTotal, ← List.sum_ofFn]
  congr 1
  exact List.ext_getElem (by simp) (by simp)

theorem weightTotal_pos (some : workload ≠ []) (weights : ∀ shape ∈ workload, 0 < shape.weight) :
    0 < weightTotal workload := by
  rw [← sum_weights]
  have index : (Finset.univ : Finset (Fin workload.length)).Nonempty :=
    ⟨⟨0, List.length_pos_iff.mpr some⟩, Finset.mem_univ _⟩
  exact Finset.sum_pos (fun i _ => weights _ (List.getElem_mem _)) index

theorem byWeight_nonneg :
    (0 : ℤ) ≤ numRequests - shapeFloor workload numRequests minPerShape * workload.length := by
  have half : 2 * (workload.length * shapeFloor workload numRequests minPerShape) ≤ numRequests :=
    floors_le_half
  rw [Nat.mul_comm workload.length] at half
  omega

section

variable (some : workload ≠ []) (weights : ∀ shape ∈ workload, 0 < shape.weight)

include some weights

theorem floor_le_exactShare (i : Fin workload.length) :
    (shapeFloor workload numRequests minPerShape : ℚ) ≤
      exactShare workload numRequests minPerShape i := by
  have part : 0 ≤ workload[i].weight / weightTotal workload :=
    div_nonneg (weights _ (List.getElem_mem _)).le (weightTotal_pos some weights).le
  have rest : (0 : ℚ) ≤
      ((numRequests - shapeFloor workload numRequests minPerShape * workload.length : ℤ) : ℚ) :=
    by exact_mod_cast byWeight_nonneg
  exact le_add_of_nonneg_right (mul_nonneg part rest)

theorem truncate_exactShare (i : Fin workload.length) :
    truncate (exactShare workload numRequests minPerShape i) =
      ⌊exactShare workload numRequests minPerShape i⌋ :=
  if_pos ((Nat.cast_nonneg _).trans (floor_le_exactShare some weights i))

theorem sum_exactShare :
    ∑ i, exactShare workload numRequests minPerShape i = numRequests := by
  have total := (weightTotal_pos some weights).ne'
  simp only [exactShare, Finset.sum_add_distrib, ← Finset.sum_mul, ← Finset.sum_div, sum_weights,
    Finset.sum_const, Finset.card_univ, Fintype.card_fin, nsmul_eq_mul, div_self total]
  push_cast
  ring

theorem exactShare_lt {i j : Fin workload.length} (lighter : workload[j].weight < workload[i].weight)
    (room : 0 < numRequests) :
    exactShare workload numRequests minPerShape j <
      exactShare workload numRequests minPerShape i := by
  have half : 2 * (workload.length * shapeFloor workload numRequests minPerShape) ≤ numRequests :=
    floors_le_half
  have rest : (0 : ℤ) <
      numRequests - shapeFloor workload numRequests minPerShape * workload.length := by
    rw [Nat.mul_comm workload.length] at half
    omega
  have rest : (0 : ℚ) <
      ((numRequests - shapeFloor workload numRequests minPerShape * workload.length : ℤ) : ℚ) := by
    exact_mod_cast rest
  have part := div_lt_div_of_pos_right lighter (weightTotal_pos some weights)
  exact add_lt_add_of_le_of_lt le_rfl (mul_lt_mul_of_pos_right part rest)

end

end

/-! ## The loop gives out the seats left over -/

section

variable {n : Nat}

theorem foldl_update_succ (counts : Fin n → ℤ) {given : List (Fin n)} (once : given.Nodup)
    (i : Fin n) :
    given.foldl (fun counts i => Function.update counts i (counts i + 1)) counts i =
      counts i + if i ∈ given then 1 else 0 := by
  induction given generalizing counts with
  | nil => simp
  | cons first given ih =>
      obtain ⟨new, once⟩ := List.nodup_cons.mp once
      rw [List.foldl_cons, ih _ once]
      by_cases same : i = first
      · subst same
        simp [new]
      · simp [same]

end

section

variable (workload : List RequestShape) (numRequests minPerShape : Nat)

def seatsLeft : Nat :=
  (numRequests - ∑ i, ⌊exactShare workload numRequests minPerShape i⌋).toNat

variable {workload numRequests minPerShape} (some : workload ≠ [])
  (weights : ∀ shape ∈ workload, 0 < shape.weight)

include some weights

theorem sum_floor_le : ∑ i, ⌊exactShare workload numRequests minPerShape i⌋ ≤ numRequests := by
  have each : ∑ i, ((⌊exactShare workload numRequests minPerShape i⌋ : ℤ) : ℚ) ≤
      ∑ i, exactShare workload numRequests minPerShape i :=
    Finset.sum_le_sum fun i _ => Int.floor_le _
  rw [sum_exactShare some weights] at each
  exact_mod_cast each

theorem cast_seatsLeft :
    (seatsLeft workload numRequests minPerShape : ℤ) =
      numRequests - ∑ i, ⌊exactShare workload numRequests minPerShape i⌋ :=
  Int.toNat_of_nonneg (sub_nonneg.mpr (sum_floor_le some weights))

theorem sum_lost :
    ∑ i, lost (exactShare workload numRequests minPerShape) i =
      (seatsLeft workload numRequests minPerShape : ℚ) := by
  have left : (seatsLeft workload numRequests minPerShape : ℚ) =
      numRequests - ∑ i, ((⌊exactShare workload numRequests minPerShape i⌋ : ℤ) : ℚ) := by
    exact_mod_cast cast_seatsLeft some weights
  simp only [lost, ← Int.self_sub_floor, Finset.sum_sub_distrib, sum_exactShare some weights, left]

theorem shapeCounts_eq_share (i : Fin workload.length) :
    shapeCounts workload numRequests minPerShape i =
      share (exactShare workload numRequests minPerShape)
        (seatsLeft workload numRequests minPerShape) i := by
  have left : (seatsLeft workload numRequests minPerShape : ℤ) =
      numRequests - ∑ i, ⌊exactShare workload numRequests minPerShape i⌋ :=
    cast_seatsLeft some weights
  simp only [shapeCounts, truncate_exactShare some weights, ← left, sliceTo,
    if_pos (Int.natCast_nonneg _), Int.toNat_natCast, Int.self_sub_floor]
  exact foldl_update_succ _ (seated_nodup _ _) i

theorem shapeFloor_le_shapeCounts (i : Fin workload.length) :
    (shapeFloor workload numRequests minPerShape : ℤ) ≤
      shapeCounts workload numRequests minPerShape i := by
  rw [shapeCounts_eq_share some weights]
  have low : (shapeFloor workload numRequests minPerShape : ℤ) ≤
      ⌊exactShare workload numRequests minPerShape i⌋ :=
    Int.le_floor.mpr (by exact_mod_cast floor_le_exactShare some weights i)
  exact low.trans (floor_le_share _ _ i)

theorem sum_shapeCounts : ∑ i, shapeCounts workload numRequests minPerShape i = numRequests := by
  simp only [shapeCounts_eq_share some weights, sum_share (sum_lost some weights),
    cast_seatsLeft some weights]
  ring

end

section

variable (workload : List RequestShape) (numRequests minPerShape : Nat)

/-- The schedule before `rng.shuffle`, each shape by its place in the workload. -/
def shapePicks : List (Fin workload.length) :=
  (List.finRange workload.length).flatMap fun i =>
    List.replicate (shapeCounts workload numRequests minPerShape i).toNat i

theorem map_shapePicks :
    (shapePicks workload numRequests minPerShape).map (fun i => workload[i]) =
      (List.finRange workload.length).flatMap fun i =>
        List.replicate (shapeCounts workload numRequests minPerShape i).toNat workload[i] := by
  simp only [shapePicks, List.map_flatMap, List.map_replicate]

theorem count_shapePicks (i : Fin workload.length) :
    (shapePicks workload numRequests minPerShape).count i =
      (shapeCounts workload numRequests minPerShape i).toNat := by
  rw [shapePicks, List.count_flatMap, ← Fin.sum_univ_def]
  simp [Function.comp, List.count_replicate]

theorem length_shapePicks :
    (shapePicks workload numRequests minPerShape).length =
      ∑ i, (shapeCounts workload numRequests minPerShape i).toNat := by
  rw [shapePicks, List.length_flatMap, ← Fin.sum_univ_def]
  simp

end

theorem exists_picks_of_perm {α β : Type} {f : α → β} {picks : List α} {shuffled : List β}
    (same : shuffled.Perm (picks.map f)) :
    ∃ order : List α, order.Perm picks ∧ shuffled = order.map f := by
  have both : Relation.Comp (· = List.map f ·) (·.Perm ·) shuffled picks := by
    rw [List.eq_map_comp_perm]
    exact same
  obtain ⟨order, mapped, perm⟩ := both
  exact ⟨order, perm, mapped⟩

section

variable {workload : List RequestShape} {numRequests minPerShape : Nat} (some : workload ≠ [])
  (weights : ∀ shape ∈ workload, 0 < shape.weight)

include some weights

theorem cast_count_shapePicks (i : Fin workload.length) :
    ((shapePicks workload numRequests minPerShape).count i : ℤ) =
      shapeCounts workload numRequests minPerShape i := by
  have nonneg : 0 ≤ shapeCounts workload numRequests minPerShape i :=
    (Int.natCast_nonneg _).trans (shapeFloor_le_shapeCounts some weights i)
  rw [count_shapePicks, Int.toNat_of_nonneg nonneg]

theorem length_shapePicks_eq :
    (shapePicks workload numRequests minPerShape).length = numRequests := by
  have each (i : Fin workload.length) :
      ((shapeCounts workload numRequests minPerShape i).toNat : ℤ) =
        shapeCounts workload numRequests minPerShape i := by
    rw [← count_shapePicks, cast_count_shapePicks some weights]
  have total : ((shapePicks workload numRequests minPerShape).length : ℤ) = numRequests := by
    rw [length_shapePicks, Nat.cast_sum, Finset.sum_congr rfl fun i _ => each i,
      sum_shapeCounts some weights]
  exact_mod_cast total

theorem shapePicks_near (i : Fin workload.length) :
    |((shapePicks workload numRequests minPerShape).count i : ℚ) -
      exactShare workload numRequests minPerShape i| < 1 := by
  have count : ((shapePicks workload numRequests minPerShape).count i : ℚ) =
      (shapeCounts workload numRequests minPerShape i : ℤ) := by
    exact_mod_cast cast_count_shapePicks some weights i
  rw [count, shapeCounts_eq_share some weights]
  exact share_near (sum_lost some weights) i

theorem shapePicks_mono {i j : Fin workload.length}
    (lighter : workload[j].weight < workload[i].weight) :
    (shapePicks workload numRequests minPerShape).count j ≤
      (shapePicks workload numRequests minPerShape).count i := by
  rcases Nat.eq_zero_or_pos numRequests with none | room
  · have short : (shapePicks workload numRequests minPerShape).length = numRequests :=
      length_shapePicks_eq some weights
    have few : (shapePicks workload numRequests minPerShape).count j ≤
        (shapePicks workload numRequests minPerShape).length := List.count_le_length
    omega
  · have more : share (exactShare workload numRequests minPerShape)
          (seatsLeft workload numRequests minPerShape) j ≤
        share (exactShare workload numRequests minPerShape)
          (seatsLeft workload numRequests minPerShape) i :=
      share_mono (exactShare_lt some weights lighter room)
    rw [← shapeCounts_eq_share some weights, ← shapeCounts_eq_share some weights,
      ← cast_count_shapePicks some weights, ← cast_count_shapePicks some weights] at more
    exact_mod_cast more

theorem shapeSchedule_eq (shuffle : List RequestShape → List RequestShape) :
    shapeSchedule shuffle workload numRequests minPerShape =
      .ok (shuffle ((shapePicks workload numRequests minPerShape).map fun i => workload[i])) := by
  have size : workload.length ≠ 0 := fun none => some (List.length_eq_zero_iff.mp none)
  rw [shapeSchedule, if_neg size, if_neg (weightTotal_pos some weights).ne', map_shapePicks]
  rfl

end

theorem shape_schedule_apportions (workload : List RequestShape) (some : workload ≠ [])
    (weights : ∀ shape ∈ workload, 0 < shape.weight) (numRequests minPerShape : Nat)
    (shuffle : List RequestShape → List RequestShape)
    (permutes : ∀ schedule, (shuffle schedule).Perm schedule) :
    2 * (workload.length * shapeFloor workload numRequests minPerShape) ≤ numRequests ∧
    ∃ schedule, shapeSchedule shuffle workload numRequests minPerShape = .ok schedule ∧
      schedule.length = numRequests ∧
      ∃ picks : List (Fin workload.length), schedule = picks.map (fun i => workload[i]) ∧
        (workload.Nodup → ∀ i : Fin workload.length, schedule.count workload[i] = picks.count i) ∧
        (∀ i, shapeFloor workload numRequests minPerShape ≤ picks.count i) ∧
        (∀ i, |(picks.count i : ℚ) - exactShare workload numRequests minPerShape i| < 1) ∧
        ∀ i j : Fin workload.length, workload[j].weight < workload[i].weight →
          picks.count j ≤ picks.count i := by
  obtain ⟨picks, same, shuffled⟩ := exists_picks_of_perm (permutes
    ((shapePicks workload numRequests minPerShape).map fun i => workload[i]))
  have counts (i : Fin workload.length) := same.count_eq i
  refine ⟨floors_le_half, _, shapeSchedule_eq some weights shuffle, ?_, picks, shuffled, ?_, ?_, ?_,
    ?_⟩
  · rw [shuffled, List.length_map, same.length_eq, length_shapePicks_eq some weights]
  · intro distinct i
    have injective : Function.Injective fun i : Fin workload.length => workload[i] :=
      List.nodup_iff_injective_get.mp distinct
    rw [shuffled]
    exact List.count_map_of_injective picks _ injective i
  · intro i
    rw [counts i]
    have low : (shapeFloor workload numRequests minPerShape : ℤ) ≤
        (shapePicks workload numRequests minPerShape).count i := by
      rw [cast_count_shapePicks some weights]
      exact shapeFloor_le_shapeCounts some weights i
    exact_mod_cast low
  · intro i
    rw [counts i]
    exact shapePicks_near some weights i
  · intro i j lighter
    rw [counts i, counts j]
    exact shapePicks_mono some weights lighter

def sampleWorkload : List RequestShape :=
  [⟨"chat", "Write a haiku about garbage collection.", 64, 3 / 4⟩,
    ⟨"document", "Summarize the anomalies in this worker log.", 256, 1 / 4⟩]

theorem shape_schedule_apportions_sample :
    2 * (sampleWorkload.length * shapeFloor sampleWorkload 9 1) ≤ 9 ∧
    ∃ schedule, shapeSchedule List.reverse sampleWorkload 9 1 = .ok schedule ∧
      schedule.length = 9 ∧
      ∃ picks : List (Fin sampleWorkload.length),
        schedule = picks.map (fun i => sampleWorkload[i]) ∧
        (sampleWorkload.Nodup → ∀ i : Fin sampleWorkload.length,
          schedule.count sampleWorkload[i] = picks.count i) ∧
        (∀ i, shapeFloor sampleWorkload 9 1 ≤ picks.count i) ∧
        (∀ i, |(picks.count i : ℚ) - exactShare sampleWorkload 9 1 i| < 1) ∧
        ∀ i j : Fin sampleWorkload.length, sampleWorkload[j].weight < sampleWorkload[i].weight →
          picks.count j ≤ picks.count i :=
  shape_schedule_apportions sampleWorkload (by decide) (by decide +kernel) 9 1 List.reverse
    List.reverse_perm

example : List.ofFn (shapeCounts sampleWorkload 9 1) = [6, 3] := by decide +kernel

end LlmServing.LoadGen
