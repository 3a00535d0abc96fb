import Mathlib.Analysis.SpecialFunctions.Exp

/-!
# Online softmax

A weighted average of exponentials, computed a tile at a time over the reals with minus infinity. What
arithmetic gives no value to is `undefined`, and so is everything computed from it.
-/

namespace LlmServing.Lib

inductive Extended where
  | undefined
  | negInf
  | real (x : ℝ)

namespace Extended

noncomputable section

def add : Extended → Extended → Extended
  | real x, real y => real (x + y)
  | real _, negInf => negInf
  | negInf, real _ => negInf
  | negInf, negInf => negInf
  | _, _ => undefined

/-- `negInf` less itself is undefined. -/
def sub : Extended → Extended → Extended
  | real x, real y => real (x - y)
  | negInf, real _ => negInf
  | _, _ => undefined

def mul : Extended → Extended → Extended
  | real x, real y => real (x * y)
  | _, _ => undefined

open Classical in
def div : Extended → Extended → Extended
  | real x, real y => if y = 0 then undefined else real (x / y)
  | _, _ => undefined

def maximum : Extended → Extended → Extended
  | real x, real y => real (max x y)
  | real x, negInf => real x
  | negInf, real y => real y
  | negInf, negInf => negInf
  | _, _ => undefined

def exp : Extended → Extended
  | real x => real (Real.exp x)
  | negInf => real 0
  | undefined => undefined

def sum {n : Nat} (f : Fin n → Extended) : Extended := (List.ofFn f).foldl add (real 0)

def greatest {n : Nat} (f : Fin n → Extended) : Extended := (List.ofFn f).foldl maximum negInf

end

theorem sum_real {n : Nat} (f : Fin n → ℝ) : (sum fun i => real (f i)) = real (∑ i, f i) := by
  have from_left (xs : List ℝ) (x : ℝ) : (xs.map real).foldl add (real x) = real (x + xs.sum) := by
    induction xs generalizing x with
    | nil => simp
    | cons y ys ih =>
        rw [List.map_cons, List.foldl_cons, List.sum_cons, ← add_assoc]
        exact ih (x + y)
  have whole := from_left (List.ofFn f) 0
  rw [List.map_ofFn, zero_add, List.sum_ofFn] at whole
  exact whole

variable {n : Nat} {seen : Fin n → Bool} {score : Fin n → ℝ}

def masked (seen : Fin n → Bool) (score : Fin n → ℝ) (j : Fin n) : Extended :=
  if seen j then real (score j) else negInf

def IsReal (e : Extended) : Prop := ∃ x, e = real x

theorem maximum_masked {a b : Extended} (first : a = negInf ∨ a.IsReal)
    (second : b = negInf ∨ b.IsReal) :
    (maximum a b = negInf ∨ (maximum a b).IsReal) ∧
      (a.IsReal ∨ b.IsReal → (maximum a b).IsReal) := by
  obtain rfl | ⟨x, rfl⟩ := first
  · obtain rfl | ⟨y, rfl⟩ := second
    · refine ⟨.inl rfl, ?_⟩
      rintro (⟨x, same⟩ | ⟨x, same⟩) <;> cases same
    · exact ⟨.inr ⟨y, rfl⟩, fun _ => ⟨y, rfl⟩⟩
  · obtain rfl | ⟨y, rfl⟩ := second
    · exact ⟨.inr ⟨x, rfl⟩, fun _ => ⟨x, rfl⟩⟩
    · exact ⟨.inr ⟨max x y, rfl⟩, fun _ => ⟨max x y, rfl⟩⟩

theorem foldl_maximum (es : List Extended) (each : ∀ e ∈ es, e = negInf ∨ e.IsReal) {m : Extended}
    (start : m = negInf ∨ m.IsReal) :
    (es.foldl maximum m = negInf ∨ (es.foldl maximum m).IsReal) ∧
      (m.IsReal ∨ (∃ e ∈ es, e.IsReal) → (es.foldl maximum m).IsReal) := by
  induction es generalizing m with
  | nil =>
      refine ⟨start, ?_⟩
      rintro (here | ⟨e, member, -⟩)
      · exact here
      · cases member
  | cons e rest ih =>
      rw [List.forall_mem_cons] at each
      obtain ⟨next, grown⟩ := maximum_masked start each.1
      obtain ⟨shape, attained⟩ := ih each.2 next
      refine ⟨shape, ?_⟩
      rintro (here | ⟨other, member, isReal⟩)
      · exact attained (.inl (grown (.inl here)))
      · obtain rfl | member := List.mem_cons.mp member
        · exact attained (.inl (grown (.inr isReal)))
        · exact attained (.inr ⟨other, member, isReal⟩)

theorem exists_maximum {m : Extended} (start : m = negInf ∨ m.IsReal)
    (some : m.IsReal ∨ ∃ j, seen j = true) :
    (maximum m (greatest (masked seen score))).IsReal := by
  have each : ∀ e ∈ List.ofFn (masked seen score), e = negInf ∨ e.IsReal := by
    intro e member
    obtain ⟨j, rfl⟩ := List.mem_ofFn.mp member
    unfold masked
    split
    · exact .inr ⟨score j, rfl⟩
    · exact .inl rfl
  obtain ⟨shape, attained⟩ := foldl_maximum _ each (.inl rfl)
  refine (maximum_masked start shape).2 (some.imp id ?_)
  rintro ⟨j, here⟩
  exact attained (.inr ⟨_, List.mem_ofFn.mpr ⟨j, rfl⟩, score j, if_pos here⟩)

/-! ## The running state of one row -/

inductive Holds : ℝ → ℝ → Extended → Extended → Extended → Prop
  | start : Holds 0 0 negInf (real 0) (real 0)
  | seen (weight weighted x : ℝ) :
      Holds weight weighted (real x) (real (Real.exp (-x) * weight))
        (real (Real.exp (-x) * weighted))

variable {weight weighted : ℝ} {m l a : Extended}

theorem Holds.max_shape (holds : Holds weight weighted m l a) : m = negInf ∨ m.IsReal := by
  cases holds with
  | start => exact .inl rfl
  | seen x => exact .inr ⟨_, rfl⟩

theorem Holds.rescale (holds : Holds weight weighted m l a) (x : ℝ) :
    mul (exp (sub m (real x))) l = real (Real.exp (-x) * weight) ∧
      mul a (exp (sub m (real x))) = real (Real.exp (-x) * weighted) := by
  cases holds with
  | start => simp [sub, exp, mul]
  | seen _ _ y =>
      have shift : Real.exp (y - x) * Real.exp (-y) = Real.exp (-x) := by
        rw [← Real.exp_add]
        congr 1
        ring
      constructor
      · simp only [sub, exp, mul]
        rw [← mul_assoc, shift]
      · simp only [sub, exp, mul]
        rw [mul_comm, ← mul_assoc, shift]

theorem exp_masked_sub (seen : Fin n → Bool) (score : Fin n → ℝ) (x : ℝ) (j : Fin n) :
    exp (sub (masked seen score j) (real x)) =
      real (Real.exp (-x) * if seen j then Real.exp (score j) else 0) := by
  unfold masked
  cases seen j with
  | false => simp [sub, exp]
  | true =>
      simp only [if_true, sub, exp]
      rw [← Real.exp_add]
      congr 2
      ring

theorem Holds.tile (holds : Holds weight weighted m l a) (seen : Fin n → Bool)
    (score value : Fin n → ℝ) (some : m.IsReal ∨ ∃ j, seen j = true) :
    let s := masked seen score
    let newMax := maximum m (greatest s)
    let alpha := exp (sub m newMax)
    let p := fun j => exp (sub (s j) newMax)
    newMax.IsReal ∧
      Holds (weight + ∑ j, if seen j then Real.exp (score j) else 0)
        (weighted + ∑ j, if seen j then Real.exp (score j) * value j else 0) newMax
        (add (mul alpha l) (sum p)) (add (mul a alpha) (sum fun j => mul (p j) (real (value j)))) := by
  intro s newMax alpha p
  obtain ⟨x, isMax⟩ : newMax.IsReal := exists_maximum holds.max_shape some
  obtain ⟨denom, acc⟩ := holds.rescale x
  have each (j : Fin n) : p j = real (Real.exp (-x) * if seen j then Real.exp (score j) else 0) := by
    rw [← exp_masked_sub, ← isMax]
  have total : sum p = real (Real.exp (-x) * ∑ j, if seen j then Real.exp (score j) else 0) := by
    rw [funext each, sum_real, Finset.mul_sum]
  have weighs (j : Fin n) : mul (p j) (real (value j)) =
      real (Real.exp (-x) * if seen j then Real.exp (score j) * value j else 0) := by
    rw [each]
    cases seen j <;> simp [mul, mul_assoc]
  have values : (sum fun j => mul (p j) (real (value j))) =
      real (Real.exp (-x) * ∑ j, if seen j then Real.exp (score j) * value j else 0) := by
    rw [funext weighs, sum_real, Finset.mul_sum]
  refine ⟨⟨x, isMax⟩, ?_⟩
  simp only [alpha]
  rw [isMax, denom, acc, total, values]
  simp only [add]
  rw [← mul_add, ← mul_add]
  exact Holds.seen _ _ x

theorem Holds.quotient (holds : Holds weight weighted m l a) (positive : 0 < weight) :
    (∃ y, 0 < y ∧ l = real y) ∧ div a l = real (weighted / weight) := by
  cases holds with
  | start => exact absurd positive (lt_irrefl 0)
  | seen _ _ x =>
      have scaled : 0 < Real.exp (-x) * weight := mul_pos (Real.exp_pos _) positive
      refine ⟨⟨_, scaled, rfl⟩, ?_⟩
      rw [div, if_neg scaled.ne', mul_div_mul_left _ _ (Real.exp_pos (-x)).ne']

end Extended

end LlmServing.Lib
