import Mathlib.Algebra.Order.Floor.Ring
import Mathlib.Data.Rat.Floor
import Mathlib.Tactic.Linarith

/-!
# Rounding to a number of decimal digits

Rounding to the nearest multiple of a power of ten, and what it does to a ceiling taken afterwards.
-/

namespace LlmServing.Lib

/-- The nearest integer, and of two nearest ones the even one. -/
def roundHalfEven (x : ℚ) : ℤ :=
  let below := ⌊x⌋
  if x - below < 1 / 2 then below
  else if 1 / 2 < x - below then below + 1
  else if below % 2 = 0 then below
  else below + 1

def roundDigits (x : ℚ) (digits : Nat) : ℚ := roundHalfEven (x * 10 ^ digits) / 10 ^ digits

@[simp] theorem roundHalfEven_intCast (z : ℤ) : roundHalfEven z = z := by
  simp [roundHalfEven]

theorem roundHalfEven_near (x : ℚ) :
    x - 1 / 2 ≤ roundHalfEven x ∧ (roundHalfEven x : ℚ) ≤ x + 1 / 2 := by
  have low := Int.floor_le x
  have high := Int.lt_floor_add_one x
  unfold roundHalfEven
  dsimp only
  split_ifs <;> push_cast <;> constructor <;> linarith

theorem roundDigits_of_int {x : ℚ} {digits : Nat} {z : ℤ} (exact : x * 10 ^ digits = z) :
    roundDigits x digits = x := by
  have scale : (10 : ℚ) ^ digits ≠ 0 := by positivity
  rw [roundDigits, exact, roundHalfEven_intCast, ← exact, mul_div_cancel_right₀ _ scale]

/-- Rounding changes no ceiling of a number that is further above the integer below than the rounding
may take it down: it never goes up past an integer. -/
theorem ceil_roundDigits {x : ℚ} {digits : Nat}
    (clear : (⌈x⌉ : ℚ) - 1 + 1 / (2 * 10 ^ digits) < x) : ⌈roundDigits x digits⌉ = ⌈x⌉ := by
  have scale : (0 : ℚ) < 10 ^ digits := by positivity
  obtain ⟨low, high⟩ := roundHalfEven_near (x * 10 ^ digits)
  rw [Int.ceil_eq_iff, roundDigits, lt_div_iff₀ scale, div_le_iff₀ scale]
  constructor
  · have shift : ((⌈x⌉ : ℚ) - 1 + 1 / (2 * 10 ^ digits)) * 10 ^ digits =
        ((⌈x⌉ : ℚ) - 1) * 10 ^ digits + 1 / 2 := by
      field_simp
    have apart := mul_lt_mul_of_pos_right clear scale
    linarith
  · have under := mul_le_mul_of_nonneg_right (Int.le_ceil x) scale.le
    have half : (roundHalfEven (x * 10 ^ digits) : ℚ) < (⌈x⌉ * 10 ^ digits : ℤ) + 1 := by
      push_cast
      linarith
    have whole : roundHalfEven (x * 10 ^ digits) ≤ ⌈x⌉ * 10 ^ digits := by
      exact_mod_cast Int.lt_add_one_iff.mp (by exact_mod_cast half)
    exact_mod_cast whole

end LlmServing.Lib
