import Mathlib.Data.List.Perm.Basic

/-!
# Computations that may fail

What is known of a `do` block and of a `mapM` that have returned.
-/

namespace LlmServing.Lib

variable {ε α β : Type}

theorem bind_ok {x : Except ε α} {f : α → Except ε β} {b : β} (ok : x >>= f = .ok b) :
    ∃ a, x = .ok a ∧ f a = .ok b := by
  cases x with
  | error message => cases ok
  | ok a => exact ⟨a, rfl, ok⟩

section

variable {f : α → Except ε β}

theorem mapM_eq_ok {xs : List α} {ys : List β} :
    xs.mapM f = .ok ys ↔ List.Forall₂ (fun x y => f x = .ok y) xs ys := by
  induction xs generalizing ys with
  | nil =>
      constructor
      · rintro ⟨⟩
        exact .nil
      · rintro ⟨⟩
        rfl
  | cons x rest ih =>
      rw [List.mapM_cons]
      constructor
      · intro mapped
        obtain ⟨y, computed, mapped⟩ := bind_ok mapped
        obtain ⟨others, rest, mapped⟩ := bind_ok mapped
        cases mapped
        exact .cons computed (ih.mp rest)
      · intro each
        cases each with
        | cons computed others =>
            rw [computed, ih.mpr others]
            rfl

theorem mapM_perm {xs xs' : List α} {ys : List β} (perm : xs'.Perm xs) (mapped : xs.mapM f = .ok ys) :
    ∃ ys', xs'.mapM f = .ok ys' ∧ ys'.Perm ys := by
  obtain ⟨ys', each, same⟩ := List.perm_comp_forall₂ perm (mapM_eq_ok.mp mapped)
  exact ⟨ys', mapM_eq_ok.mpr each, same⟩

end

end LlmServing.Lib
