import Mathlib.Data.List.Basic

/-!
# Causal stacks

Layers of states by position. Each layer gives a position's state a cell, and its next state from
the cells of the positions up to it. What a position comes to is settled by the positions up to it,
so the cells of a prefix stay as they are however it is continued.
-/

namespace LlmServing.Lib

structure CausalStack (σ κ : Type*) where
  cell : Nat → Nat → σ → κ
  next : Nat → Nat → σ → List κ → σ

namespace CausalStack

variable {σ κ : Type*} (stack : CausalStack σ κ) (start : Nat → σ)

def state : Nat → Nat → σ
  | 0, position => start position
  | layer + 1, position =>
      stack.next layer position (state layer position)
        ((List.range (position + 1)).map fun earlier =>
          stack.cell layer earlier (state layer earlier))

def cellAt (layer position : Nat) : κ :=
  stack.cell layer position (stack.state start layer position)

variable {stack start}

theorem state_succ_of_cells {layer position : Nat} {cells : Nat → κ}
    (same : ∀ earlier ≤ position, cells earlier = stack.cellAt start layer earlier) :
    stack.next layer position (stack.state start layer position)
        ((List.range (position + 1)).map cells) = stack.state start (layer + 1) position := by
  rw [state]
  congr 1
  refine List.map_congr_left fun earlier member => ?_
  exact same earlier (Nat.lt_succ_iff.mp (List.mem_range.mp member))

theorem state_congr {start start' : Nat → σ} {n : Nat}
    (same : ∀ position < n, start position = start' position) (layer : Nat) :
    ∀ position < n, stack.state start layer position = stack.state start' layer position := by
  induction layer with
  | zero => exact same
  | succ layer ih =>
      intro position inside
      have cells : ∀ earlier ≤ position,
          stack.cellAt start layer earlier = stack.cellAt start' layer earlier := by
        intro earlier le
        rw [cellAt, cellAt, ih earlier (Nat.lt_of_le_of_lt le inside)]
      have own : ∀ earlier ≤ position,
          stack.cellAt start layer earlier = stack.cellAt start layer earlier := fun _ _ => rfl
      rw [← state_succ_of_cells own, ih position inside]
      exact state_succ_of_cells cells

theorem cellAt_congr {start start' : Nat → σ} {n : Nat}
    (same : ∀ position < n, start position = start' position) (layer : Nat) :
    ∀ position < n, stack.cellAt start layer position = stack.cellAt start' layer position := by
  intro position inside
  rw [cellAt, cellAt, state_congr same layer position inside]

end CausalStack

end LlmServing.Lib
