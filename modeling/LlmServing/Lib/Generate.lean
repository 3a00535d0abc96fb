import Mathlib.Data.List.Infix

/-!
# Generation

A list grown one element at a time, each a function of all the elements so far, until one of them
stops it or none is left.
-/

namespace LlmServing.Lib

variable {τ : Type*} (next : List τ → τ) (stop : τ → Bool) (start : List τ)

def generate : Nat → List τ → List τ
  | 0, grown => grown
  | left + 1, grown =>
      let element := next (start ++ grown)
      if stop element then grown ++ [element] else generate left (grown ++ [element])

variable {next stop start}

theorem prefix_generate (left : Nat) (grown : List τ) :
    grown <+: generate next stop start left grown := by
  induction left generalizing grown with
  | zero => exact List.prefix_rfl
  | succ left ih =>
      simp only [generate]
      split
      · exact List.prefix_append _ _
      · exact (List.prefix_append _ _).trans (ih _)

theorem generate_continue {left : Nat} {grown : List τ} {element : τ}
    (same : element = next (start ++ grown)) (more : stop element = false) :
    generate next stop start (left + 1) grown = generate next stop start left (grown ++ [element]) := by
  subst same
  simp [generate, more]

theorem generate_stop {left : Nat} {grown : List τ} {element : τ}
    (same : element = next (start ++ grown)) (last : stop element = true ∨ left = 0) :
    generate next stop start (left + 1) grown = grown ++ [element] := by
  subst same
  rcases last with stopped | rfl
  · simp [generate, stopped]
  · simp [generate]

theorem generate_of_chain (stop : τ → Bool) (left : Nat) {grown : List τ}
    (each : ∀ (i : Nat) (element : τ), grown[i]? = some element →
      element = next (start ++ grown.take i))
    (running : ∀ element ∈ grown, stop element = false) :
    generate next stop start (left + grown.length) [] = generate next stop start left grown := by
  induction grown using List.reverseRecOn generalizing left with
  | nil => rfl
  | append_singleton earlier last ih =>
      have before := ih (left + 1)
        (fun i element here => by
          have inside := (List.getElem?_eq_some_iff.mp here).1
          have same := each i element (by rw [List.getElem?_append_left inside, here])
          rwa [List.take_append_of_le_length inside.le] at same)
        fun element member => running element (List.mem_append_left _ member)
      have newest := each earlier.length last (by simp)
      rw [List.take_left] at newest
      rw [List.length_append, List.length_singleton, ← Nat.add_assoc, Nat.add_right_comm, before]
      exact generate_continue newest (running last (by simp))

end LlmServing.Lib
