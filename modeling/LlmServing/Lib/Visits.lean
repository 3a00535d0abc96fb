import Mathlib.Data.List.Nodup
import Mathlib.Logic.Function.Basic

/-!
# A loop that visits each key once

Each item of a list replaces the state under its own key by what `grow` makes of it, and `emit` reads the
new state. Where no two items share a key, every item sees the state from before the loop.
-/

namespace LlmServing.Lib

variable {ι κ σ γ : Type*} [DecidableEq κ] (key : ι → κ) (grow : ι → σ → σ) (emit : ι → σ → List γ)

def visit (st : (κ → σ) × List γ) (item : ι) : (κ → σ) × List γ :=
  (Function.update st.1 (key item) (grow item (st.1 (key item))),
    st.2 ++ emit item (grow item (st.1 (key item))))

variable {key grow emit}

theorem foldl_visit_others (items : List ι) (st : (κ → σ) × List γ) {k : κ}
    (absent : k ∉ items.map key) : (items.foldl (visit key grow emit) st).1 k = st.1 k := by
  induction items generalizing st with
  | nil => rfl
  | cons item rest ih =>
      simp only [List.map_cons, List.mem_cons, not_or] at absent
      rw [List.foldl_cons, ih _ absent.2]
      exact Function.update_of_ne absent.1 _ _

theorem foldl_visit_own {items : List ι} (distinct : (items.map key).Nodup)
    (st : (κ → σ) × List γ) {item : ι} (member : item ∈ items) :
    (items.foldl (visit key grow emit) st).1 (key item) = grow item (st.1 (key item)) := by
  induction items generalizing st with
  | nil => cases member
  | cons first rest ih =>
      rw [List.map_cons, List.nodup_cons] at distinct
      rw [List.foldl_cons]
      rcases List.mem_cons.mp member with rfl | member
      · rw [foldl_visit_others rest _ distinct.1]
        exact Function.update_self _ _ _
      · have apart : key item ≠ key first := fun same =>
          distinct.1 (same ▸ List.mem_map_of_mem member)
        rw [ih distinct.2 _ member]
        exact congrArg _ (Function.update_of_ne apart _ _)

theorem foldl_visit_emitted {items : List ι} (distinct : (items.map key).Nodup)
    (st : (κ → σ) × List γ) :
    (items.foldl (visit key grow emit) st).2 =
      st.2 ++ items.flatMap fun item => emit item (grow item (st.1 (key item))) := by
  induction items generalizing st with
  | nil => simp
  | cons first rest ih =>
      rw [List.map_cons, List.nodup_cons] at distinct
      have later : (rest.flatMap fun item =>
            emit item (grow item ((visit key grow emit st first).1 (key item)))) =
          rest.flatMap fun item => emit item (grow item (st.1 (key item))) := by
        refine List.flatMap_congr fun item member => ?_
        have apart : key item ≠ key first := fun same =>
          distinct.1 (same ▸ List.mem_map_of_mem member)
        exact congrArg (fun state => emit item (grow item state)) (Function.update_of_ne apart _ _)
      rw [List.foldl_cons, ih distinct.2, later, List.flatMap_cons, ← List.append_assoc]
      rfl

end LlmServing.Lib
