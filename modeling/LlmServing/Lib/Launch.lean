import LlmServing.Lib.Writes
import Mathlib.Data.List.ProdSigma

/-!
# Launches over a grid

The programs of a launch run in no fixed order. Where no two of them write one cell, all orders leave
the same store.
-/

namespace LlmServing.Lib

theorem writeAll_perm {κ β : Type*} [DecidableEq κ] {writes writes' : List (κ × β)}
    (perm : writes.Perm writes') (distinct : (writes.map Prod.fst).Nodup) (store : κ → β) :
    writeAll store writes = writeAll store writes' := by
  funext k
  by_cases written : k ∈ writes.map Prod.fst
  · obtain ⟨⟨k, v⟩, member, rfl⟩ := List.mem_map.mp written
    have distinct' := (perm.map Prod.fst).nodup_iff.mp distinct
    rw [writeAll_of_mem distinct member, writeAll_of_mem distinct' (perm.mem_iff.mp member)]
  · have unwritten : k ∉ writes'.map Prod.fst := fun member =>
      written ((perm.map Prod.fst).mem_iff.mpr member)
    rw [writeAll_of_notMem written, writeAll_of_notMem unwritten]

structure Launch (κ β : Type*) where
  grid : Nat × Nat
  program : Nat → Nat → List (κ × β)

namespace Launch

variable {κ β : Type*} (l : Launch κ β)

def programs : List (Nat × Nat) := List.range l.grid.1 ×ˢ List.range l.grid.2

def writesOf (order : List (Nat × Nat)) : List (κ × β) := order.flatMap fun (x, y) => l.program x y

def Result [DecidableEq κ] (before after : κ → β) : Prop :=
  ∃ order : List (Nat × Nat), order.Perm l.programs ∧ after = writeAll before (l.writesOf order)

def Separate : Prop := ((l.writesOf l.programs).map Prod.fst).Nodup

variable {l}

theorem mem_programs {x y : Nat} : (x, y) ∈ l.programs ↔ x < l.grid.1 ∧ y < l.grid.2 := by
  simp [programs]

theorem nodup_programs : l.programs.Nodup := List.Nodup.product List.nodup_range List.nodup_range

theorem separate_of (each : ∀ x y, ((l.program x y).map Prod.fst).Nodup)
    (apart : ∀ x y x' y' k, k ∈ (l.program x y).map Prod.fst → k ∈ (l.program x' y').map Prod.fst →
      y < l.grid.2 → y' < l.grid.2 → x = x' ∧ y = y') : l.Separate := by
  have columns : (l.writesOf l.programs).map Prod.fst =
      l.programs.flatMap fun p => (l.program p.1 p.2).map Prod.fst := by
    rw [writesOf, List.map_flatMap]
  rw [Separate, columns, List.nodup_flatMap]
  refine ⟨fun p _ => each p.1 p.2, nodup_programs.imp_of_mem ?_⟩
  rintro ⟨x, y⟩ ⟨x', y'⟩ member member' different k here there
  obtain ⟨rfl, rfl⟩ := apart x y x' y' k here there (mem_programs.mp member).2
    (mem_programs.mp member').2
  exact different rfl

variable [DecidableEq κ] {before after : κ → β}

theorem Result.eq (result : l.Result before after) (separate : l.Separate) :
    after = writeAll before (l.writesOf l.programs) := by
  obtain ⟨order, perm, rfl⟩ := result
  have same : (l.writesOf order).Perm (l.writesOf l.programs) := perm.flatMap_right _
  exact writeAll_perm same ((same.map Prod.fst).nodup_iff.mpr separate) before

theorem Result.written (result : l.Result before after) (separate : l.Separate) {x y : Nat}
    (inside : x < l.grid.1 ∧ y < l.grid.2) {k : κ} {v : β} (member : (k, v) ∈ l.program x y) :
    after k = v := by
  rw [result.eq separate]
  exact writeAll_of_mem separate
    (List.mem_flatMap.mpr ⟨(x, y), mem_programs.mpr inside, member⟩)

end Launch

end LlmServing.Lib
