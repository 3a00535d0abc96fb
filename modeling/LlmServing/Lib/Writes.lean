import Mathlib.Data.List.Nodup
import Mathlib.Logic.Function.Basic

/-!
# Several writes to one store

A store is a function of its keys. Writes to distinct keys commute, so the store reads back what was
written to a key, and is unchanged elsewhere.
-/

namespace LlmServing.Lib

variable {κ β : Type*} [DecidableEq κ]

def writeAll (store : κ → β) (writes : List (κ × β)) : κ → β :=
  writes.foldl (fun store write => Function.update store write.1 write.2) store

theorem writeAll_of_notMem {store : κ → β} {writes : List (κ × β)} {k : κ}
    (absent : k ∉ writes.map Prod.fst) : writeAll store writes k = store k := by
  induction writes generalizing store with
  | nil => rfl
  | cons write rest ih =>
      simp only [List.map_cons, List.mem_cons, not_or] at absent
      have later : writeAll (Function.update store write.1 write.2) rest k = store k := by
        rw [ih absent.2, Function.update_of_ne absent.1]
      exact later

theorem writeAll_of_mem {store : κ → β} {writes : List (κ × β)} {k : κ} {v : β}
    (distinct : (writes.map Prod.fst).Nodup) (member : (k, v) ∈ writes) :
    writeAll store writes k = v := by
  induction writes generalizing store with
  | nil => cases member
  | cons write rest ih =>
      rw [List.map_cons, List.nodup_cons] at distinct
      rcases List.mem_cons.mp member with rfl | member
      · have later : writeAll (Function.update store k v) rest k = v := by
          rw [writeAll_of_notMem distinct.1, Function.update_self]
        exact later
      · exact ih distinct.2 member

/-- `store[keys] = values`, at once: of the writes to one key any may stay. -/
def Assigned {κ β : Type*} (keys : List κ) (values : Nat → β) (before after : κ → β) : Prop :=
  ∀ k, (k ∉ keys → after k = before k) ∧
    (k ∈ keys → ∃ i : Nat, keys[i]? = some k ∧ after k = values i)

theorem Assigned.of_only {κ β : Type*} {keys : List κ} {values : Nat → β} {before after : κ → β}
    (assigned : Assigned keys values before after) {i : Nat} {k : κ} (here : keys[i]? = some k)
    (only : ∀ j : Nat, keys[j]? = some k → j = i) : after k = values i := by
  obtain ⟨j, found, same⟩ := (assigned k).2 (List.mem_of_getElem? here)
  rw [same, only j found]

theorem Assigned.congr {κ β : Type*} {keys : List κ} {values values' : Nat → β}
    {before after : κ → β} (assigned : Assigned keys values before after)
    (same : ∀ i < keys.length, values' i = values i) : Assigned keys values' before after := by
  refine fun k => ⟨(assigned k).1, fun member => ?_⟩
  obtain ⟨i, here, written⟩ := (assigned k).2 member
  exact ⟨i, here, written.trans (same i (List.getElem?_eq_some_iff.mp here).1).symm⟩

theorem Assigned.exists {κ β : Type*} (keys : List κ) (values : Nat → β) (before : κ → β) :
    ∃ after, Assigned keys values before after := by
  classical
  have each (k : κ) : ∃ v, (k ∉ keys → v = before k) ∧
      (k ∈ keys → ∃ i : Nat, keys[i]? = some k ∧ v = values i) := by
    by_cases member : k ∈ keys
    · obtain ⟨i, here⟩ := List.mem_iff_getElem?.mp member
      exact ⟨values i, fun absent => absurd member absent, fun _ => ⟨i, here, rfl⟩⟩
    · exact ⟨before k, fun _ => rfl, fun inside => absurd inside member⟩
  exact ⟨fun k => (each k).choose, fun k => (each k).choose_spec⟩

def overlay {β : Type*} (values old : List β) : List β := values ++ old.drop values.length

section

variable {β : Type*} {values old : List β}

theorem overlay_set {n : Nat} (size : values.length = n) (room : n < old.length) (v : β) :
    (overlay values old).set n v = overlay (values ++ [v]) old := by
  subst size
  rw [overlay, List.set_append_right _ _ (Nat.le_refl _), Nat.sub_self,
    List.drop_eq_getElem_cons room, List.set_cons_zero]
  simp [overlay]

theorem getElem?_overlay_lt {i : Nat} (inside : i < values.length) :
    (overlay values old)[i]? = values[i]? := by
  rw [overlay, List.getElem?_append_left inside]

theorem getElem?_overlay_ge {i : Nat} (outside : values.length ≤ i) :
    (overlay values old)[i]? = old[i]? := by
  rw [overlay, List.getElem?_append_right outside, List.getElem?_drop]
  congr 1
  omega

theorem getElem?_overlay_map {α : Type*} {list : List α} {f : α → β} {i : Nat} :
    (overlay (list.map f) old)[i]? = if i < list.length then list[i]?.map f else old[i]? := by
  split
  · rename_i inside
    rw [getElem?_overlay_lt (by simpa using inside), List.getElem?_map]
  · rename_i outside
    exact getElem?_overlay_ge (by simpa using outside)

theorem take_overlay {n : Nat} (size : values.length = n) : (overlay values old).take n = values := by
  subst size
  exact List.take_left

theorem drop_overlay {n : Nat} (size : values.length = n) :
    (overlay values old).drop n = old.drop n := by
  subst size
  exact List.drop_left

theorem length_overlay (room : values.length ≤ old.length) :
    (overlay values old).length = old.length := by
  simp only [overlay, List.length_append, List.length_drop]
  omega

end

end LlmServing.Lib
