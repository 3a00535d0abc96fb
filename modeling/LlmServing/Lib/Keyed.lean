import Mathlib.Data.List.Nodup

/-!
# Lists with distinct keys

A list searched, updated and erased by a key no two of its elements share.
-/

namespace LlmServing.Lib.Keyed

variable {α κ : Type*} [DecidableEq κ] {key : α → κ}

theorem find?_some {list : List α} {k : κ} {x : α} (found : list.find? (key · = k) = some x) :
    x ∈ list ∧ key x = k :=
  ⟨List.mem_of_find?_eq_some found, by simpa using List.find?_some found⟩

theorem find?_eq_none {list : List α} {k : κ} :
    list.find? (key · = k) = none ↔ k ∉ list.map key := by
  simp

theorem find?_of_mem {list : List α} (distinct : (list.map key).Nodup) {x : α}
    (member : x ∈ list) : list.find? (key · = key x) = some x := by
  cases found : list.find? (key · = key x) with
  | none => exact absurd (List.mem_map_of_mem member) (find?_eq_none.mp found)
  | some y =>
      obtain ⟨member', same⟩ := find?_some found
      rw [List.inj_on_of_nodup_map distinct member' member same]

theorem exists_find? {list : List α} {k : κ} (present : k ∈ list.map key) :
    ∃ x, list.find? (key · = k) = some x := by
  cases found : list.find? (key · = k) with
  | none => exact absurd present (find?_eq_none.mp found)
  | some x => exact ⟨x, rfl⟩

theorem eraseP_eq_filter {list : List α} (distinct : (list.map key).Nodup) (k : κ) :
    list.eraseP (key · = k) = list.filter (key · ≠ k) := by
  induction list with
  | nil => rfl
  | cons x rest ih =>
      rw [List.map_cons, List.nodup_cons] at distinct
      by_cases same : key x = k
      · have others : ∀ y ∈ rest, key y ≠ k := fun y member equal =>
          distinct.1 (same ▸ equal ▸ List.mem_map_of_mem member)
        simp only [List.eraseP_cons, same, decide_true, List.filter_cons, ne_eq,
          not_true_eq_false, decide_false, Bool.false_eq_true, if_false]
        exact (List.filter_eq_self.mpr (by simpa using others)).symm
      · simp [same, ih distinct.2]

theorem foldl_eraseP {list : List α} (distinct : (list.map key).Nodup) (keys : List κ) :
    keys.foldl (fun list k => list.eraseP (key · = k)) list = list.filter (key · ∉ keys) := by
  induction keys generalizing list with
  | nil => simp
  | cons k rest ih =>
      rw [List.foldl_cons, eraseP_eq_filter distinct,
        ih (distinct.sublist (List.filter_sublist.map key)), List.filter_filter]
      apply List.filter_congr
      intro x _
      by_cases same : key x = k <;> simp [same]

omit [DecidableEq κ] in
theorem ne_of_nodup_cons {front behind : List α} {x : α}
    (distinct : ((front ++ x :: behind).map key).Nodup) :
    ∀ y ∈ front ++ behind, key x ≠ key y := by
  have moved : ((x :: (front ++ behind)).map key).Nodup :=
    (List.Perm.nodup_iff (List.perm_middle.map _)).mp distinct
  intro y member same
  rw [List.map_cons, List.nodup_cons] at moved
  exact moved.1 (same ▸ List.mem_map_of_mem member)

omit [DecidableEq κ] in
theorem forall_besides {P : α → Prop} {front behind : List α} {x : α}
    (distinct : ((front ++ x :: behind).map key).Nodup) (all : ∀ y ∈ front ++ x :: behind, P y) :
    ∀ y ∈ front ++ behind, key x ≠ key y ∧ P y := by
  intro y member
  refine ⟨ne_of_nodup_cons distinct y member, all y ?_⟩
  exact List.perm_middle.mem_iff.mpr (List.mem_cons_of_mem x member)

theorem filter_of_mem {list : List α} (distinct : (list.map key).Nodup) {x : α}
    (member : x ∈ list) : list.filter (key · = key x) = [x] := by
  obtain ⟨front, behind, rfl⟩ := List.append_of_mem member
  have others := ne_of_nodup_cons distinct
  have nothing (part : List α) (sub : ∀ y ∈ part, y ∈ front ++ behind) :
      part.filter (key · = key x) = [] :=
    List.filter_eq_nil_iff.mpr fun y member => by simpa using (others y (sub y member)).symm
  rw [List.filter_append, List.filter_cons, if_pos (by simp), nothing front (by simp +contextual),
    nothing behind (by simp +contextual)]
  rfl

theorem find?_split {front behind : List α} {x : α}
    (distinct : ((front ++ x :: behind).map key).Nodup) :
    (front ++ x :: behind).find? (key · = key x) = some x :=
  find?_of_mem distinct (by simp)

theorem eraseP_split {front behind : List α} {x : α}
    (distinct : ((front ++ x :: behind).map key).Nodup) :
    (front ++ x :: behind).eraseP (key · = key x) = front ++ behind := by
  have others := ne_of_nodup_cons distinct
  rw [List.eraseP_append_right _ fun y member => by simpa using (others y (by simp [member])).symm]
  simp

theorem map_update_split {front behind : List α} {x y : α}
    (distinct : ((front ++ x :: behind).map key).Nodup) :
    ((front ++ x :: behind).map fun z => if key z = key x then y else z) =
      front ++ y :: behind := by
  have others := ne_of_nodup_cons distinct
  have keep (list : List α) (sub : ∀ z ∈ list, z ∈ front ++ behind) :
      (list.map fun z => if key z = key x then y else z) = list := by
    refine (List.map_congr_left fun z member => ?_).trans (List.map_id list)
    exact if_neg (others z (sub z member)).symm
  rw [List.map_append, List.map_cons, if_pos rfl, keep front (by simp +contextual),
    keep behind (by simp +contextual)]

theorem filter_append_perm {list : List α} {keys : List κ} (distinct : (list.map key).Nodup)
    (once : keys.Nodup) (present : ∀ k ∈ keys, k ∈ list.map key) :
    ((list.filter (key · ∉ keys)).map key ++ keys).Perm (list.map key) := by
  have moved : (list.filter (key · ∉ keys)).map key = (list.map key).filter (· ∉ keys) := by
    simp [List.filter_map, Function.comp_def]
  rw [moved]
  refine (List.perm_ext_iff_of_nodup ?_ distinct).mpr fun k => ?_
  · refine List.Nodup.append (distinct.filter _) once ?_
    intro k kept named
    simp only [List.mem_filter, decide_eq_true_eq] at kept
    exact kept.2 named
  · simp only [List.mem_append, List.mem_filter, decide_eq_true_eq]
    by_cases named : k ∈ keys
    · simp [named, present k named]
    · simp [named]

end LlmServing.Lib.Keyed
