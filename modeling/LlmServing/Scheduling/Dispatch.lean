import LlmServing.Scheduling.Sequence

/-!
# Scheduler thread to event loop

The sending half of `dispatch.py`: what `call_soon_threadsafe` is handed, in order, and the items
each callback puts on its sequences' output queues.
-/

namespace LlmServing.Scheduling

inductive Terminal where
  | done | aborted
  deriving DecidableEq

inductive Item where
  | token (token : Token)
  | terminal (terminal : Terminal)
  deriving DecidableEq

abbrev IterationResults := List (SeqId × Token × Bool)

inductive Callback where
  | deliverResults (results : IterationResults)
  | deliverAborted (seqIds : List SeqId)
  deriving DecidableEq

def dispatchResults (results : IterationResults) (loop : List Callback) : List Callback :=
  if results.isEmpty then loop else loop ++ [.deliverResults results]

def dispatchAborted (seqIds : List SeqId) (loop : List Callback) : List Callback :=
  if seqIds.isEmpty then loop else loop ++ [.deliverAborted seqIds]

def resultItems : SeqId × Token × Bool → List (SeqId × Item)
  | (seqId, token, finished) =>
      (seqId, .token token) :: if finished then [(seqId, .terminal .done)] else []

def Callback.items : Callback → List (SeqId × Item)
  | .deliverResults results => results.flatMap resultItems
  | .deliverAborted seqIds => seqIds.map fun seqId => (seqId, .terminal .aborted)

def itemsFor (seqId : SeqId) (loop : List Callback) : List Item :=
  (loop.flatMap Callback.items).filterMap fun (owner, item) =>
    if owner = seqId then some item else none

theorem itemsFor_append (seqId : SeqId) (first second : List Callback) :
    itemsFor seqId (first ++ second) = itemsFor seqId first ++ itemsFor seqId second := by
  simp [itemsFor]

theorem done_mem_itemsFor {seqId : SeqId} {loop : List Callback} :
    .terminal .done ∈ itemsFor seqId loop ↔
      ∃ results token, .deliverResults results ∈ loop ∧ (seqId, token, true) ∈ results := by
  have one (result : SeqId × Token × Bool) :
      (seqId, .terminal .done) ∈ resultItems result ↔ ∃ token, result = (seqId, token, true) := by
    obtain ⟨owner, token, finished⟩ := result
    cases finished <;> simp [resultItems, eq_comm]
  have each (callback : Callback) :
      (seqId, .terminal .done) ∈ callback.items ↔
        ∃ results token, callback = .deliverResults results ∧ (seqId, token, true) ∈ results := by
    cases callback with
    | deliverAborted seqIds => simp [Callback.items]
    | deliverResults results =>
        simp only [Callback.items, List.mem_flatMap, one]
        constructor
        · rintro ⟨_, member, token, rfl⟩
          exact ⟨results, token, rfl, member⟩
        · rintro ⟨_, token, ⟨⟩, member⟩
          exact ⟨_, member, token, rfl⟩
  have found : .terminal .done ∈ itemsFor seqId loop ↔
      ∃ callback ∈ loop, (seqId, .terminal .done) ∈ callback.items := by
    simp [itemsFor]
  simp only [found, each]
  constructor
  · rintro ⟨_, member, results, token, rfl, finished⟩
    exact ⟨results, token, member, finished⟩
  · rintro ⟨results, token, member, finished⟩
    exact ⟨_, member, results, token, rfl, finished⟩

theorem itemsFor_dispatchResults (seqId : SeqId) (results : IterationResults)
    (loop : List Callback) :
    itemsFor seqId (dispatchResults results loop) =
      itemsFor seqId loop ++ itemsFor seqId [.deliverResults results] := by
  unfold dispatchResults
  split
  · rename_i none
    simp [List.isEmpty_iff.mp none, itemsFor, Callback.items]
  · exact itemsFor_append _ _ _

theorem itemsFor_dispatchAborted (seqId : SeqId) (seqIds : List SeqId) (loop : List Callback) :
    itemsFor seqId (dispatchAborted seqIds loop) =
      itemsFor seqId loop ++ itemsFor seqId [.deliverAborted seqIds] := by
  unfold dispatchAborted
  split
  · rename_i none
    simp [List.isEmpty_iff.mp none, itemsFor, Callback.items]
  · exact itemsFor_append _ _ _

theorem itemsFor_deliverResults_cons (seqId owner : SeqId) (token : Token) (finished : Bool)
    (results : IterationResults) :
    itemsFor seqId [.deliverResults ((owner, token, finished) :: results)] =
      (if owner = seqId then
        .token token :: if finished then [.terminal .done] else [] else []) ++
      itemsFor seqId [.deliverResults results] := by
  by_cases same : owner = seqId <;> cases finished <;>
    simp [itemsFor, Callback.items, resultItems, same]

theorem itemsFor_deliverResults_absent (seqId : SeqId) (results : IterationResults)
    (absent : seqId ∉ results.map (·.1)) : itemsFor seqId [.deliverResults results] = [] := by
  induction results with
  | nil => rfl
  | cons result rest ih =>
      obtain ⟨owner, token, finished⟩ := result
      simp only [List.map_cons, List.mem_cons, not_or] at absent
      rw [itemsFor_deliverResults_cons, ih absent.2, if_neg (Ne.symm absent.1)]
      rfl

theorem itemsFor_deliverAborted_cons (seqId owner : SeqId) (seqIds : List SeqId) :
    itemsFor seqId [.deliverAborted (owner :: seqIds)] =
      (if owner = seqId then [.terminal .aborted] else []) ++
      itemsFor seqId [.deliverAborted seqIds] := by
  by_cases same : owner = seqId <;> simp [itemsFor, Callback.items, same]

theorem itemsFor_deliverAborted_absent (seqId : SeqId) (seqIds : List SeqId)
    (absent : seqId ∉ seqIds) : itemsFor seqId [.deliverAborted seqIds] = [] := by
  induction seqIds with
  | nil => rfl
  | cons owner rest ih =>
      simp only [List.mem_cons, not_or] at absent
      rw [itemsFor_deliverAborted_cons, ih absent.2, if_neg (Ne.symm absent.1)]
      rfl

theorem itemsFor_dispatchResults_absent {seqId : SeqId} {results : IterationResults}
    {loop : List Callback} (absent : seqId ∉ results.map (·.1)) :
    itemsFor seqId (dispatchResults results loop) = itemsFor seqId loop := by
  rw [itemsFor_dispatchResults, itemsFor_deliverResults_absent _ _ absent, List.append_nil]

theorem itemsFor_dispatchResults_mem {seqId : SeqId} {token : Token} {finished : Bool}
    {results : IterationResults} (loop : List Callback) (once : (results.map (·.1)).Nodup)
    (member : (seqId, token, finished) ∈ results) :
    itemsFor seqId (dispatchResults results loop) =
      itemsFor seqId loop ++ .token token :: if finished then [.terminal .done] else [] := by
  rw [itemsFor_dispatchResults]
  congr 1
  induction results with
  | nil => cases member
  | cons result rest ih =>
      obtain ⟨owner, first, last⟩ := result
      rw [List.map_cons, List.nodup_cons] at once
      rw [itemsFor_deliverResults_cons]
      rcases List.mem_cons.mp member with same | member
      · obtain ⟨rfl, rfl, rfl⟩ := same
        rw [if_pos rfl, itemsFor_deliverResults_absent _ _ once.1, List.append_nil]
      · have named : seqId ∈ rest.map (·.1) := List.mem_map.mpr ⟨_, member, rfl⟩
        have other : owner ≠ seqId := fun same => once.1 (same ▸ named)
        rw [if_neg other, List.nil_append, ih once.2 member]

theorem itemsFor_dispatchAborted_absent {seqId : SeqId} {seqIds : List SeqId}
    {loop : List Callback} (absent : seqId ∉ seqIds) :
    itemsFor seqId (dispatchAborted seqIds loop) = itemsFor seqId loop := by
  rw [itemsFor_dispatchAborted, itemsFor_deliverAborted_absent _ _ absent, List.append_nil]

theorem itemsFor_dispatchAborted_mem {seqId : SeqId} {seqIds : List SeqId}
    (loop : List Callback) (once : seqIds.Nodup) (member : seqId ∈ seqIds) :
    itemsFor seqId (dispatchAborted seqIds loop) =
      itemsFor seqId loop ++ [.terminal .aborted] := by
  rw [itemsFor_dispatchAborted]
  congr 1
  induction seqIds with
  | nil => cases member
  | cons owner rest ih =>
      rw [List.nodup_cons] at once
      rw [itemsFor_deliverAborted_cons]
      rcases List.mem_cons.mp member with rfl | member
      · rw [if_pos rfl, itemsFor_deliverAborted_absent _ _ once.1, List.append_nil]
      · have other : owner ≠ seqId := fun same => once.1 (same ▸ member)
        rw [if_neg other, List.nil_append, ih once.2 member]

end LlmServing.Scheduling
