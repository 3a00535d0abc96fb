import LlmServing.Engine.Consistent

/-!
# What reaches the client

Everything dispatched for a live sequence is the tokens it generated; for an ended one these and one
terminal after them.
-/

namespace LlmServing.Engine

open Scheduling Runner Lib

variable {α ρ : Type}

def Open (callbacks : List Callback) (seq : Sequence) : Prop :=
  itemsFor seq.seqId callbacks = seq.generatedTokens.map .token ∧ seq.metrics.doneTime = none

def terminalOf (seq : Sequence) : Terminal :=
  if seq.metrics.doneTime.isSome then .done else .aborted

def Closed (callbacks : List Callback) (seq : Sequence) : Prop :=
  itemsFor seq.seqId callbacks =
    seq.generatedTokens.map .token ++ [.terminal (terminalOf seq)]

structure Delivered (s : EngineState α ρ) : Prop where
  running : ∀ seq ∈ s.running, Open s.callbacks seq
  waiting : ∀ seq ∈ s.waiting, Open s.callbacks seq
  ended : ∀ seq ∈ s.ended, Closed s.callbacks seq
  others : ∀ id ∉ s.ids, itemsFor id s.callbacks = []

variable [KVAllocator α] {runner : ModelRunner ρ} {scheduler : Scheduler}

theorem opening (callbacks : List Callback) (scheduler : Scheduler) (now : Time) :
    PlanRule (α := α) scheduler now (fun _ => True) (fun _ _ => Open callbacks)
      (fun _ => Open callbacks) where
  grant _ _ := trivial
  release _ := trivial
  decode _ _ ok _ := ok
  preempt _ ok := ok
  «continue» _ _ ok _ _ := ok
  admission _ ok _ _ _ := ok
  skip ok := ok

theorem Open.absent {callbacks : List Callback} {seq : Sequence} {seqIds : List SeqId}
    (opened : Open callbacks seq) (absent : seq.seqId ∉ seqIds) :
    Open (dispatchAborted seqIds callbacks) seq :=
  ⟨(itemsFor_dispatchAborted_absent absent).trans opened.1, opened.2⟩

theorem Closed.absent {callbacks : List Callback} {seq : Sequence} {seqIds : List SeqId}
    (closed : Closed callbacks seq) (absent : seq.seqId ∉ seqIds) :
    Closed (dispatchAborted seqIds callbacks) seq :=
  (itemsFor_dispatchAborted_absent absent).trans closed

theorem closed_released {callbacks : List Callback} {seqs : List Sequence} {s : EngineState α ρ}
    (once : (seqs.map (·.seqId)).Nodup) (opened : ∀ seq ∈ seqs, Open callbacks seq)
    {seq : Sequence} (member : seq ∈ (released seqs s).finished) :
    Closed (dispatchAborted (seqs.map (·.seqId)) callbacks) seq := by
  obtain ⟨source, found, a, rfl⟩ := released_finished member
  obtain ⟨items, unfinished⟩ := opened source found
  have added := itemsFor_dispatchAborted_mem callbacks once (List.mem_map_of_mem found)
  simp only [Closed, terminalOf, unfinished]
  rw [added, items]
  rfl

theorem Closed.results {callbacks : List Callback} {seq : Sequence} {results : IterationResults}
    (closed : Closed callbacks seq) (absent : seq.seqId ∉ results.map (·.1)) :
    Closed (dispatchResults results callbacks) seq :=
  (itemsFor_dispatchResults_absent absent).trans closed

theorem Open.results {callbacks : List Callback} {seq : Sequence} {results : IterationResults}
    (opened : Open callbacks seq) (absent : seq.seqId ∉ results.map (·.1)) :
    Open (dispatchResults results callbacks) seq :=
  ⟨(itemsFor_dispatchResults_absent absent).trans opened.1, opened.2⟩

theorem Open.token {callbacks : List Callback} {seq : Sequence} {results : IterationResults}
    {token : Token} (opened : Open callbacks seq) (now : Time) (once : (results.map (·.1)).Nodup)
    (member : (seq.seqId, token, false) ∈ results) :
    Open (dispatchResults results callbacks) (recordToken now token false seq) := by
  refine ⟨?_, opened.2⟩
  have added := itemsFor_dispatchResults_mem callbacks once member
  rw [seqId_recordToken, added, opened.1]
  simp [recordToken]

theorem Open.finished {callbacks : List Callback} {seq : Sequence} {results : IterationResults}
    {token : Token} (opened : Open callbacks seq) (now : Time) (table : BlockTable)
    (once : (results.map (·.1)).Nodup) (member : (seq.seqId, token, true) ∈ results) :
    Closed (dispatchResults results callbacks)
      { recordToken now token true seq with blockTable := table } := by
  have added := itemsFor_dispatchResults_mem callbacks once member
  simp only [Closed, terminalOf, seqId_recordToken, added, opened.1]
  simp [recordToken]

omit [KVAllocator α] in
theorem Delivered.arrive {s : EngineState α ρ} (delivered : Delivered s) {req : IngressRequest}
    (fresh : req.seqId ∉ s.ids) :
    Delivered { s with waiting := s.waiting ++ [sequenceFromIngress req] } := by
  refine ⟨delivered.running, fun seq member => ?_, delivered.ended, fun id absent => ?_⟩
  · rcases List.mem_append.mp member with member | member
    · exact delivered.waiting seq member
    · rw [List.mem_singleton.mp member]
      exact ⟨delivered.others _ fresh, rfl⟩
  · refine delivered.others id fun member => absent ?_
    exact (ids_arrive req).mem_iff.mpr (List.mem_cons_of_mem _ member)

theorem Delivered.schedule (now : Time) {s : EngineState α ρ} (delivered : Delivered s)
    (ok : Consistent runner s) : Delivered (Engine.schedule runner scheduler now s) := by
  have apart := planned_distinct scheduler now ok.live_distinct
  have holds := ok.holds (opening s.callbacks scheduler now) trivial delivered.running
    delivered.waiting
  have perm := ids_schedule scheduler now ok
  have allIds := perm.nodup_iff.mpr ok.distinct
  simp only [EngineState.ids, schedule_ended, List.map_append, released_ids,
    ← List.append_assoc] at allIds
  refine ⟨fun seq member => ?_, fun seq member => ?_, fun seq member => ?_, fun id absent => ?_⟩
  · rw [schedule_running _ _ _ ok.live_distinct] at member
    rw [schedule_callbacks]
    exact Open.absent (holds.running seq member)
      (apart.running_not_rejected (List.mem_map_of_mem member))
  · rw [schedule_waiting] at member
    rw [schedule_callbacks]
    exact Open.absent (holds.waiting seq member)
      (apart.waiting_not_rejected (List.mem_map_of_mem member))
  · rw [schedule_ended] at member
    rw [schedule_callbacks]
    rcases List.mem_append.mp member with member | member
    · refine (delivered.ended seq member).absent fun named => ?_
      exact List.disjoint_of_nodup_append allIds
        (List.mem_append_right _ (List.mem_map_of_mem member)) named
    · exact closed_released apart.rejected_nodup holds.rejected member
  · have before : id ∉ s.ids := fun member => absent (perm.mem_iff.mpr member)
    rw [schedule_callbacks, itemsFor_dispatchAborted_absent, delivered.others id before]
    intro named
    refine absent (mem_ids.mpr (.inr (.inr ?_)))
    rw [schedule_ended, List.map_append, released_ids]
    exact List.mem_append_right _ named

theorem Delivered.results {now : Time} {s : EngineState α ρ} (delivered : Delivered s)
    (ok : Consistent runner s) {flight : InFlight} {results : IterationResults} {folded : Folding α}
    (inFlight : s.inFlight = some flight) (outcome : flight.outcome = some (.results results))
    (spec : Folded now results ⟨s.running, s.allocator, []⟩ folded) :
    Delivered (resultsApplied runner results folded s) := by
  have flightOk := ok.flight flight inFlight
  have once := flightOk.results_once outcome
  have present := flightOk.results_present outcome
  refine ⟨fun seq member => ?_, fun seq member => ?_, fun seq member => ?_, fun id absent => ?_⟩
  · obtain ⟨source, found, left⟩ := spec.running_source member
    rcases left with ⟨absent, rfl⟩ | ⟨token, named, rfl⟩
    · exact (delivered.running _ found).results absent
    · exact (delivered.running source found).token now once named
  · exact (delivered.waiting seq member).results fun named =>
      ok.running_not_waiting (present _ named) (List.mem_map_of_mem member)
  · rcases List.mem_append.mp member with member | member
    · exact (delivered.ended seq member).results fun named =>
        ok.running_not_ended (present _ named) (List.mem_map_of_mem member)
    · rcases spec.finished seq member with member | ⟨source, found, token, a, named, rfl⟩
      · cases member
      · exact (delivered.running source found).finished now _ once named
  · have before : id ∉ s.ids := fun member => absent ((ids_results spec).mem_iff.mpr member)
    have unnamed : id ∉ results.map (·.1) := fun named =>
      before (mem_ids.mpr (.inl (present id named)))
    exact (itemsFor_dispatchResults_absent unnamed).trans (delivered.others id before)

theorem Delivered.failed {s : EngineState α ρ} (delivered : Delivered s) (ok : Consistent runner s)
    {flight : InFlight} (inFlight : s.inFlight = some flight) :
    Delivered (aborted runner (failedBatch flight) s) := by
  have flightOk := ok.flight flight inFlight
  have present : ∀ id ∈ (failedBatch flight).map (·.seqId), id ∈ s.running.map (·.seqId) := by
    rw [flightOk.failedBatch_ids]
    exact flightOk.present
  have once := flightOk.failedBatch_nodup
  refine ⟨fun seq member => ?_, fun seq member => ?_, fun seq member => ?_, fun id absent => ?_⟩
  · rw [failed_running ok inFlight] at member
    obtain ⟨found, absent⟩ := List.mem_filter.mp member
    rw [← flightOk.failedBatch_ids] at absent
    exact (delivered.running seq found).absent (of_decide_eq_true absent)
  · exact (delivered.waiting seq member).absent fun named =>
      ok.running_not_waiting (present _ named) (List.mem_map_of_mem member)
  · rcases List.mem_append.mp member with member | member
    · exact (delivered.ended seq member).absent fun named =>
        ok.running_not_ended (present _ named) (List.mem_map_of_mem member)
    · exact closed_released once
        (fun other named => delivered.running other (mem_failedBatch flightOk named)) member
  · have before : id ∉ s.ids := fun member => absent ((ids_failed ok inFlight).mem_iff.mpr member)
    have unnamed : id ∉ (failedBatch flight).map (·.seqId) := fun named =>
      before (mem_ids.mpr (.inl (present id named)))
    exact (itemsFor_dispatchAborted_absent unnamed).trans (delivered.others id before)

theorem Delivered.abortAll {s : EngineState α ρ} (delivered : Delivered s)
    (ok : Consistent runner s) :
    Delivered { aborted runner (s.running ++ s.waiting) s with waiting := [], phase := .failed } := by
  refine ⟨fun seq member => ?_, (List.forall_mem_nil _), fun seq member => ?_,
    fun id absent => ?_⟩
  · rw [abortAll_running ok] at member
    cases member
  · rcases List.mem_append.mp member with member | member
    · exact (delivered.ended seq member).absent fun named =>
        ok.live_not_ended named (List.mem_map_of_mem member)
    · refine closed_released ok.live_distinct (fun other named => ?_) member
      rcases List.mem_append.mp named with named | named
      · exact delivered.running other named
      · exact delivered.waiting other named
  · have before : id ∉ s.ids := fun member => absent ((ids_abortAll ok).mem_iff.mpr member)
    have unnamed : id ∉ (s.running ++ s.waiting).map (·.seqId) := fun named => before (by
      rw [EngineState.ids, List.map_append]
      exact List.mem_append_left _ named)
    exact (itemsFor_dispatchAborted_absent unnamed).trans (delivered.others id before)

theorem deliveredRule :
    LoopRule runner scheduler (fun _ => True) (Delivered (α := α) (ρ := ρ)) where
  arrive _ _ delivered _ _ fresh := delivered.arrive fresh
  schedule ok _ delivered _ _ := delivered.schedule _ ok
  forward _ _ delivered _ _ _ := ⟨delivered.running, delivered.waiting, delivered.ended,
    delivered.others⟩
  results ok _ delivered inFlight outcome _ spec := delivered.results ok inFlight outcome spec
  failed ok _ delivered inFlight _ := delivered.failed ok inFlight
  deviceLost _ _ delivered _ _ := ⟨delivered.running, delivered.waiting, delivered.ended,
    delivered.others⟩
  abortAll ok _ delivered _ _ := delivered.abortAll ok

theorem delivered {allocator : α} {start : ρ} {s : EngineState α ρ}
    (reachable : (loop runner scheduler allocator start).Reachable s) : Delivered s :=
  deliveredRule.reachable (fun _ _ => trivial)
    ⟨(List.forall_mem_nil _), (List.forall_mem_nil _),
      (List.forall_mem_nil _), fun _ _ => rfl⟩ reachable

end LlmServing.Engine
