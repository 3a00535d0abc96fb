import LlmServing.Threads.Accounting

/-!
# Every request ends once

At the top of the scheduler thread's loop and after its failure handler, what `_submitted` counts is
what the four places hold; and what a request was sent once it has ended is all it is ever sent.
-/

namespace LlmServing.Threads

open Scheduling Runner Engine Lib

variable {α ρ : Type}

def SchedulerAt.atRest : SchedulerAt → Bool
  | .loopTop _ | .stopped _ | .failed => true
  | _ => false

def InferenceEngine.isIdle (s : InferenceEngine α ρ) : Bool := s.core.ended.length = s.submitted

variable [KVAllocator α] {runner : ModelRunner ρ} {scheduler : Scheduler}
  {s t : InferenceEngine α ρ}

theorem view_ids_atRest (rest : s.scheduler.atRest = true) : (view runner s).ids = s.core.ids := by
  cases place : s.scheduler with
  | loopTop _ | stopped _ | failed => rw [view, place]; rfl
  | _ =>
      rw [place] at rest
      cases rest

theorem view_later (runner : ModelRunner ρ) (s : InferenceEngine α ρ) :
    ∃ later : List Sequence, (view runner s).ended = s.core.ended ++ later ∧
      ∀ id ∉ later.map (·.seqId),
        itemsFor id (view runner s).callbacks = itemsFor id s.core.callbacks := by
  cases place : s.scheduler with
  | ends seqs endsOf =>
      refine ⟨seqs, ?_, fun id _ => ?_⟩
      · cases endsOf <;> simp [view, place, complete, endSequences_eq]
      · cases endsOf <;> simp [view, place, complete, endSequences_eq]
  | freePreempted plan | abortRejected plan =>
      refine ⟨(released plan.rejected s.core).finished, ?_, fun id absent => ?_⟩
      · simp only [view, place, complete, handOff_ended, abortAndEnd_eq, freePreempted]
        rfl
      · rw [released_ids] at absent
        simp only [view, place, complete, handOff_callbacks, abortAndEnd_eq, freePreempted]
        exact itemsFor_dispatchAborted_absent absent
  | handOff plan => exact ⟨[], by simp [view, place, complete]⟩
  | _ => exact ⟨[], by simp [view, place, complete]⟩

theorem closed_ended {allocator : α} {start : ρ}
    (reachable : (threads runner scheduler allocator start).Reachable s) :
    ∀ seq ∈ s.core.ended, Closed s.core.callbacks seq := by
  intro seq member
  have seen := ((threads_refine runner scheduler allocator start).reachable reachable).1
  obtain ⟨later, ended, dispatched⟩ := view_later runner s
  have closed := (Engine.delivered seen).ended seq (by simp [ended, member])
  have distinct := (Engine.consistent seen).distinct
  simp only [EngineState.ids, ended, List.map_append] at distinct
  have absent : seq.seqId ∉ later.map (·.seqId) := fun named =>
    List.disjoint_of_nodup_append distinct.of_append_right (List.mem_map_of_mem member) named
  rw [Closed, ← dispatched _ absent]
  exact closed

theorem ended_step {thread : Thread} (step : Step runner scheduler s thread t) :
    s.core.ended <+: t.core.ended := by
  cases thread with
  | scheduler =>
      cases step with
      | stop _ _ | await _ _ | go _ _ | take _ _ | ended _ | drained _ _ | schedulerStep _ _
      | freePreempted _ | abortRejected _ | put _ _ | block _ _ | failClose _ _ | abortAll _
      | clearWaiting _ => exact List.prefix_rfl
      | @apply inFlight taken now here =>
          have same : (startApply now inFlight.plan inFlight.seqs taken.2 s.core).2.ended =
              s.core.ended := by
            unfold startApply
            split
            · rfl
            · rfl
            · split <;> rfl
          exact same ▸ List.prefix_rfl
      | «end» _ => exact List.prefix_append _ _
      | @drain _ item _ _ _ | @wake item _ _ _ => cases item <;> exact List.prefix_rfl
  | worker => cases step <;> exact List.prefix_rfl
  | submitter => cases step <;> exact List.prefix_rfl
  | control => cases step <;> exact List.prefix_rfl

theorem itemsFor_ended {allocator : α} {start : ρ}
    (reachable : (threads runner scheduler allocator start).Reachable s)
    (steps : (threads runner scheduler allocator start).Steps s t) {seq : Sequence}
    (member : seq ∈ s.core.ended) :
    itemsFor seq.seqId t.core.callbacks = itemsFor seq.seqId s.core.callbacks := by
  have still : seq ∈ t.core.ended :=
    steps.preserved (P := fun u => seq ∈ u.core.ended)
      (fun _ _ _ _ before step => (ended_step step).subset before) reachable member
  have now := closed_ended reachable seq member
  have after := closed_ended (reachable.steps steps) seq still
  rw [Closed] at now after
  rw [now, after]

theorem terminalOf_eq_done {callbacks : List Callback} {seq : Sequence}
    (closed : Closed callbacks seq) :
    terminalOf seq = .done ↔ ∃ results token,
      .deliverResults results ∈ callbacks ∧ (seq.seqId, token, true) ∈ results := by
  rw [← done_mem_itemsFor, closed]
  simp [eq_comm]

theorem submitted_eq {allocator : α} {start : ρ}
    (reachable : (threads runner scheduler allocator start).Reachable s)
    (rest : s.scheduler.atRest = true) :
    s.submitted = s.inIngress.length + s.core.waiting.length + s.core.running.length +
        s.core.ended.length ∧
      (s.inIngress.map (·.seqId) ++ s.core.ids).Nodup := by
  have counted := ((threads_refine runner scheduler allocator start).reachable reachable).2
  have ids : countedIds runner s = s.inIngress.map (·.seqId) ++ s.core.ids := by
    rw [countedIds, view_ids_atRest rest]
  refine ⟨?_, ids ▸ counted.distinct.of_append_right⟩
  rw [counted.submitted, ids]
  simp only [EngineState.ids, List.length_append, List.length_map]
  omega

theorem places_failed {allocator : α} {start : ρ}
    (reachable : (threads runner scheduler allocator start).Reachable s)
    (failed : s.scheduler = .failed) :
    s.inIngress = [] ∧ s.core.waiting = [] ∧ s.core.running = [] := by
  have seen := ((threads_refine runner scheduler allocator start).reachable reachable).1
  have phase : (view runner s).phase = .failed := by rw [view, failed]; rfl
  have drained := (Engine.consistent seen).drained phase
  rw [view, failed] at drained
  have closing := closing reachable
  have empty := closing.drained (by rw [failed]; rfl)
  have shut := closing.scheduler (by rw [failed]; rfl)
  refine ⟨?_, drained.2, drained.1⟩
  rcases closing.submitting shut with none | checking
  · simp [InferenceEngine.inIngress, empty, none]
  · simp [InferenceEngine.inIngress, empty, checking, SubmitAt.counting]

/-- At the top of the loop and past the failure handler, each counted request is in one place; an
ended one has been sent its tokens and one terminal, DONE when a finished result for it was applied,
and is sent nothing after; the engine is idle exactly when no other place holds one, as it is past the
failure handler. -/
theorem requests_end_once (runner : ModelRunner ρ) (scheduler : Scheduler) (allocator : α) (start : ρ)
    {s : InferenceEngine α ρ} (reachable : (threads runner scheduler allocator start).Reachable s)
    (rest : s.scheduler.atRest = true) :
    (s.submitted = s.inIngress.length + s.core.waiting.length + s.core.running.length +
        s.core.ended.length ∧
      (s.inIngress.map (·.seqId) ++ s.core.ids).Nodup) ∧
    (∀ seq ∈ s.core.ended,
      itemsFor seq.seqId s.core.callbacks =
        seq.generatedTokens.map .token ++ [.terminal (terminalOf seq)] ∧
      (terminalOf seq = .done ↔ ∃ results token,
        .deliverResults results ∈ s.core.callbacks ∧ (seq.seqId, token, true) ∈ results) ∧
      ∀ t, (threads runner scheduler allocator start).Steps s t →
        itemsFor seq.seqId t.core.callbacks = itemsFor seq.seqId s.core.callbacks) ∧
    (s.isIdle = true ↔ s.inIngress = [] ∧ s.core.waiting = [] ∧ s.core.running = []) ∧
    (s.scheduler = .failed → s.core.ended.length = s.submitted) := by
  have counted := submitted_eq reachable rest
  refine ⟨counted, fun seq member => ?_, ?_, fun failed => ?_⟩
  · have closed := closed_ended reachable seq member
    exact ⟨closed, terminalOf_eq_done closed, fun t steps => itemsFor_ended reachable steps member⟩
  · rw [InferenceEngine.isIdle, decide_eq_true_iff, counted.1]
    simp only [← List.length_eq_zero_iff]
    omega
  · obtain ⟨ingress, waiting, running⟩ := places_failed reachable failed
    rw [counted.1, ingress, waiting, running]
    simp

def sampleAborted : List Sequence × EngineState ContiguousAllocator Caches :=
  abortSequences (sampleCore.running ++ sampleCore.waiting) sampleCore

def sampleFailed : InferenceEngine ContiguousAllocator Caches :=
  { sampleComputing with
    core :=
      { endSequences (hfRunner [] List.length) sampleAborted.1 sampleAborted.2 with waiting := [] }
    scheduler := .failed
    worker := .planGet
    accepting := false }

theorem sampleFailed_reachable : sampleThreads.Reachable sampleFailed := by
  have lost : (hfRunner [] List.length).forward samplePlanned.1 sampleCore.running
      sampleCore.runner .deviceLost sampleCore.runner := fun _ _ => rfl
  have computed := worker_next (worker_next sampleComputing_reachable (.forward rfl lost)) (.put rfl)
  have taken := scheduler_next (scheduler_next computed (.await rfl rfl)) (.take rfl rfl)
  have closed := scheduler_next (scheduler_next taken (.apply 0 rfl)) (.failClose rfl rfl)
  have aborted := scheduler_next (scheduler_next closed (.drained rfl rfl)) (.abortAll rfl)
  exact scheduler_next (aborted.steps (ends_steps rfl)) (.clearWaiting rfl)

theorem requests_end_once_sample :
    (∀ seq ∈ sampleFailed.core.ended, itemsFor seq.seqId sampleFailed.core.callbacks =
        seq.generatedTokens.map .token ++ [.terminal (terminalOf seq)]) ∧
      sampleFailed.core.ended.length = sampleFailed.submitted := by
  obtain ⟨-, ended, -, drained⟩ :=
    requests_end_once _ _ _ _ sampleFailed_reachable rfl
  exact ⟨fun seq member => (ended seq member).1, drained rfl⟩

example : sampleFailed.core.ended.map (·.seqId) = [0] := by decide +kernel

end LlmServing.Threads
