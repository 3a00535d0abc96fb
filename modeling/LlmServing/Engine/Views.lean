import LlmServing.Engine.Consistent

/-!
# A coarser model runner

When one runner's state maps to another's so that every forward pass and every free of the first is one
of the second, the engine on the first refines the engine on the second.
-/

namespace LlmServing.Engine

open Scheduling Runner Lib

variable {α ρ τ : Type}

structure View (runner : ModelRunner ρ) (coarse : ModelRunner τ) (view : ρ → τ) : Prop where
  forward {plan : BatchPlan} {seqs : List Sequence} {before after : ρ} {outcome : Outcome} :
    runner.forward plan seqs before outcome after →
    coarse.forward plan seqs (view before) outcome (view after)
  free (id : SeqId) (state : ρ) : view (runner.free id state) = coarse.free id (view state)

def EngineState.viewed (view : ρ → τ) (s : EngineState α ρ) : EngineState α τ where
  running := s.running
  waiting := s.waiting
  allocator := s.allocator
  runner := view s.runner
  inFlight := s.inFlight
  phase := s.phase
  callbacks := s.callbacks
  ended := s.ended

variable [KVAllocator α] {runner : ModelRunner ρ} {coarse : ModelRunner τ} {view : ρ → τ}
  {scheduler : Scheduler}

omit [KVAllocator α] in
theorem View.freeAll (viewing : View runner coarse view) (ids : List SeqId) (state : ρ) :
    view (runner.freeAll ids state) = coarse.freeAll ids (view state) := by
  induction ids generalizing state with
  | nil => rfl
  | cons id rest ih =>
      have later := ih (runner.free id state)
      rw [viewing.free] at later
      exact later

omit [KVAllocator α] in
theorem View.endSequences (viewing : View runner coarse view) (seqs : List Sequence)
    (s : EngineState α ρ) :
    (endSequences runner seqs s).viewed view = endSequences coarse seqs (s.viewed view) := by
  rw [endSequences_eq, endSequences_eq]
  simp only [EngineState.viewed, viewing.freeAll]

theorem View.abortAndEnd (viewing : View runner coarse view) (seqs : List Sequence)
    (s : EngineState α ρ) :
    (abortAndEnd runner seqs s).viewed view = abortAndEnd coarse seqs (s.viewed view) := by
  rw [abortAndEnd_eq, abortAndEnd_eq]
  simp only [EngineState.viewed, viewing.freeAll]
  rfl

omit [KVAllocator α] in
theorem viewed_handOff (plan : BatchPlan) (s : EngineState α ρ) :
    (handOff plan s).viewed view = handOff plan (s.viewed view) := by
  unfold handOff
  split
  · rfl
  · rfl

theorem View.schedule (viewing : View runner coarse view) (now : Time) (s : EngineState α ρ) :
    (schedule runner scheduler now s).viewed view =
      schedule coarse scheduler now (s.viewed view) := by
  rw [schedule_eq, schedule_eq, viewed_handOff, viewing.abortAndEnd]
  have step : (afterStep runner scheduler now s).viewed view =
      afterStep coarse scheduler now (s.viewed view) := by
    simp only [EngineState.viewed, afterStep, viewing.freeAll]
    rfl
  rw [step]
  rfl

theorem View.applyOutcome (viewing : View runner coarse view) (now : Time) (flight : InFlight)
    (outcome : Outcome) (s : EngineState α ρ) :
    (applyOutcome runner now flight outcome s).viewed view =
      applyOutcome coarse now flight outcome (s.viewed view) := by
  cases outcome with
  | deviceLost => rfl
  | failed => exact viewing.abortAndEnd _ _
  | results results =>
      unfold Engine.applyOutcome
      have same : handleIterationResults now results (s.viewed view).running
          (s.viewed view).allocator (s.viewed view).callbacks =
          handleIterationResults now results s.running s.allocator s.callbacks := rfl
      simp only [same]
      cases handleIterationResults now results s.running s.allocator s.callbacks with
      | none => rfl
      | some folded => exact viewing.endSequences _ _

theorem View.abortAll (viewing : View runner coarse view) (s : EngineState α ρ) :
    (abortAll runner s).viewed view = abortAll coarse (s.viewed view) := by
  have ended := viewing.abortAndEnd (s.running ++ s.waiting) s
  exact congrArg (fun s : EngineState α τ => { s with waiting := [], phase := .failed }) ended

theorem View.step (viewing : View runner coarse view) {s t : EngineState α ρ} {event : Event}
    (step : Step runner scheduler s event t) :
    Step coarse scheduler (s.viewed view) event (t.viewed view) := by
  cases step with
  | arrive idle live fresh => exact .arrive idle live fresh
  | schedule idle serving =>
      rw [viewing.schedule]
      exact .schedule idle serving
  | forward inFlight pending computed => exact .forward inFlight pending (viewing.forward computed)
  | apply inFlight done =>
      rw [viewing.applyOutcome]
      exact .apply inFlight done
  | abortAll failing =>
      rw [viewing.abortAll]
      exact .abortAll failing

theorem View.refines (viewing : View runner coarse view) (allocator : α) (start : ρ) :
    Machine.Refines (loop runner scheduler allocator start)
      (loop coarse scheduler allocator (view start)) (EngineState.viewed view) fun _ => True where
  initial := by
    rintro _ rfl
    exact ⟨rfl, trivial⟩
  step _ event _ _ _ _ step := ⟨.inr ⟨event, viewing.step step⟩, trivial⟩

end LlmServing.Engine
