import LlmServing.Engine.Loop
import LlmServing.Scheduling.Planning
import LlmServing.Scheduling.Results

/-!
# What the pieces of a step leave

Equations for the functions of `Loop.lean`, so that no later proof unfolds them.
-/

namespace LlmServing.Engine

open Scheduling Runner Lib

variable {α ρ : Type} (runner : ModelRunner ρ)

def EngineState.plan (s : EngineState α ρ) : BatchPlan := (s.inFlight.map (·.plan)).getD {}

theorem endSequences_eq (seqs : List Sequence) (s : EngineState α ρ) :
    endSequences runner seqs s =
      { s with
        runner := runner.freeAll (seqs.map (·.seqId)) s.runner
        ended := s.ended ++ seqs } := by
  induction seqs generalizing s with
  | nil => simp [endSequences, ModelRunner.freeAll]
  | cons seq rest ih =>
      have later := ih (endSequence runner s seq)
      simp only [endSequences, List.foldl_cons] at later ⊢
      rw [later]
      simp [endSequence, ModelRunner.freeAll]

@[simp] theorem handOff_running (plan : BatchPlan) (s : EngineState α ρ) :
    (handOff plan s).running = s.running := by unfold handOff; split <;> rfl

@[simp] theorem handOff_waiting (plan : BatchPlan) (s : EngineState α ρ) :
    (handOff plan s).waiting = s.waiting := by unfold handOff; split <;> rfl

@[simp] theorem handOff_allocator (plan : BatchPlan) (s : EngineState α ρ) :
    (handOff plan s).allocator = s.allocator := by unfold handOff; split <;> rfl

@[simp] theorem handOff_runner (plan : BatchPlan) (s : EngineState α ρ) :
    (handOff plan s).runner = s.runner := by unfold handOff; split <;> rfl

@[simp] theorem handOff_phase (plan : BatchPlan) (s : EngineState α ρ) :
    (handOff plan s).phase = s.phase := by unfold handOff; split <;> rfl

@[simp] theorem handOff_callbacks (plan : BatchPlan) (s : EngineState α ρ) :
    (handOff plan s).callbacks = s.callbacks := by unfold handOff; split <;> rfl

@[simp] theorem handOff_ended (plan : BatchPlan) (s : EngineState α ρ) :
    (handOff plan s).ended = s.ended := by unfold handOff; split <;> rfl

theorem entryFor_handOff (plan : BatchPlan) {s : EngineState α ρ} (idle : s.inFlight = none)
    (id : SeqId) : entryFor (handOff plan s).plan id = entryFor plan id := by
  unfold handOff
  split
  · rename_i empty
    simp [EngineState.plan, idle, entryFor, List.isEmpty_iff.mp empty]
  · rfl

variable [KVAllocator α] (scheduler : Scheduler)

def released (seqs : List Sequence) (s : EngineState α ρ) : Folding α :=
  seqs.foldl abortOne { running := s.running, allocator := s.allocator }

theorem abortAndEnd_eq (seqs : List Sequence) (s : EngineState α ρ) :
    abortAndEnd runner seqs s =
      { s with
        running := (released seqs s).running
        allocator := (released seqs s).allocator
        callbacks := dispatchAborted (seqs.map (·.seqId)) s.callbacks
        runner := runner.freeAll (seqs.map (·.seqId)) s.runner
        ended := s.ended ++ (released seqs s).finished } := by
  have ids := (foldl_abortOne_finished seqs { running := s.running, allocator := s.allocator }).1
  simp only [abortAndEnd, abortSequences, abort, endSequences_eq]
  rw [show (seqs.foldl abortOne ⟨s.running, s.allocator, []⟩).finished.map (·.seqId) =
    seqs.map (·.seqId) by simpa using ids]
  rfl

theorem released_running {seqs : List Sequence} {s : EngineState α ρ}
    (distinct : (s.running.map (·.seqId)).Nodup) :
    (released seqs s).running = s.running.filter (·.seqId ∉ seqs.map (·.seqId)) :=
  foldl_abortOne_running seqs _ distinct

theorem mem_released_running {seqs : List Sequence} {s : EngineState α ρ}
    (distinct : (s.running.map (·.seqId)).Nodup) {seq : Sequence}
    (member : seq ∈ (released seqs s).running) : seq ∈ s.running := by
  rw [released_running distinct] at member
  exact List.mem_of_mem_filter member

theorem released_ids (seqs : List Sequence) (s : EngineState α ρ) :
    (released seqs s).finished.map (·.seqId) = seqs.map (·.seqId) := by
  simpa [released] using
    (foldl_abortOne_finished seqs { running := s.running, allocator := s.allocator }).1

theorem released_finished {seqs : List Sequence} {s : EngineState α ρ} {seq : Sequence}
    (member : seq ∈ (released seqs s).finished) :
    ∃ source ∈ seqs, ∃ a : α, seq = { source with blockTable := (free a source.blockTable).2 } := by
  rcases (foldl_abortOne_finished seqs { running := s.running, allocator := s.allocator }).2 seq
    member with member | found
  · exact absurd member List.not_mem_nil
  · exact found

def planned (now : Time) (s : EngineState α ρ) : Planning α :=
  schedulerStep scheduler now s.running s.waiting s.allocator

def afterStep (now : Time) (s : EngineState α ρ) : EngineState α ρ :=
  { s with
    running := (planned scheduler now s).running
    waiting := (planned scheduler now s).waiting
    allocator := (planned scheduler now s).allocator
    runner := runner.freeAll (planned scheduler now s).plan.preempted s.runner }

theorem schedule_eq (now : Time) (s : EngineState α ρ) :
    schedule runner scheduler now s =
      handOff (planned scheduler now s).plan
        (abortAndEnd runner (planned scheduler now s).plan.rejected
          (afterStep runner scheduler now s)) := rfl

theorem planned_distinct (now : Time) {s : EngineState α ρ}
    (distinct : ((s.running ++ s.waiting).map (·.seqId)).Nodup) :
    (planned scheduler now s).Distinct :=
  schedulerStep_distinct scheduler now _ _ _ distinct

theorem schedule_running (now : Time) {s : EngineState α ρ}
    (distinct : ((s.running ++ s.waiting).map (·.seqId)).Nodup) :
    (schedule runner scheduler now s).running = (planned scheduler now s).running := by
  have apart := planned_distinct scheduler now distinct
  rw [schedule_eq, handOff_running, abortAndEnd_eq]
  simp only
  rw [released_running (by exact apart.running_nodup)]
  refine List.filter_eq_self.mpr fun seq member => ?_
  exact decide_eq_true (apart.running_not_rejected (List.mem_map_of_mem member))

theorem schedule_waiting (now : Time) (s : EngineState α ρ) :
    (schedule runner scheduler now s).waiting = (planned scheduler now s).waiting := by
  rw [schedule_eq, handOff_waiting, abortAndEnd_eq]
  rfl

theorem schedule_ended (now : Time) (s : EngineState α ρ) :
    (schedule runner scheduler now s).ended = s.ended ++
      (released (planned scheduler now s).plan.rejected (afterStep runner scheduler now s)).finished := by
  rw [schedule_eq, handOff_ended, abortAndEnd_eq]
  rfl

theorem schedule_runner (now : Time) (s : EngineState α ρ) :
    (schedule runner scheduler now s).runner =
      runner.freeAll ((planned scheduler now s).plan.rejected.map (·.seqId))
        (runner.freeAll (planned scheduler now s).plan.preempted s.runner) := by
  rw [schedule_eq, handOff_runner, abortAndEnd_eq]
  rfl

theorem schedule_callbacks (now : Time) (s : EngineState α ρ) :
    (schedule runner scheduler now s).callbacks =
      dispatchAborted ((planned scheduler now s).plan.rejected.map (·.seqId)) s.callbacks := by
  rw [schedule_eq, handOff_callbacks, abortAndEnd_eq]
  rfl

theorem schedule_phase (now : Time) (s : EngineState α ρ) :
    (schedule runner scheduler now s).phase = s.phase := by
  rw [schedule_eq, handOff_phase, abortAndEnd_eq]
  rfl

theorem schedule_entryFor (now : Time) {s : EngineState α ρ} (idle : s.inFlight = none)
    (id : SeqId) : entryFor (schedule runner scheduler now s).plan id =
      entryFor (planned scheduler now s).plan id := by
  rw [schedule_eq]
  refine entryFor_handOff _ ?_ id
  rw [abortAndEnd_eq]
  exact idle

theorem schedule_inFlight (now : Time) {s : EngineState α ρ} (idle : s.inFlight = none)
    {flight : InFlight} (inFlight : (schedule runner scheduler now s).inFlight = some flight) :
    (planned scheduler now s).plan.entries ≠ [] ∧
      flight = ⟨(planned scheduler now s).plan, (schedule runner scheduler now s).running, none⟩ := by
  rw [schedule_eq] at inFlight ⊢
  rw [handOff_running]
  unfold handOff at inFlight
  split at inFlight
  · rw [abortAndEnd_eq] at inFlight
    simp [afterStep, idle] at inFlight
  · rename_i nonempty
    exact ⟨fun empty => nonempty (List.isEmpty_iff.mpr empty), (Option.some.inj inFlight).symm⟩

theorem schedule_empty (now : Time) {s : EngineState α ρ}
    (empty : (schedule runner scheduler now s).inFlight = none) :
    (planned scheduler now s).plan.entries = [] := by
  rw [schedule_eq, handOff] at empty
  split at empty
  · rename_i none
    exact List.isEmpty_iff.mp none
  · cases empty

theorem schedule_plan_entries (now : Time) {s : EngineState α ρ} (idle : s.inFlight = none) :
    (schedule runner scheduler now s).plan.entries = (planned scheduler now s).plan.entries := by
  cases inFlight : (schedule runner scheduler now s).inFlight with
  | none =>
      rw [EngineState.plan, inFlight, schedule_empty runner scheduler now inFlight]
      rfl
  | some flight =>
      obtain ⟨-, rfl⟩ := schedule_inFlight runner scheduler now idle inFlight
      rw [EngineState.plan, inFlight]
      rfl

end LlmServing.Engine
