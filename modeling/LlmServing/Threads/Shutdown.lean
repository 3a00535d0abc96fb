import LlmServing.Threads.HandOff

/-!
# The wake-up of `stop`

`stop` sets `_stop` and puts a `None` on the ingress for a scheduler thread that sleeps there. A pass
of the loop that is past its check of `_stop` may take the `None` in `_drain_ingress`; when it then
has nothing to schedule it goes to sleep, and nothing wakes it.
-/

namespace LlmServing.Threads

open Scheduling Runner Engine Lib

variable {α ρ : Type}

def ControlAt.pastIngressPut : ControlAt → Bool
  | .stop .planPut _ | .stop .join _ | .load => true
  | _ => false

def ControlAt.pastPuts : ControlAt → Bool
  | .stop .join _ | .load => true
  | _ => false

theorem ControlAt.pastIngressPut_of_pastPuts {place : ControlAt} (past : place.pastPuts = true) :
    place.pastIngressPut = true := by
  cases place with
  | stop stage switching => cases stage <;> first | rfl | cases past
  | load => rfl
  | _ => cases past

structure WakeUpLost (s : InferenceEngine α ρ) : Prop where
  pastPuts : s.control.pastPuts = true
  ingress : s.ingress = []
  asleep : s.scheduler = .ingressGet

structure WakeUpTaken (s : InferenceEngine α ρ) : Prop where
  put : s.control.pastIngressPut = true
  ingress : s.ingress = []

def SchedulerAt.sleepsOn : SchedulerAt → Option BatchPlan
  | .freePreempted plan | .abortRejected plan | .ends _ (.abortRejected plan) | .handOff plan =>
      some plan
  | .ingressGet => some {}
  | _ => none

def SchedulerAt.Sleepy (place : SchedulerAt) : Prop :=
  ∃ plan, place.sleepsOn = some plan ∧ plan.entries = []

variable [KVAllocator α] {runner : ModelRunner ρ} {scheduler : Scheduler}
  {s t : InferenceEngine α ρ}

/-- Once the wake-up is taken, no pass is taken that has nothing to schedule. -/
def KeepsWakeUp (scheduler : Scheduler) (s : InferenceEngine α ρ) (thread : Thread) : Prop :=
  thread = .scheduler → s.scheduler = .schedulerStep → WakeUpTaken s →
    ∀ now, (callScheduler scheduler now s.core).1.entries ≠ []

theorem sleepy_step (step : SchedulerStep runner scheduler s t)
    (busy : s.scheduler = .schedulerStep →
      ∀ now, (callScheduler scheduler now s.core).1.entries ≠ [])
    (awake : ¬s.scheduler.Sleepy) : ¬t.scheduler.Sleepy := by
  rintro ⟨plan, sleeps, empty⟩
  cases step with
  | stop _ _ | await _ _ | go _ _ | take _ _ | wake _ _ | failClose _ _ | abortAll _
  | clearWaiting _ => cases sleeps
  | @apply inFlight taken now here =>
      rcases startApply_cases now inFlight.plan inFlight.seqs taken.2 s.core with lost | ⟨_, ends⟩
      · rw [lost] at sleeps
        cases sleeps
      · rw [ends] at sleeps
        cases sleeps
  | «end» here | ended here =>
      refine awake ⟨plan, ?_, empty⟩
      rw [here, ← sleeps]
      rename_i endsOf
      cases endsOf <;> rfl
  | drain here _ =>
      rw [here] at sleeps
      cases sleeps
  | @drained failing _ _ => cases failing <;> cases sleeps
  | schedulerStep now here =>
      cases sleeps
      exact busy here now empty
  | freePreempted here | abortRejected here => exact awake ⟨plan, by rw [here, ← sleeps]; rfl, empty⟩
  | put _ _ => cases sleeps
  | @block other here none => exact awake ⟨other, by rw [here]; rfl, none⟩

theorem awake_of_taken {allocator : α} {start : ρ}
    (reachable : ((threads runner scheduler allocator start).guarded
      (KeepsWakeUp scheduler)).Reachable s) (taken : WakeUpTaken s) : ¬s.scheduler.Sleepy := by
  refine reachable.invariant (P := fun s => WakeUpTaken s → ¬s.scheduler.Sleepy) ?_
    (fun s thread t _ awake step taken => ?_) taken
  · rintro _ ⟨_, rfl⟩ taken
    cases taken.put
  · obtain ⟨keeps, step⟩ := step
    cases thread with
    | scheduler =>
        by_cases before : WakeUpTaken s
        · exact sleepy_step step (fun here => keeps rfl here before) (awake before)
        · obtain ⟨put, ingress⟩ := taken
          rintro ⟨plan, sleeps, -⟩
          cases step with
          | drain here _ =>
              rw [here] at sleeps
              cases sleeps
          | wake _ _ => cases sleeps
          | _ => exact before ⟨put, ingress⟩
    | worker => cases step <;> exact awake ⟨taken.put, taken.ingress⟩
    | submitter =>
        cases step with
        | put _ =>
            have last := taken.ingress
            exact absurd last (List.append_ne_nil_of_right_ne_nil _ nofun)
        | _ => exact awake ⟨taken.put, taken.ingress⟩
    | control =>
        cases step with
        | ingressPut _ =>
            have last := taken.ingress
            exact absurd last (List.append_ne_nil_of_right_ne_nil _ nofun)
        | planPut here => exact awake ⟨by rw [here]; rfl, taken.ingress⟩
        | load here => exact awake ⟨by rw [here]; rfl, taken.ingress⟩
        | _ => cases taken.put

theorem pastPuts_steps (runner : ModelRunner ρ) (scheduler : Scheduler) (allocator : α) (start : ρ)
    (put : s.control.pastIngressPut = true) :
    ∃ t, (threads runner scheduler allocator start).Steps s t ∧ t.control.pastPuts = true ∧
      t.scheduler = s.scheduler ∧ t.core = s.core ∧ t.ingress = s.ingress := by
  cases control : s.control with
  | stop stage switching =>
      rw [control] at put
      cases stage with
      | planPut => exact ⟨_, .single ⟨.control, .planPut control⟩, rfl, rfl, rfl, rfl⟩
      | join => exact ⟨s, .refl, by rw [control]; rfl, rfl, rfl, rfl⟩
      | _ => cases put
  | load => exact ⟨s, .refl, by rw [control]; rfl, rfl, rfl, rfl⟩
  | _ =>
      rw [control] at put
      cases put

theorem lost_of_empty {allocator : α} {start : ρ} {now : Time} (here : s.scheduler = .schedulerStep)
    (taken : WakeUpTaken s) (empty : (callScheduler scheduler now s.core).1.entries = []) :
    ∃ t, (threads runner scheduler allocator start).Steps s t ∧ WakeUpLost t := by
  obtain ⟨u, puts, past, place, core, ingress⟩ :=
    pastPuts_steps runner scheduler allocator start taken.put
  rw [← core] at empty
  have pass := ((((puts.tail ⟨.scheduler, .schedulerStep now (place.trans here)⟩).tail
    ⟨.scheduler, .freePreempted rfl⟩).tail ⟨.scheduler, .abortRejected rfl⟩).trans
      (ends_steps rfl)).tail ⟨.scheduler, .block rfl empty⟩
  exact ⟨_, pass, past, ingress.trans taken.ingress, rfl⟩

/-- In every run in which no pass has nothing to schedule once the wake-up is taken, the wake-up is
not lost; and from every state with such a pass it can be. -/
theorem wake_up_kept (runner : ModelRunner ρ) (scheduler : Scheduler) (allocator : α) (start : ρ) :
    (∀ s, ((threads runner scheduler allocator start).guarded
        (KeepsWakeUp scheduler)).Reachable s → ¬WakeUpLost s) ∧
    ∀ s, ¬KeepsWakeUp scheduler s .scheduler →
      ∃ t, (threads runner scheduler allocator start).Steps s t ∧ WakeUpLost t := by
  refine ⟨fun s reachable lost => ?_, fun s fails => ?_⟩
  · have taken : WakeUpTaken s :=
      ⟨ControlAt.pastIngressPut_of_pastPuts lost.pastPuts, lost.ingress⟩
    refine awake_of_taken reachable taken ?_
    rw [lost.asleep]
    exact ⟨{}, rfl, rfl⟩
  · simp only [KeepsWakeUp, not_forall, not_not] at fails
    obtain ⟨-, here, taken, now, empty⟩ := fails
    exact lost_of_empty here taken empty

def sampleStart : EngineState ContiguousAllocator Caches where
  allocator := { capacityTokens := 16 }
  runner _ := []

def sampleEmpty : BatchPlan × EngineState ContiguousAllocator Caches :=
  callScheduler sampleScheduler 0 sampleStart

/-- The engine asleep with no requests, `stop` behind all its puts, its wake-up taken. -/
def sampleAsleep : InferenceEngine ContiguousAllocator Caches where
  core := (abortSequences sampleEmpty.1.rejected
    (freePreempted (hfRunner [] List.length) sampleEmpty.1 sampleEmpty.2)).2
  scheduler := .ingressGet
  control := .stop .join false
  planQueue := [none]
  stop := true
  accepting := false

theorem sampleEmpty_plan : sampleEmpty.1.entries = [] ∧
    (abortSequences sampleEmpty.1.rejected
      (freePreempted (hfRunner [] List.length) sampleEmpty.1 sampleEmpty.2)).1 = [] := by
  decide +kernel

/-- The scheduler thread finds `_stop` not set, `stop` runs, and the pass takes its `None`. -/
theorem wake_up_lost : sampleThreads.Reachable sampleAsleep ∧ WakeUpLost sampleAsleep := by
  obtain ⟨empty, none⟩ := sampleEmpty_plan
  have start : sampleThreads.Reachable { core := sampleStart } := .initial ⟨0, rfl⟩
  have checked := scheduler_next start (.go rfl rfl)
  have stopping := control_next (control_next checked (.callStop rfl)) (.stopClose rfl rfl)
  have puts := control_next (control_next (control_next stopping (.setStop rfl)) (.ingressPut rfl))
    (.planPut rfl)
  have drained := scheduler_next (scheduler_next puts (.drain rfl rfl)) (.drained rfl rfl)
  have planned := scheduler_next (scheduler_next drained (.schedulerStep 0 rfl)) (.freePreempted rfl)
  have ended := scheduler_next (scheduler_next planned (.abortRejected rfl))
    (.ended (congrArg (SchedulerAt.ends · _) none))
  exact ⟨scheduler_next ended (.block rfl empty), rfl, rfl, rfl⟩

theorem wake_up_kept_sample : ¬WakeUpLost { sampleAsleep with ingress := [none] } := by
  obtain ⟨empty, none⟩ := sampleEmpty_plan
  have schedulerNext {s t : InferenceEngine ContiguousAllocator Caches}
      (reachable : (sampleThreads.guarded (KeepsWakeUp sampleScheduler)).Reachable s)
      (idle : s.control = .idle)
      (step : SchedulerStep (hfRunner [] List.length) sampleScheduler s t) :
      (sampleThreads.guarded (KeepsWakeUp sampleScheduler)).Reachable t := by
    refine .next (e := Thread.scheduler) reachable (And.intro (fun _ _ taken => ?_) step)
    have put := taken.put
    rw [idle] at put
    cases put
  have controlNext {s t : InferenceEngine ContiguousAllocator Caches}
      (reachable : (sampleThreads.guarded (KeepsWakeUp sampleScheduler)).Reachable s)
      (step : ControlStep s t) : (sampleThreads.guarded (KeepsWakeUp sampleScheduler)).Reachable t :=
    .next (e := Thread.control) reachable (And.intro nofun step)
  have start : (sampleThreads.guarded (KeepsWakeUp sampleScheduler)).Reachable
      { core := sampleStart } := .initial ⟨0, rfl⟩
  have drained := schedulerNext (schedulerNext start rfl (.go rfl rfl)) rfl (.drained rfl rfl)
  have planned := schedulerNext (schedulerNext drained rfl (.schedulerStep 0 rfl)) rfl
    (.freePreempted rfl)
  have ended := schedulerNext (schedulerNext planned rfl (.abortRejected rfl)) rfl
    (.ended (congrArg (SchedulerAt.ends · _) none))
  have asleep := schedulerNext ended rfl (.block rfl empty)
  have stopping := controlNext (controlNext asleep (.callStop rfl)) (.stopClose rfl rfl)
  have puts := controlNext (controlNext (controlNext stopping (.setStop rfl)) (.ingressPut rfl))
    (.planPut rfl)
  exact (wake_up_kept _ _ _ _).1 _ puts

end LlmServing.Threads
