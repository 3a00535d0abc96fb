import LlmServing.Runner.Hf
import LlmServing.Threads.System
import Mathlib.Data.List.ReduceOption

/-!
# One plan at a time

The two queues hold at most one plan between them, it is the one the scheduler thread waits for, and
while it is out the scheduler thread leaves its data alone.
-/

namespace LlmServing.Threads

open Scheduling Runner Engine

variable {α ρ : Type}

def WorkerAt.holding : WorkerAt → List Handed
  | .planGet | .exited => []
  | .forward item | .resultsPut item _ => [item]

/-- The plans between the scheduler thread's put and its get of their outcome. -/
def outstanding (s : InferenceEngine α ρ) : List Handed :=
  s.planQueue.reduceOption ++ s.worker.holding ++ s.resultsQueue.map (·.1)

def SchedulerAt.awaited : SchedulerAt → List Handed
  | .loopTop inFlight | .stopped inFlight => inFlight.toList
  | .resultsGet inFlight => [inFlight]
  | .apply .. | .ends .. | .drainIngress _ | .schedulerStep | .freePreempted _ | .abortRejected _
  | .handOff _ | .ingressGet | .failClose | .abortAll | .clearWaiting | .failed => []

variable [KVAllocator α] {runner : ModelRunner ρ} {scheduler : Scheduler}

def Computed (runner : ModelRunner ρ) (item : Handed) (outcome : Outcome) : Prop :=
  ∃ before after, runner.forward item.plan item.seqs before outcome after

structure HandOffOk (runner : ModelRunner ρ) (s : InferenceEngine α ρ) : Prop where
  awaited : outstanding s = s.scheduler.awaited
  latest : ∀ item ∈ outstanding s, item.serial + 1 = s.handed
  computing : ∀ item outcome, s.worker = .resultsPut item outcome → Computed runner item outcome
  computed : ∀ taken ∈ s.resultsQueue, Computed runner taken.1 taken.2
  paired : ∀ inFlight taken, s.scheduler = .apply inFlight taken →
    taken.1 = inFlight ∧ inFlight.serial + 1 = s.handed ∧ Computed runner taken.1 taken.2

theorem length_awaited (place : SchedulerAt) : place.awaited.length ≤ 1 := by
  cases place with
  | loopTop inFlight | stopped inFlight => cases inFlight <;> simp [SchedulerAt.awaited]
  | _ => simp [SchedulerAt.awaited]

omit [KVAllocator α] in
theorem HandOffOk.holding {s : InferenceEngine α ρ} (ok : HandOffOk runner s) (item : Handed)
    (holding : s.worker.holding = [item]) :
    s.resultsQueue = [] ∧ s.scheduler.awaited = [item] := by
  have short := length_awaited s.scheduler
  rw [← ok.awaited] at short ⊢
  simp only [outstanding, holding, List.length_append, List.length_map, List.length_singleton]
    at short ⊢
  have before : s.planQueue.reduceOption = [] := List.eq_nil_of_length_eq_zero (by omega)
  have after : s.resultsQueue = [] := List.eq_nil_of_length_eq_zero (by omega)
  rw [before, after]
  exact ⟨rfl, rfl⟩

@[simp] theorem awaited_next (endsOf : EndsOf) : endsOf.next.awaited = [] := by cases endsOf <;> rfl

theorem next_ne_apply {endsOf : EndsOf} {inFlight : Handed} {taken : Handed × Outcome} :
    endsOf.next ≠ .apply inFlight taken := by cases endsOf <;> nofun

theorem startApply_cases (now : Time) (plan : BatchPlan) (seqs : List Sequence) (outcome : Outcome)
    (core : EngineState α ρ) :
    (startApply now plan seqs outcome core).1 = .failClose ∨
      ∃ rest, (startApply now plan seqs outcome core).1 = .ends rest .apply := by
  cases outcome with
  | deviceLost => exact .inl rfl
  | failed => exact .inr ⟨_, rfl⟩
  | results results =>
      simp only [startApply]
      split
      · exact .inl rfl
      · exact .inr ⟨_, rfl⟩

omit [KVAllocator α] in
theorem HandOffOk.move {s : InferenceEngine α ρ} (ok : HandOffOk runner s) {place : SchedulerAt}
    {core : EngineState α ρ} {ingress : List (Option IngressRequest)} {accepting : Bool}
    (before : s.scheduler.awaited = []) (after : place.awaited = [])
    (elsewhere : ∀ inFlight taken, place ≠ .apply inFlight taken) :
    HandOffOk runner { s with scheduler := place, core, ingress, accepting } where
  awaited := ok.awaited.trans (before.trans after.symm)
  latest := ok.latest
  computing := ok.computing
  computed := ok.computed
  paired inFlight taken here := absurd here (elsewhere inFlight taken)

omit [KVAllocator α] in
theorem HandOffOk.take {s : InferenceEngine α ρ} (ok : HandOffOk runner s) {inFlight : Handed}
    {taken : Handed × Outcome} {rest : List (Handed × Outcome)}
    (here : s.scheduler = .resultsGet inFlight) (queue : s.resultsQueue = taken :: rest) :
    HandOffOk runner { s with scheduler := .apply inFlight taken, resultsQueue := rest } := by
  have awaited := ok.awaited
  have computed := ok.computed
  have latest := ok.latest taken.1 (by simp [outstanding, queue])
  rw [here] at awaited
  simp only [outstanding, queue, List.map_cons, SchedulerAt.awaited] at awaited
  obtain ⟨before, after⟩ | ⟨-, after⟩ := List.append_eq_singleton_iff.mp awaited
  · rw [List.cons.injEq] at after
    have none : outstanding
        { s with scheduler := .apply inFlight taken, resultsQueue := rest } = [] := by
      simp only [outstanding, before, after.2, List.append_nil]
    refine ⟨none, fun item member => ?_, ok.computing, fun other member => ?_, ?_⟩
    · rw [none] at member
      cases member
    · exact computed other (by simp [queue, member])
    · rintro _ _ ⟨⟩
      exact ⟨after.1, after.1 ▸ latest, computed taken (by simp [queue])⟩
  · cases after

omit [KVAllocator α] in
theorem HandOffOk.put {s : InferenceEngine α ρ} (ok : HandOffOk runner s) {plan : BatchPlan}
    (here : s.scheduler = .handOff plan) (item : Handed) (serial : item.serial = s.handed) :
    HandOffOk runner { s with
      scheduler := .loopTop (some item)
      planQueue := s.planQueue ++ [some item]
      handed := s.handed + 1 } := by
  have awaited := ok.awaited
  rw [here] at awaited
  simp only [outstanding, SchedulerAt.awaited, List.append_eq_nil_iff] at awaited
  have one : outstanding { s with
      scheduler := .loopTop (some item)
      planQueue := s.planQueue ++ [some item]
      handed := s.handed + 1 } = [item] := by
    simp [outstanding, awaited, List.reduceOption_append]
  refine ⟨one, fun other member => ?_, ok.computing, ok.computed, nofun⟩
  rw [one, List.mem_singleton] at member
  rw [member, serial]

theorem HandOffOk.schedulerStep {s t : InferenceEngine α ρ} (ok : HandOffOk runner s)
    (step : SchedulerStep runner scheduler s t) : HandOffOk runner t := by
  have awaited := ok.awaited
  cases step with
  | stop here _ | await here _ | go here _ =>
      rw [here] at awaited
      exact ⟨awaited, ok.latest, ok.computing, ok.computed, nofun⟩
  | take here queue => exact ok.take here queue
  | @apply inFlight taken now here =>
      refine ok.move (by rw [here]; rfl) ?_ fun _ _ same => ?_
      · rcases startApply_cases now inFlight.plan inFlight.seqs taken.2 s.core with lost | ⟨_, ends⟩
        · rw [lost]; rfl
        · rw [ends]; rfl
      · rcases startApply_cases now inFlight.plan inFlight.seqs taken.2 s.core with lost | ⟨_, ends⟩
        · cases lost.symm.trans same
        · cases ends.symm.trans same
  | «end» here => exact ok.move (by rw [here]; rfl) rfl nofun
  | ended here => exact ok.move (by rw [here]; rfl) (awaited_next _) fun _ _ => next_ne_apply
  | drain here _ => exact ok.move (by rw [here]; rfl) (by rw [here]; rfl) (by rw [here]; nofun)
  | @drained failing here _ =>
      exact ok.move (by rw [here]; rfl) (by cases failing <;> rfl) (by cases failing <;> nofun)
  | schedulerStep _ here => exact ok.move (by rw [here]; rfl) rfl nofun
  | freePreempted here => exact ok.move (by rw [here]; rfl) rfl nofun
  | abortRejected here => exact ok.move (by rw [here]; rfl) rfl nofun
  | put here _ => exact ok.put here _ rfl
  | block here _ => exact ok.move (by rw [here]; rfl) rfl nofun
  | wake here _ => exact ok.move (by rw [here]; rfl) rfl nofun
  | failClose here _ => exact ok.move (by rw [here]; rfl) rfl nofun
  | abortAll here => exact ok.move (by rw [here]; rfl) rfl nofun
  | clearWaiting here => exact ok.move (by rw [here]; rfl) rfl nofun

omit [KVAllocator α] in
theorem HandOffOk.workerStep {s t : InferenceEngine α ρ} (ok : HandOffOk runner s)
    (step : WorkerStep runner s t) : HandOffOk runner t := by
  have same : outstanding t = outstanding s → t.scheduler = s.scheduler → t.handed = s.handed →
      outstanding t = t.scheduler.awaited ∧ ∀ item ∈ outstanding t, item.serial + 1 = t.handed := by
    intro queues place serial
    rw [queues, place, serial]
    exact ⟨ok.awaited, ok.latest⟩
  cases step with
  | @get item rest here queue =>
      have queues : outstanding { s with worker := .forward item, planQueue := rest } =
          outstanding s := by
        have length : (outstanding s).length ≤ 1 := by
          rw [ok.awaited]
          exact length_awaited _
        have none : rest.reduceOption = [] := by
          simp only [outstanding, queue, List.reduceOption_cons_of_some, List.length_append,
            List.length_cons] at length
          exact List.eq_nil_of_length_eq_zero (by omega)
        simp [outstanding, queue, here, none, WorkerAt.holding]
      obtain ⟨awaited, latest⟩ := same queues rfl rfl
      exact ⟨awaited, latest, nofun, ok.computed, ok.paired⟩
  | @exit rest here queue =>
      obtain ⟨awaited, latest⟩ := same (by simp [outstanding, queue, here, WorkerAt.holding]) rfl rfl
      exact ⟨awaited, latest, nofun, ok.computed, ok.paired⟩
  | @forward item outcome after here computed =>
      obtain ⟨awaited, latest⟩ := same (by simp [outstanding, here, WorkerAt.holding]) rfl rfl
      refine ⟨awaited, latest, ?_, ok.computed, ok.paired⟩
      rintro _ _ ⟨⟩
      exact ⟨_, _, computed⟩
  | @put item outcome here =>
      have queues : outstanding { s with
          worker := .planGet
          resultsQueue := s.resultsQueue ++ [(item, outcome)] } = outstanding s := by
        have holding : s.worker.holding = [item] := by rw [here]; rfl
        simp [outstanding, here, (ok.holding item holding).1, WorkerAt.holding]
      obtain ⟨awaited, latest⟩ := same queues rfl rfl
      refine ⟨awaited, latest, nofun, fun taken member => ?_, ok.paired⟩
      rcases List.mem_append.mp member with member | member
      · exact ok.computed taken member
      · rw [List.mem_singleton.mp member]
        exact ok.computing item outcome here

omit [KVAllocator α] in
theorem HandOffOk.submitStep {s t : InferenceEngine α ρ} (ok : HandOffOk runner s)
    (step : SubmitStep s t) : HandOffOk runner t := by
  cases step <;> exact ⟨ok.awaited, ok.latest, ok.computing, ok.computed, ok.paired⟩

omit [KVAllocator α] in
theorem HandOffOk.controlStep {s t : InferenceEngine α ρ} (ok : HandOffOk runner s)
    (step : ControlStep s t) : HandOffOk runner t := by
  cases step with
  | planPut here =>
      have queues : outstanding { s with planQueue := s.planQueue ++ [none] } = outstanding s := by
        simp [outstanding, List.reduceOption_append]
      refine ⟨?_, ?_, ok.computing, ok.computed, ok.paired⟩
      · exact queues.trans ok.awaited
      · exact queues.symm ▸ ok.latest
  | _ => exact ⟨ok.awaited, ok.latest, ok.computing, ok.computed, ok.paired⟩

theorem handOffOk {allocator : α} {start : ρ} {s : InferenceEngine α ρ}
    (reachable : (threads runner scheduler allocator start).Reachable s) : HandOffOk runner s := by
  refine reachable.invariant (P := HandOffOk runner) ?_ fun _ thread _ _ ok step => ?_
  · rintro _ ⟨_, rfl⟩
    exact ⟨rfl, nofun, nofun, nofun, nofun⟩
  · cases thread with
    | scheduler => exact ok.schedulerStep step
    | worker => exact ok.workerStep step
    | submitter => exact ok.submitStep step
    | control => exact ok.controlStep step

theorem core_of_awaited {s t : InferenceEngine α ρ} (awaited : s.scheduler.awaited ≠ [])
    (step : SchedulerStep runner scheduler s t) : t.core = s.core := by
  cases step with
  | stop _ _ | await _ _ | go _ _ | take _ _ | ended _ | drained _ _ | put _ _ | block _ _
  | failClose _ _ => rfl
  | apply _ here | «end» here | drain here _ | schedulerStep _ here | freePreempted here
  | abortRejected here | wake here _ | abortAll here | clearWaiting here =>
      rw [here] at awaited
      exact absurd rfl awaited

/-- At most one plan is queued, inside `forward` or computed and not yet taken; an outcome is applied
to the plan it was computed for, the latest one put; and while a plan is queued or inside `forward`
no step of the scheduler thread changes its data. -/
theorem hand_off_exclusive (runner : ModelRunner ρ) (scheduler : Scheduler) (allocator : α)
    (start : ρ) {s : InferenceEngine α ρ}
    (reachable : (threads runner scheduler allocator start).Reachable s) :
    (outstanding s).length ≤ 1 ∧
    (∀ inFlight taken, s.scheduler = .apply inFlight taken →
      taken.1 = inFlight ∧ inFlight.serial + 1 = s.handed ∧ Computed runner inFlight taken.2) ∧
    ((∃ item, some item ∈ s.planQueue ∨ s.worker = .forward item) →
      ∀ t, SchedulerStep runner scheduler s t → t.core = s.core) := by
  have ok := handOffOk reachable
  refine ⟨?_, fun inFlight taken here => ?_, ?_⟩
  · rw [ok.awaited]
    exact length_awaited _
  · obtain ⟨same, latest, computed⟩ := ok.paired inFlight taken here
    exact ⟨same, latest, same ▸ computed⟩
  · rintro ⟨item, out⟩ t step
    refine core_of_awaited (fun none => ?_) step
    have member : item ∈ outstanding s := by
      simp only [outstanding, List.mem_append, List.reduceOption_mem_iff]
      rcases out with queued | computing
      · exact .inl (.inl queued)
      · exact .inl (.inr (by simp [computing, WorkerAt.holding]))
    rw [ok.awaited, none] at member
    cases member

abbrev sampleThreads : Lib.Machine (InferenceEngine ContiguousAllocator Caches) Thread :=
  threads (hfRunner [] List.length) sampleScheduler { capacityTokens := 16 } fun _ => []

def sampleReq : IngressRequest := sampleRequest 0 5 [6, 7] 0

def sampleSubmitted : InferenceEngine ContiguousAllocator Caches where
  core := { allocator := { capacityTokens := 16 }, runner := fun _ => [] }
  ingress := [some sampleReq]
  submitted := 1
  nextSeqId := 1
  channels := [0]
  returned := [0]

theorem sampleSubmitted_reachable : sampleThreads.Reachable sampleSubmitted := by
  have start : sampleThreads.Reachable
      { core := { allocator := { capacityTokens := 16 }, runner := fun _ => [] } } :=
    .initial ⟨0, rfl⟩
  have accepted := submitter_next (submitter_next start (.acquire rfl)) (.accept rfl rfl)
  have opened := submitter_next accepted (.newOutputChannel sampleReq rfl (Nat.zero_le _))
  have queued := submitter_next (submitter_next opened (.count rfl)) (.put rfl)
  exact submitter_next queued (.return rfl)

def samplePlanned : BatchPlan × EngineState ContiguousAllocator Caches :=
  callScheduler sampleScheduler 0 (admitIngress sampleSubmitted.core (some sampleReq))

def sampleCore : EngineState ContiguousAllocator Caches :=
  (abortSequences samplePlanned.1.rejected
    (freePreempted (hfRunner [] List.length) samplePlanned.1 samplePlanned.2)).2

def sampleComputing : InferenceEngine ContiguousAllocator Caches :=
  { sampleSubmitted with
    core := sampleCore
    scheduler := .loopTop (some ⟨0, samplePlanned.1, sampleCore.running⟩)
    worker := .forward ⟨0, samplePlanned.1, sampleCore.running⟩
    ingress := []
    handed := 1 }

theorem sampleComputing_reachable : sampleThreads.Reachable sampleComputing := by
  have drained := scheduler_next (scheduler_next (scheduler_next sampleSubmitted_reachable
    (.go rfl rfl)) (.drain rfl rfl)) (.drained rfl rfl)
  have planned := scheduler_next drained (.schedulerStep 0 rfl)
  have freed := scheduler_next (scheduler_next planned (.freePreempted rfl)) (.abortRejected rfl)
  have none : (abortSequences samplePlanned.1.rejected
      (freePreempted (hfRunner [] List.length) samplePlanned.1 samplePlanned.2)).1 = [] := by
    decide +kernel
  have ended := scheduler_next freed (.ended (congrArg (SchedulerAt.ends · _) none))
  have put := scheduler_next ended (.put rfl (show samplePlanned.1.entries ≠ [] by decide +kernel))
  exact worker_next put (.get rfl rfl)

theorem hand_off_exclusive_sample :
    (outstanding sampleComputing).length ≤ 1 ∧
      ∀ t, SchedulerStep (hfRunner [] List.length) sampleScheduler sampleComputing t →
        t.core = sampleComputing.core := by
  obtain ⟨one, -, exclusive⟩ := hand_off_exclusive _ _ _ _ sampleComputing_reachable
  exact ⟨one, exclusive ⟨_, .inr rfl⟩⟩

end LlmServing.Threads
