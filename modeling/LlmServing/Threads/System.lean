import LlmServing.Engine.Loop

/-!
# The threads of one engine

`engine.py` statement by statement where another thread can see the difference: the scheduler
thread, the GPU worker, any number of `submit` calls, and the thread that calls `stop`, directly or
from `EngineHandle.switch_model` of `server.py`.
-/

namespace LlmServing.Threads

open Scheduling Runner Engine

/-- What `_plan_queue` carries. `serial` tells one put from another. -/
structure Handed where
  serial : Nat
  plan : BatchPlan
  seqs : List Sequence
  deriving DecidableEq

/-- What a loop of `_end` is the last part of: `_apply`, `_abort(plan.rejected)`, or the `_abort` of
the failure handler. -/
inductive EndsOf where
  | apply
  | abortRejected (plan : BatchPlan)
  | abortAll

/-- The next statement of the scheduler thread, with its local variables. -/
inductive SchedulerAt where
  | loopTop (inFlight : Option Handed)
  | resultsGet (inFlight : Handed)
  /-- `taken` is the outcome it got, with the plan it is the outcome of. -/
  | apply (inFlight : Handed) (taken : Handed × Outcome)
  | ends (seqs : List Sequence) (endsOf : EndsOf)
  | drainIngress (failing : Bool)
  | schedulerStep
  | freePreempted (plan : BatchPlan)
  | abortRejected (plan : BatchPlan)
  | handOff (plan : BatchPlan)
  | ingressGet
  | failClose
  | abortAll
  | clearWaiting
  | stopped (inFlight : Option Handed)
  | failed

def EndsOf.next : EndsOf → SchedulerAt
  | .apply => .drainIngress false
  | .abortRejected plan => .handOff plan
  | .abortAll => .clearWaiting

inductive WorkerAt where
  | planGet
  | forward (item : Handed)
  | resultsPut (item : Handed) (outcome : Outcome)
  | exited

/-- A `submit` call that holds `_ingress_lock`: before its check of `_accepting`, past it, with its
output channel, with its request counted, with its request put. -/
inductive SubmitAt where
  | checking
  | accepted
  | opened (req : IngressRequest)
  | counted (req : IngressRequest)
  | queued (seqId : SeqId)

inductive StopAt where
  | closeIngress | setStop | ingressPut | planPut | join

/-- The thread that ends the engine. `switching` says that `switch_model` called `stop`. -/
inductive ControlAt where
  | idle
  | closeIngress
  | readEnded
  | readSubmitted (ended : Nat)
  | stop (stage : StopAt) (switching : Bool)
  | load

/-- An `InferenceEngine` and where its threads are. `core` is the scheduler thread's own data; its
`inFlight` and `phase` are not used, `scheduler` says what they are. `channels` are the ids that
output channels were opened for, `returned` those of the submissions returned. -/
structure InferenceEngine (α ρ : Type) where
  core : EngineState α ρ
  scheduler : SchedulerAt := .loopTop none
  worker : WorkerAt := .planGet
  submitting : Option SubmitAt := none
  control : ControlAt := .idle
  ingress : List (Option IngressRequest) := []
  planQueue : List (Option Handed) := []
  resultsQueue : List (Handed × Outcome) := []
  stop : Bool := false
  accepting : Bool := true
  submitted : Nat := 0
  nextSeqId : SeqId := 0
  handed : Nat := 0
  channels : List SeqId := []
  returned : List SeqId := []

variable {α ρ : Type} [KVAllocator α] (runner : ModelRunner ρ) (scheduler : Scheduler)

def admitIngress (core : EngineState α ρ) : Option IngressRequest → EngineState α ρ
  | none => core
  | some req => { core with waiting := core.waiting ++ [sequenceFromIngress req] }

def startApply (now : Time) (plan : BatchPlan) (seqs : List Sequence) (outcome : Outcome)
    (core : EngineState α ρ) : SchedulerAt × EngineState α ρ :=
  match outcome with
  | .deviceLost => (.failClose, core)
  | .failed =>
      let (released, core) := abortSequences ((batch plan seqs).map (·.2)) core
      (.ends released .apply, core)
  | .results results =>
      match handleIterationResults now results core.running core.allocator core.callbacks with
      | none => (.failClose, core)
      | some (folded, callbacks) =>
          (.ends folded.finished .apply,
            { core with running := folded.running, allocator := folded.allocator, callbacks })

/-- `_schedule_until_stopped`, and the handler of `_scheduler_loop` from `failClose` on. -/
inductive SchedulerStep : InferenceEngine α ρ → InferenceEngine α ρ → Prop where
  | stop {s : InferenceEngine α ρ} {inFlight : Option Handed} :
      s.scheduler = .loopTop inFlight → s.stop = true →
      SchedulerStep s { s with scheduler := .stopped inFlight }
  | await {s : InferenceEngine α ρ} {inFlight : Handed} :
      s.scheduler = .loopTop (some inFlight) → s.stop = false →
      SchedulerStep s { s with scheduler := .resultsGet inFlight }
  | go {s : InferenceEngine α ρ} :
      s.scheduler = .loopTop none → s.stop = false →
      SchedulerStep s { s with scheduler := .drainIngress false }
  | take {s : InferenceEngine α ρ} {inFlight : Handed} {taken : Handed × Outcome}
      {rest : List (Handed × Outcome)} :
      s.scheduler = .resultsGet inFlight → s.resultsQueue = taken :: rest →
      SchedulerStep s { s with scheduler := .apply inFlight taken, resultsQueue := rest }
  | apply {s : InferenceEngine α ρ} {inFlight : Handed} {taken : Handed × Outcome} (now : Time) :
      s.scheduler = .apply inFlight taken →
      SchedulerStep s { s with
        scheduler := (startApply now inFlight.plan inFlight.seqs taken.2 s.core).1
        core := (startApply now inFlight.plan inFlight.seqs taken.2 s.core).2 }
  | «end» {s : InferenceEngine α ρ} {seq : Sequence} {rest : List Sequence} {endsOf : EndsOf} :
      s.scheduler = .ends (seq :: rest) endsOf →
      SchedulerStep s { s with
        scheduler := .ends rest endsOf
        core := endSequence runner s.core seq }
  | ended {s : InferenceEngine α ρ} {endsOf : EndsOf} :
      s.scheduler = .ends [] endsOf →
      SchedulerStep s { s with scheduler := endsOf.next }
  | drain {s : InferenceEngine α ρ} {failing : Bool} {item : Option IngressRequest}
      {rest : List (Option IngressRequest)} :
      s.scheduler = .drainIngress failing → s.ingress = item :: rest →
      SchedulerStep s { s with core := admitIngress s.core item, ingress := rest }
  | drained {s : InferenceEngine α ρ} {failing : Bool} :
      s.scheduler = .drainIngress failing → s.ingress = [] →
      SchedulerStep s { s with scheduler := if failing then .abortAll else .schedulerStep }
  | schedulerStep {s : InferenceEngine α ρ} (now : Time) :
      s.scheduler = .schedulerStep →
      SchedulerStep s { s with
        scheduler := .freePreempted (callScheduler scheduler now s.core).1
        core := (callScheduler scheduler now s.core).2 }
  | freePreempted {s : InferenceEngine α ρ} {plan : BatchPlan} :
      s.scheduler = .freePreempted plan →
      SchedulerStep s { s with
        scheduler := .abortRejected plan
        core := freePreempted runner plan s.core }
  | abortRejected {s : InferenceEngine α ρ} {plan : BatchPlan} :
      s.scheduler = .abortRejected plan →
      SchedulerStep s { s with
        scheduler := .ends (abortSequences plan.rejected s.core).1 (.abortRejected plan)
        core := (abortSequences plan.rejected s.core).2 }
  | put {s : InferenceEngine α ρ} {plan : BatchPlan} :
      s.scheduler = .handOff plan → plan.entries ≠ [] →
      SchedulerStep s { s with
        scheduler := .loopTop (some ⟨s.handed, plan, s.core.running⟩)
        planQueue := s.planQueue ++ [some ⟨s.handed, plan, s.core.running⟩]
        handed := s.handed + 1 }
  | block {s : InferenceEngine α ρ} {plan : BatchPlan} :
      s.scheduler = .handOff plan → plan.entries = [] →
      SchedulerStep s { s with scheduler := .ingressGet }
  | wake {s : InferenceEngine α ρ} {item : Option IngressRequest}
      {rest : List (Option IngressRequest)} :
      s.scheduler = .ingressGet → s.ingress = item :: rest →
      SchedulerStep s { s with
        scheduler := .loopTop none
        core := admitIngress s.core item
        ingress := rest }
  | failClose {s : InferenceEngine α ρ} :
      s.scheduler = .failClose → s.submitting = none →
      SchedulerStep s { s with scheduler := .drainIngress true, accepting := false }
  | abortAll {s : InferenceEngine α ρ} :
      s.scheduler = .abortAll →
      SchedulerStep s { s with
        scheduler := .ends (abortSequences (s.core.running ++ s.core.waiting) s.core).1 .abortAll
        core := (abortSequences (s.core.running ++ s.core.waiting) s.core).2 }
  | clearWaiting {s : InferenceEngine α ρ} :
      s.scheduler = .clearWaiting →
      SchedulerStep s { s with scheduler := .failed, core := { s.core with waiting := [] } }

inductive WorkerStep : InferenceEngine α ρ → InferenceEngine α ρ → Prop where
  | get {s : InferenceEngine α ρ} {item : Handed} {rest : List (Option Handed)} :
      s.worker = .planGet → s.planQueue = some item :: rest →
      WorkerStep s { s with worker := .forward item, planQueue := rest }
  | exit {s : InferenceEngine α ρ} {rest : List (Option Handed)} :
      s.worker = .planGet → s.planQueue = none :: rest →
      WorkerStep s { s with worker := .exited, planQueue := rest }
  | forward {s : InferenceEngine α ρ} {item : Handed} {outcome : Outcome} {after : ρ} :
      s.worker = .forward item →
      runner.forward item.plan item.seqs s.core.runner outcome after →
      WorkerStep s { s with
        worker := .resultsPut item outcome
        core := { s.core with runner := after } }
  | put {s : InferenceEngine α ρ} {item : Handed} {outcome : Outcome} :
      s.worker = .resultsPut item outcome →
      WorkerStep s { s with
        worker := .planGet
        resultsQueue := s.resultsQueue ++ [(item, outcome)] }

/-- One `submit` call under `_ingress_lock`. Other engines draw from the same counter of ids. -/
inductive SubmitStep : InferenceEngine α ρ → InferenceEngine α ρ → Prop where
  | acquire {s : InferenceEngine α ρ} :
      s.submitting = none → SubmitStep s { s with submitting := some .checking }
  | refuse {s : InferenceEngine α ρ} :
      s.submitting = some .checking → s.accepting = false →
      SubmitStep s { s with submitting := none }
  | accept {s : InferenceEngine α ρ} :
      s.submitting = some .checking → s.accepting = true →
      SubmitStep s { s with submitting := some .accepted }
  | newOutputChannel {s : InferenceEngine α ρ} (req : IngressRequest) :
      s.submitting = some .accepted → s.nextSeqId ≤ req.seqId →
      SubmitStep s { s with
        submitting := some (.opened req)
        nextSeqId := req.seqId + 1
        channels := s.channels ++ [req.seqId] }
  | count {s : InferenceEngine α ρ} {req : IngressRequest} :
      s.submitting = some (.opened req) →
      SubmitStep s { s with
        submitting := some (.counted req)
        submitted := s.submitted + 1 }
  | put {s : InferenceEngine α ρ} {req : IngressRequest} :
      s.submitting = some (.counted req) →
      SubmitStep s { s with
        submitting := some (.queued req.seqId)
        ingress := s.ingress ++ [some req] }
  | «return» {s : InferenceEngine α ρ} {seqId : SeqId} :
      s.submitting = some (.queued seqId) →
      SubmitStep s { s with
        submitting := none
        returned := s.returned ++ [seqId] }

/-- `stop`, and `switch_model` from its `close_ingress` to its `_load`. `is_idle` reads `_ended`,
then `_submitted`; the waits for the threads to end time out. -/
inductive ControlStep : InferenceEngine α ρ → InferenceEngine α ρ → Prop where
  | callStop {s : InferenceEngine α ρ} :
      s.control = .idle → ControlStep s { s with control := .stop .closeIngress false }
  | switchModel {s : InferenceEngine α ρ} :
      s.control = .idle → ControlStep s { s with control := .closeIngress }
  | closeIngress {s : InferenceEngine α ρ} :
      s.control = .closeIngress → s.submitting = none →
      ControlStep s { s with control := .readEnded, accepting := false }
  | readEnded {s : InferenceEngine α ρ} :
      s.control = .readEnded →
      ControlStep s { s with control := .readSubmitted s.core.ended.length }
  | sleep {s : InferenceEngine α ρ} {ended : Nat} :
      s.control = .readSubmitted ended → ended ≠ s.submitted →
      ControlStep s { s with control := .readEnded }
  | idle {s : InferenceEngine α ρ} {ended : Nat} :
      s.control = .readSubmitted ended → ended = s.submitted →
      ControlStep s { s with control := .stop .closeIngress true }
  | stopClose {s : InferenceEngine α ρ} {switching : Bool} :
      s.control = .stop .closeIngress switching → s.submitting = none →
      ControlStep s { s with control := .stop .setStop switching, accepting := false }
  | setStop {s : InferenceEngine α ρ} {switching : Bool} :
      s.control = .stop .setStop switching →
      ControlStep s { s with control := .stop .ingressPut switching, stop := true }
  | ingressPut {s : InferenceEngine α ρ} {switching : Bool} :
      s.control = .stop .ingressPut switching →
      ControlStep s { s with
        control := .stop .planPut switching
        ingress := s.ingress ++ [none] }
  | planPut {s : InferenceEngine α ρ} {switching : Bool} :
      s.control = .stop .planPut switching →
      ControlStep s { s with
        control := .stop .join switching
        planQueue := s.planQueue ++ [none] }
  | load {s : InferenceEngine α ρ} :
      s.control = .stop .join true → ControlStep s { s with control := .load }

inductive Thread where
  | scheduler | worker | submitter | control
  deriving DecidableEq

def Step (s : InferenceEngine α ρ) (thread : Thread) (t : InferenceEngine α ρ) : Prop :=
  match thread with
  | .scheduler => SchedulerStep runner scheduler s t
  | .worker => WorkerStep runner s t
  | .submitter => SubmitStep s t
  | .control => ControlStep s t

def threads (allocator : α) (start : ρ) : Lib.Machine (InferenceEngine α ρ) Thread where
  initial s := ∃ nextSeqId, s = { core := { allocator, runner := start }, nextSeqId }
  step := Step runner scheduler

section

variable {runner : ModelRunner ρ} {scheduler : Scheduler} {allocator : α} {start : ρ}
  {s t : InferenceEngine α ρ}

theorem scheduler_next (reachable : (threads runner scheduler allocator start).Reachable s)
    (step : SchedulerStep runner scheduler s t) :
    (threads runner scheduler allocator start).Reachable t :=
  .next (e := Thread.scheduler) reachable step

theorem worker_next (reachable : (threads runner scheduler allocator start).Reachable s)
    (step : WorkerStep runner s t) : (threads runner scheduler allocator start).Reachable t :=
  .next (e := Thread.worker) reachable step

theorem submitter_next (reachable : (threads runner scheduler allocator start).Reachable s)
    (step : SubmitStep s t) : (threads runner scheduler allocator start).Reachable t :=
  .next (e := Thread.submitter) reachable step

theorem control_next (reachable : (threads runner scheduler allocator start).Reachable s)
    (step : ControlStep s t) : (threads runner scheduler allocator start).Reachable t :=
  .next (e := Thread.control) reachable step

theorem ends_steps {seqs : List Sequence} {endsOf : EndsOf} (here : s.scheduler = .ends seqs endsOf) :
    (threads runner scheduler allocator start).Steps s
      { s with scheduler := endsOf.next, core := endSequences runner seqs s.core } := by
  induction seqs generalizing s with
  | nil => exact .single ⟨.scheduler, .ended here⟩
  | cons seq rest ih => exact .head ⟨.scheduler, .end here⟩ (ih rfl)

end

end LlmServing.Threads
