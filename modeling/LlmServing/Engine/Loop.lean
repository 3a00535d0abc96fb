import LlmServing.Lib.Machine
import LlmServing.Runner.ModelRunner
import LlmServing.Scheduling.Scheduler

/-!
# The scheduler thread's loop

`engine.py` between two hand-offs: what one pass of `_schedule_until_stopped` does to the scheduler
thread's own data, with the GPU worker's forward pass as a step of its own. The queues, the flags and
the other threads are in `Threads/System.lean`, which refines this machine.
-/

namespace LlmServing.Engine

open Scheduling Runner

structure IngressRequest where
  seqId : SeqId
  promptTokens : List Token
  samplingParams : SamplingParams
  arrivalTime : Time
  promptTokens_ne_nil : promptTokens ≠ []

def sequenceFromIngress (req : IngressRequest) : Sequence where
  seqId := req.seqId
  promptTokens := req.promptTokens
  samplingParams := req.samplingParams
  metrics := { enqueueTime := req.arrivalTime }
  promptTokens_ne_nil := req.promptTokens_ne_nil

/-- `in_flight`, with the outcome of its forward pass once there is one. -/
structure InFlight where
  plan : BatchPlan
  seqs : List Sequence
  outcome : Option Outcome := none
  deriving DecidableEq

/-- `failing` is the time between the exception that ends the loop and the end of its handler. -/
inductive Phase where
  | serving | failing | failed
  deriving DecidableEq

/-- `callbacks` are those handed to the event loop. `ended` are the sequences `_end` was called on,
oldest first: the counter `_ended` is its length. -/
structure EngineState (α ρ : Type) where
  running : List Sequence := []
  waiting : List Sequence := []
  allocator : α
  runner : ρ
  inFlight : Option InFlight := none
  phase : Phase := .serving
  callbacks : List Callback := []
  ended : List Sequence := []

section

variable {α ρ : Type} [KVAllocator α] (runner : ModelRunner ρ) (scheduler : Scheduler)

/-- `_end`. Prometheus counters aside, it frees the model's per-sequence state and counts. -/
def endSequence (s : EngineState α ρ) (seq : Sequence) : EngineState α ρ :=
  { s with
    runner := runner.free seq.seqId s.runner
    ended := s.ended ++ [seq] }

def endSequences (seqs : List Sequence) (s : EngineState α ρ) : EngineState α ρ :=
  seqs.foldl (endSequence runner) s

def abortSequences (seqs : List Sequence) (s : EngineState α ρ) :
    List Sequence × EngineState α ρ :=
  let (folded, callbacks) := abort seqs s.running s.allocator s.callbacks
  (folded.finished,
    { s with running := folded.running, allocator := folded.allocator, callbacks })

def abortAndEnd (seqs : List Sequence) (s : EngineState α ρ) : EngineState α ρ :=
  let (released, s) := abortSequences seqs s
  endSequences runner released s

def callScheduler (now : Time) (s : EngineState α ρ) : BatchPlan × EngineState α ρ :=
  let planned := schedulerStep scheduler now s.running s.waiting s.allocator
  (planned.plan, { s with
    running := planned.running
    waiting := planned.waiting
    allocator := planned.allocator })

def freePreempted (plan : BatchPlan) (s : EngineState α ρ) : EngineState α ρ :=
  { s with runner := runner.freeAll plan.preempted s.runner }

def handOff (plan : BatchPlan) (s : EngineState α ρ) : EngineState α ρ :=
  if plan.entries.isEmpty then s
  else { s with inFlight := some { plan, seqs := s.running } }

/-- From `scheduler_step` to the hand-off. `_abort` of no sequence does nothing, so the test of
`plan.rejected` is left out. -/
def schedule (now : Time) (s : EngineState α ρ) : EngineState α ρ :=
  let (plan, s) := callScheduler scheduler now s
  handOff plan (abortAndEnd runner plan.rejected (freePreempted runner plan s))

/-- `_apply`. A `KeyError` of `handle_iteration_results` would end the loop as `DeviceLost` does. -/
def applyOutcome (now : Time) (flight : InFlight) (outcome : Outcome) (s : EngineState α ρ) :
    EngineState α ρ :=
  let s := { s with inFlight := none }
  match outcome with
  | .deviceLost => { s with phase := .failing }
  | .failed => abortAndEnd runner ((batch flight.plan flight.seqs).map (·.2)) s
  | .results results =>
      match handleIterationResults now results s.running s.allocator s.callbacks with
      | none => { s with phase := .failing }
      | some (folded, callbacks) =>
          endSequences runner folded.finished
            { s with running := folded.running, allocator := folded.allocator, callbacks }

/-- The end of `_scheduler_loop`'s handler, its ingress drained. -/
def abortAll (s : EngineState α ρ) : EngineState α ρ :=
  { abortAndEnd runner (s.running ++ s.waiting) s with waiting := [], phase := .failed }

inductive Event where
  | arrive (req : IngressRequest)
  | schedule (now : Time)
  | forward (outcome : Outcome)
  | apply (now : Time)
  | abortAll

/-- The ids the engine has taken from its ingress. Ids come from one process-wide counter. -/
def EngineState.ids (s : EngineState α ρ) : List SeqId :=
  (s.running ++ s.waiting ++ s.ended).map (·.seqId)

inductive Step : EngineState α ρ → Event → EngineState α ρ → Prop where
  | arrive {s : EngineState α ρ} {req : IngressRequest} :
      s.inFlight = none → s.phase ≠ .failed → req.seqId ∉ s.ids →
      Step s (.arrive req) { s with waiting := s.waiting ++ [sequenceFromIngress req] }
  | schedule {s : EngineState α ρ} {now : Time} :
      s.inFlight = none → s.phase = .serving →
      Step s (.schedule now) (schedule runner scheduler now s)
  | forward {s : EngineState α ρ} {flight : InFlight} {outcome : Outcome} {after : ρ} :
      s.inFlight = some flight → flight.outcome = none →
      runner.forward flight.plan flight.seqs s.runner outcome after →
      Step s (.forward outcome)
        { s with runner := after, inFlight := some { flight with outcome := some outcome } }
  | apply {s : EngineState α ρ} {now : Time} {flight : InFlight} {outcome : Outcome} :
      s.inFlight = some flight → flight.outcome = some outcome →
      Step s (.apply now) (applyOutcome runner now flight outcome s)
  | abortAll {s : EngineState α ρ} :
      s.phase = .failing → Step s .abortAll (abortAll runner s)

def loop (allocator : α) (start : ρ) : Lib.Machine (EngineState α ρ) Event where
  initial s := s = { allocator, runner := start }
  step := Step runner scheduler

end

theorem default_temperature_nonneg : (0 : Rat) ≤ 1 := by decide

theorem default_topP_pos : (0 : Rat) < 1 := by decide

theorem default_topP_le_one : (1 : Rat) ≤ 1 := by decide

def sampleRequest (seqId : SeqId) (first : Token) (rest : List Token) (more : Nat) :
    IngressRequest where
  seqId
  promptTokens := first :: rest
  samplingParams :=
    { maxTokens := more + 1
      maxTokens_pos := Nat.succ_pos more
      temperature_nonneg := default_temperature_nonneg
      topP_pos := default_topP_pos
      topP_le_one := default_topP_le_one }
  arrivalTime := 0
  promptTokens_ne_nil := List.cons_ne_nil first rest

def sampleScheduler : Scheduler := ⟨.continuousBatched, 8, 2⟩

abbrev samplePool (numBlocks more : Nat) : BlockAllocator :=
  .fresh numBlocks (more + 1) (Nat.succ_pos more)

end LlmServing.Engine
