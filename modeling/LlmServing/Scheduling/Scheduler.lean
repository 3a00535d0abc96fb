import LlmServing.Scheduling.Allocator
import LlmServing.Scheduling.Dispatch

/-!
# Scheduler interface and implementations

`scheduler.py`. The lists and the allocator that `scheduler_step` mutates are the fields of
`Planning`, passed from pass to pass. One clock reading `now` stands for the readings of one call.
-/

namespace LlmServing.Scheduling

def maxAdmissionSkips : Nat := 8

inductive SchedulerKind where
  | continuousBatched | staticBatched
  deriving DecidableEq

/-- `ContinuousBatchedScheduler` takes `max_running` from its concurrency cap,
`StaticBatchedScheduler` from its batch size. -/
structure Scheduler where
  kind : SchedulerKind
  tokenBudget : Nat
  maxRunning : Nat
  deriving DecidableEq

namespace Scheduler

/-- `MAX_PREFILL_CHUNK_FRACTION` is one half. -/
def maxPrefillChunk (scheduler : Scheduler) : Nat := max 1 (scheduler.tokenBudget / 2)

def admissionCap (scheduler : Scheduler) (running : List Sequence) : Nat :=
  match scheduler.kind with
  | .continuousBatched => scheduler.maxRunning
  | .staticBatched => if running.isEmpty then scheduler.maxRunning else 0

end Scheduler

structure Planning (α : Type) where
  running : List Sequence
  waiting : List Sequence
  allocator : α
  plan : BatchPlan := {}
  deriving DecidableEq

def requeue (victim : Sequence) (table : BlockTable) : Sequence :=
  { victim with
    blockTable := table
    prefillProgress := 0
    status := .waiting }

def advancePrefill (seq : Sequence) (chunk : Nat) : Sequence :=
  { seq with
    prefillProgress := seq.prefillProgress + chunk
    status := if seq.prefillProgress + chunk = seq.numTokens then .decoding else .prefilling }

section

variable {α : Type} [KVAllocator α]

/-- One round of the loop in `_preempt_until_allocated`: `running.pop()`, freed and put at the
head of `waiting`. Its caller never finds `running` empty. -/
def preemptTail (st : Planning α) : Planning α :=
  match st.running.getLast? with
  | none => st
  | some victim =>
      let (allocator, table) := free st.allocator victim.blockTable
      { running := st.running.dropLast
        waiting := requeue victim table :: st.waiting
        allocator
        plan := { st.plan with preempted := st.plan.preempted ++ [victim.seqId] } }

theorem preemptTail_running (st : Planning α) :
    (preemptTail st).running = st.running.dropLast := by
  unfold preemptTail
  split
  · rename_i empty
    rw [List.getLast?_eq_none_iff] at empty
    simp [empty]
  · rfl

/-- Serves `running[i]`. `victim is seq` is the popped index being `i`. -/
def preemptUntilAllocated (i : Nat) (st : Planning α) : Bool × Planning α :=
  if inside : i < st.running.length then
    let seq := st.running[i]
    match allocate st.allocator seq 1 0 with
    | some (allocator, table) =>
        (true, { st with
          running := st.running.set i { seq with blockTable := table }
          allocator })
    | none =>
        if i + 1 = st.running.length then (false, preemptTail st)
        else preemptUntilAllocated i (preemptTail st)
  else (false, st)
termination_by st.running.length
decreasing_by
  rw [preemptTail_running, List.length_dropLast]
  omega

theorem preemptUntilAllocated_length_le (i : Nat) (st : Planning α) :
    (preemptUntilAllocated i st).2.running.length ≤ st.running.length := by
  fun_induction preemptUntilAllocated i st with
  | case1 => simp
  | case2 => simp [preemptTail_running]
  | case3 st inside seq refused last ih =>
      rw [preemptTail_running, List.length_dropLast] at ih
      omega
  | case4 => simp

/-- The loop of `_plan_decodes` from index `i` on: preemption pops the tail, which the loop has
not reached yet. -/
def planDecodesFrom (i : Nat) (st : Planning α) : Planning α :=
  if inside : i < st.running.length then
    let seq := st.running[i]
    if seq.status = .decoding then
      let tried := preemptUntilAllocated i st
      if tried.1 then planDecodesFrom (i + 1) { tried.2 with plan := tried.2.plan.add seq 1 }
      else planDecodesFrom (i + 1) tried.2
    else planDecodesFrom (i + 1) st
  else st
termination_by st.running.length - i
decreasing_by
  · have shrinks := preemptUntilAllocated_length_le i st
    omega
  · have shrinks := preemptUntilAllocated_length_le i st
    omega
  · omega

def planDecodes (st : Planning α) : Planning α := planDecodesFrom 0 st

/-- The loop of `_plan_prefill_continuations` over the sequences it has not reached, with the
budget they are left: `running` as the loop leaves it, and the budget it returns. -/
def continuePrefills (scheduler : Scheduler) (budget : Nat) (allocator : α) (plan : BatchPlan) :
    List Sequence → List Sequence × α × BatchPlan × Nat
  | [] => ([], allocator, plan, budget)
  | seq :: rest =>
      if seq.status ≠ .prefilling ∨ budget = 0 then
        let (rest, left) := continuePrefills scheduler budget allocator plan rest
        (seq :: rest, left)
      else
        let chunk := min (min (seq.numTokens - seq.prefillProgress) budget)
          scheduler.maxPrefillChunk
        match allocate allocator seq chunk 0 with
        | none => (seq :: rest, allocator, plan, 0)
        | some (allocator, table) =>
            let (rest, left) := continuePrefills scheduler (budget - chunk) allocator
              (plan.add seq chunk true) rest
            (advancePrefill { seq with blockTable := table } chunk :: rest, left)

def planPrefillContinuations (scheduler : Scheduler) (st : Planning α) : Planning α × Nat :=
  let (running, allocator, plan, budget) :=
    continuePrefills scheduler scheduler.tokenBudget st.allocator st.plan st.running
  ({ st with running, allocator, plan }, budget)

def headSkips (waiting : List Sequence) : Nat := (waiting.head?.map (·.admissionSkips)).getD 0

def skipHead : List Sequence → List Sequence
  | [] => []
  | head :: rest => { head with admissionSkips := head.admissionSkips + 1 } :: rest

def takeAdmitted (waiting : List Sequence) (index : Nat) : List Sequence :=
  if 0 < index then skipHead (waiting.eraseIdx index) else waiting.eraseIdx index

theorem length_takeAdmitted (waiting : List Sequence) (index : Nat) :
    (takeAdmitted waiting index).length = (waiting.eraseIdx index).length := by
  unfold takeAdmitted
  split
  · cases waiting.eraseIdx index <;> rfl
  · rfl

/-- `metrics.admit_time`, stamped at the first admission only. -/
def stampAdmission (now : Time) (seq : Sequence) : Sequence :=
  { seq with metrics := { seq.metrics with
    admitTime := some (seq.metrics.admitTime.getD now) } }

/-- The loop of `_plan_admissions` from `index` on, with `cap` read before it started. -/
def planAdmissionsFrom (scheduler : Scheduler) (now : Time) (cap : Nat) (index budget : Nat)
    (st : Planning α) : Planning α :=
  if inside : index < st.waiting.length then
    if 0 < budget ∧ st.running.length < cap then
      if 0 < index ∧ maxAdmissionSkips ≤ headSkips st.waiting then st
      else
        let seq := st.waiting[index]
        if canEverFit st.allocator seq then
          let chunk := min (min seq.numTokens budget) scheduler.maxPrefillChunk
          match allocate st.allocator seq chunk st.running.length with
          | none => planAdmissionsFrom scheduler now cap (index + 1) budget st
          | some (allocator, table) =>
              let admitted := advancePrefill { seq with blockTable := table } chunk
              planAdmissionsFrom scheduler now cap index (budget - chunk)
                { running := st.running ++ [stampAdmission now admitted]
                  waiting := takeAdmitted st.waiting index
                  allocator
                  plan := st.plan.add seq chunk true }
        else
          planAdmissionsFrom scheduler now cap index budget
            { st with
              waiting := st.waiting.eraseIdx index
              plan := { st.plan with rejected := st.plan.rejected ++ [seq] } }
    else st
  else st
termination_by st.waiting.length - index
decreasing_by
  · omega
  · rw [length_takeAdmitted, List.length_eraseIdx_of_lt inside]
    omega
  · rw [List.length_eraseIdx_of_lt inside]
    omega

def planAdmissions (scheduler : Scheduler) (now : Time) (budget : Nat) (st : Planning α) :
    Planning α :=
  planAdmissionsFrom scheduler now (scheduler.admissionCap st.running) 0 budget st

def schedulerStep (scheduler : Scheduler) (now : Time) (running waiting : List Sequence)
    (allocator : α) : Planning α :=
  let decoded := planDecodes { running, waiting, allocator }
  let (continued, budget) := planPrefillContinuations scheduler decoded
  planAdmissions scheduler now budget continued

/-- `handle_iteration_results` part way: `finished` are the sequences already dropped. -/
structure Folding (α : Type) where
  running : List Sequence
  allocator : α
  finished : List Sequence := []
  deriving DecidableEq

def recordToken (now : Time) (token : Token) (finished : Bool) (seq : Sequence) : Sequence :=
  { seq with
    generatedTokens := seq.generatedTokens ++ [token]
    metrics := { seq.metrics with
      firstTokenTime := some (seq.metrics.firstTokenTime.getD now)
      tokenTimes := seq.metrics.tokenTimes ++ [now]
      doneTime := if finished then some now else seq.metrics.doneTime } }

/-- One result folded in; `none` is the `KeyError` of an id that `running` does not hold. No two
results name one sequence, so the id of a sequence finished before is not looked up again. -/
def foldResult (now : Time) (st : Folding α) : SeqId × Token × Bool → Option (Folding α)
  | (seqId, token, finished) =>
      match st.running.find? (·.seqId = seqId) with
      | none => none
      | some seq =>
          let seq := recordToken now token finished seq
          if finished then
            let (allocator, table) := free st.allocator seq.blockTable
            some
              { running := st.running.eraseP (·.seqId = seqId)
                allocator
                finished := st.finished ++ [{ seq with blockTable := table }] }
          else
            some { st with
              running := st.running.map fun other => if other.seqId = seqId then seq else other }

def handleIterationResults (now : Time) (results : IterationResults) (running : List Sequence)
    (allocator : α) (loop : List Callback) : Option (Folding α × List Callback) :=
  (results.foldlM (foldResult now) { running, allocator }).map fun folded =>
    (folded, dispatchResults results loop)

def abortOne (st : Folding α) (seq : Sequence) : Folding α :=
  let (allocator, table) := free st.allocator seq.blockTable
  { running := st.running.eraseP (·.seqId = seq.seqId)
    allocator
    finished := st.finished ++ [{ seq with blockTable := table }] }

def abort (seqs running : List Sequence) (allocator : α) (loop : List Callback) :
    Folding α × List Callback :=
  (seqs.foldl abortOne { running, allocator }, dispatchAborted (seqs.map (·.seqId)) loop)

end

end LlmServing.Scheduling
