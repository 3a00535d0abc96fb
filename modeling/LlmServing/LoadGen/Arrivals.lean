import LlmServing.LoadGen.Timing

/-!
# The open loop

`open_loop_load_gen` of `loadgen/timing.py`: one coroutine creates a task for each arrival, and every task
sends its request and appends its result. The schedule is drawn from `gaps`, the values of
`rng.expovariate`.
-/

namespace LlmServing.LoadGen

open Scheduling Lib

inductive Sender where
  | looping | sleeping | gathering
  deriving DecidableEq

/-- `_send_on_schedule`, its `intended_send_time` first. -/
inductive SendTask where
  | created (intended : Time)
  | awaiting (intended : Time) (shape : RequestShape) (began : Time)
  | returned (intended : Time)
  | raised (intended : Time) (shape : RequestShape)
  | exhausted (intended : Time)
  deriving DecidableEq

structure OpenLoop where
  sender : Sender := .looping
  drawn : Nat := 0
  nextSend : Time
  tasks : List SendTask := []
  queued : List RequestShape
  results : List Timed := []

def createTask (gaps : Nat → Time) (s : OpenLoop) : OpenLoop :=
  { s with
    sender := .looping
    drawn := s.drawn + 1
    nextSend := s.nextSend + gaps s.drawn
    tasks := s.tasks ++ [.created s.nextSend] }

/-- The sender's next await, or the end of one round of its loop, the clock at `now`. -/
def nextArrival (numRequests : Nat) (maxDuration : Option Time) (gaps : Nat → Time) (start now : Time)
    (s : OpenLoop) : OpenLoop :=
  if s.drawn = numRequests then { s with sender := .gathering }
  else if maxDuration.any (· ≤ s.nextSend - start) then { s with sender := .gathering }
  else if now < s.nextSend then { s with sender := .sleeping }
  else createTask gaps s

def beginTask (intended now : Time) (s : OpenLoop) : SendTask × OpenLoop :=
  match s.queued with
  | [] => (.exhausted intended, s)
  | shape :: queued => (.awaiting intended shape now, { s with queued })

inductive OpenStep (numRequests : Nat) (maxDuration : Option Time) (gaps : Nat → Time) (start : Time) :
    OpenLoop → LoopEvent → OpenLoop → Prop where
  | arrive {s : OpenLoop} {now : Time} :
      s.sender = .looping →
      OpenStep numRequests maxDuration gaps start s ⟨none, [now]⟩
        (nextArrival numRequests maxDuration gaps start now s)
  | wake {s : OpenLoop} {now : Time} :
      s.sender = .sleeping → s.nextSend ≤ now →
      OpenStep numRequests maxDuration gaps start s ⟨none, [now]⟩ (createTask gaps s)
  | begin {s t : OpenLoop} {front behind : List SendTask} {task : SendTask} {intended now : Time} :
      s.tasks = front ++ .created intended :: behind → beginTask intended now s = (task, t) →
      OpenStep numRequests maxDuration gaps start s ⟨none, [now]⟩
        { t with tasks := front ++ task :: behind }
  | resume {s : OpenLoop} {front behind : List SendTask} {shape : RequestShape}
      {intended began now : Time} {result : Result} :
      s.tasks = front ++ .awaiting intended shape began :: behind → ReadBetween began now result →
      OpenStep numRequests maxDuration gaps start s ⟨some result, [now]⟩
        { s with
          tasks := front ++ .returned intended :: behind
          results := s.results ++
            [{ timed now start intended shape result with scheduledAt := some (intended - start) }] }
  | raise {s : OpenLoop} {front behind : List SendTask} {shape : RequestShape} {intended began : Time} :
      s.tasks = front ++ .awaiting intended shape began :: behind →
      OpenStep numRequests maxDuration gaps start s {}
        { s with tasks := front ++ .raised intended shape :: behind }

def openLoopLoadGen (numRequests : Nat) (shapes : List RequestShape) (maxDuration : Option Time)
    (gaps : Nat → Time) (start : Time) : Machine (OpenLoop × Time) LoopEvent :=
  Machine.timed
    { initial := fun s => s = { nextSend := start, queued := shapes }
      step := OpenStep numRequests maxDuration gaps start }
    LoopEvent.Reads start

def offset (gaps : Nat → Time) (k : Nat) : Time := ((List.range k).map gaps).sum

def arrivals (numRequests : Nat) (maxDuration : Option Time) (gaps : Nat → Time) : Nat :=
  ((List.range numRequests).takeWhile fun k => !maxDuration.any (· ≤ offset gaps k)).length

theorem offset_succ (gaps : Nat → Time) (k : Nat) : offset gaps (k + 1) = offset gaps k + gaps k := by
  simp [offset, List.range_succ]

variable {numRequests : Nat} {maxDuration : Option Time} {gaps : Nat → Time}

theorem offset_nonneg (nonneg : ∀ k, 0 ≤ gaps k) (k : Nat) : 0 ≤ offset gaps k := by
  induction k with
  | zero => exact le_refl _
  | succ k ih =>
      rw [offset_succ]
      exact add_nonneg ih (nonneg k)

theorem arrivals_eq {drawn : Nat} (le : drawn ≤ numRequests)
    (before : ∀ k < drawn, maxDuration.any (· ≤ offset gaps k) = false)
    (stop : drawn = numRequests ∨ maxDuration.any (· ≤ offset gaps drawn) = true) :
    arrivals numRequests maxDuration gaps = drawn := by
  have split : List.range numRequests = List.range drawn ++ List.range' drawn (numRequests - drawn) := by
    have joined : List.range' 0 drawn ++ List.range' (0 + drawn) (numRequests - drawn) = _ :=
      List.range'_append_1
    rw [Nat.zero_add, Nat.add_sub_cancel' le] at joined
    rw [List.range_eq_range', List.range_eq_range', joined]
  have first : ∀ k ∈ List.range drawn, (!maxDuration.any (· ≤ offset gaps k)) = true := by
    intro k member
    rw [before k (List.mem_range.mp member)]
    rfl
  rw [arrivals, split, List.takeWhile_append_of_pos first, List.length_append, List.length_range]
  rcases stop with rfl | stop
  · simp
  · cases left : numRequests - drawn with
    | zero => simp
    | succ more => simp [List.range'_succ, stop]

/-! ## The tasks keep to the schedule -/

def SendTask.intended : SendTask → Time
  | .created intended => intended
  | .awaiting intended _ _ => intended
  | .returned intended => intended
  | .raised intended _ => intended
  | .exhausted intended => intended

def SendTask.claimed : SendTask → List RequestShape
  | .awaiting _ shape _ => [shape]
  | .raised _ shape => [shape]
  | _ => []

def SendTask.scheduled : SendTask → List Time
  | .returned intended => [intended]
  | _ => []

def SendTask.waits : SendTask → Bool
  | .created _ => true
  | _ => false

def openNames (s : OpenLoop) : List String :=
  s.results.map (·.shape) ++ (s.tasks.flatMap SendTask.claimed).map (·.name)

def TaskOk (start clock : Time) : SendTask → Prop
  | .created intended => start ≤ intended ∧ intended ≤ clock
  | .awaiting intended _ began => start ≤ intended ∧ intended ≤ began ∧ began ≤ clock
  | .returned _ => True
  | .raised _ _ => True
  | .exhausted _ => False

structure Scheduled (start clock : Time) (timed : Timed) : Prop extends Measured start clock timed where
  scheduled : timed.scheduledAt = some (timed.completedAt - timed.latency)

structure OnSchedule (numRequests : Nat) (shapes : List RequestShape) (maxDuration : Option Time)
    (gaps : Nat → Time) (start clock : Time) (s : OpenLoop) : Prop where
  started : start ≤ clock
  drawn : s.drawn ≤ numRequests
  next : s.nextSend = start + offset gaps s.drawn
  tasks : s.tasks.map (·.intended) = (List.range s.drawn).map fun k => start + offset gaps k
  each : ∀ task ∈ s.tasks, TaskOk start clock task
  within : ∀ k < s.drawn, maxDuration.any (· ≤ offset gaps k) = false
  sleeping : s.sender = .sleeping → s.drawn < numRequests ∧ maxDuration.any (· ≤ offset gaps s.drawn) = false
  gathering : s.sender = .gathering → s.drawn = numRequests ∨ maxDuration.any (· ≤ offset gaps s.drawn) = true
  begun : (openNames s).length + s.tasks.countP (·.waits) = s.drawn
  queued : s.queued = shapes.drop (openNames s).length
  shapes : (openNames s).Perm ((shapes.take (openNames s).length).map (·.name))
  results : (s.results.map (·.scheduledAt)).Perm
    ((s.tasks.flatMap (·.scheduled)).map fun intended => some (intended - start))
  measured : ∀ timed ∈ s.results, Scheduled start clock timed

section

variable {start clock stop now : Time} {shapes : List RequestShape} {s t : OpenLoop}
  {front behind : List SendTask} {task : SendTask} {shape : RequestShape} {intended began : Time}
  {result : Result}

theorem Scheduled.later {timed : Timed} (measured : Scheduled start clock timed) (le : clock ≤ stop) :
    Scheduled start stop timed :=
  ⟨measured.toMeasured.later le, measured.scheduled⟩

theorem TaskOk.later (ok : TaskOk start clock task) (le : clock ≤ stop) : TaskOk start stop task := by
  cases task with
  | created intended => exact ⟨ok.1, ok.2.trans le⟩
  | awaiting intended shape began => exact ⟨ok.1, ok.2.1, ok.2.2.trans le⟩
  | returned intended => trivial
  | raised intended shape => trivial
  | exhausted intended => exact ok

theorem OnSchedule.later (holds : OnSchedule numRequests shapes maxDuration gaps start clock s)
    (le : clock ≤ stop) : OnSchedule numRequests shapes maxDuration gaps start stop s :=
  { holds with
    started := holds.started.trans le
    each := fun task member => (holds.each task member).later le
    measured := fun timed member => (holds.measured timed member).later le }

theorem OnSchedule.createTask (nonneg : ∀ k, 0 ≤ gaps k)
    (holds : OnSchedule numRequests shapes maxDuration gaps start now s) (more : s.drawn < numRequests)
    (within : maxDuration.any (· ≤ offset gaps s.drawn) = false) (due : s.nextSend ≤ now) :
    OnSchedule numRequests shapes maxDuration gaps start now (createTask gaps s) := by
  have names : openNames (LoadGen.createTask gaps s) = openNames s := by
    simp [openNames, LoadGen.createTask, SendTask.claimed]
  constructor
  · exact holds.started
  · exact more
  · show s.nextSend + gaps s.drawn = _
    rw [holds.next, show (LoadGen.createTask gaps s).drawn = s.drawn + 1 from rfl, offset_succ, add_assoc]
  · show (s.tasks ++ [SendTask.created s.nextSend]).map (·.intended) = _
    rw [show (LoadGen.createTask gaps s).drawn = s.drawn + 1 from rfl, List.range_succ, List.map_append,
      List.map_append, holds.tasks, List.map_singleton, List.map_singleton, ← holds.next]
    rfl
  · intro task member
    rcases List.mem_append.mp member with member | member
    · exact holds.each task member
    · rw [List.mem_singleton.mp member]
      refine ⟨?_, due⟩
      rw [holds.next]
      exact le_add_of_nonneg_right (offset_nonneg nonneg _)
  · intro k before
    rcases Nat.lt_succ_iff_lt_or_eq.mp before with before | rfl
    · exact holds.within k before
    · exact within
  · rintro ⟨⟩
  · rintro ⟨⟩
  · rw [names]
    show _ + (s.tasks ++ [SendTask.created s.nextSend]).countP (·.waits) = s.drawn + 1
    rw [List.countP_append, ← Nat.add_assoc, holds.begun]
    rfl
  · rw [names]
    exact holds.queued
  · rw [names]
    exact holds.shapes
  · have same : (LoadGen.createTask gaps s).tasks.flatMap (·.scheduled) = s.tasks.flatMap (·.scheduled) := by
      simp [LoadGen.createTask, SendTask.scheduled]
    rw [same]
    exact holds.results
  · exact holds.measured

theorem OnSchedule.nextArrival (nonneg : ∀ k, 0 ≤ gaps k)
    (holds : OnSchedule numRequests shapes maxDuration gaps start now s) :
    OnSchedule numRequests shapes maxDuration gaps start now
      (nextArrival numRequests maxDuration gaps start now s) := by
  have here : s.nextSend - start = offset gaps s.drawn := by
    rw [holds.next, add_sub_cancel_left]
  unfold LoadGen.nextArrival
  rw [here]
  split
  · rename_i all
    exact { holds with
      sleeping := by rintro ⟨⟩
      gathering := fun _ => .inl all }
  · rename_i some
    split
    · rename_i cut
      exact { holds with
        sleeping := by rintro ⟨⟩
        gathering := fun _ => .inr cut }
    · rename_i within
      have more : s.drawn < numRequests := lt_of_le_of_ne holds.drawn some
      split
      · exact { holds with
          sleeping := fun _ => ⟨more, Bool.eq_false_iff.mpr within⟩
          gathering := by rintro ⟨⟩ }
      · rename_i due
        exact holds.createTask nonneg more (Bool.eq_false_iff.mpr within) (not_lt.mp due)

theorem intended_replaced {old : SendTask} (new : SendTask) (slot : s.tasks = front ++ old :: behind)
    (same : new.intended = old.intended) :
    (front ++ new :: behind).map (·.intended) = s.tasks.map (·.intended) := by
  simp [slot, same]

theorem OnSchedule.beginTask (enough : numRequests ≤ shapes.length)
    (holds : OnSchedule numRequests shapes maxDuration gaps start now s)
    (slot : s.tasks = front ++ .created intended :: behind) (moved : beginTask intended now s = (task, t)) :
    OnSchedule numRequests shapes maxDuration gaps start now { t with tasks := front ++ task :: behind } := by
  have begun := holds.begun
  have waits : s.tasks.countP (·.waits) = (front ++ behind).countP (·.waits) + 1 := by
    simp [slot, SendTask.waits, List.countP_append, Nat.add_assoc]
  have drawn := holds.drawn
  unfold LoadGen.beginTask at moved
  split at moved
  · rename_i exhausted
    have short : shapes.length ≤ (openNames s).length :=
      List.drop_eq_nil_iff.mp (holds.queued ▸ exhausted)
    omega
  · rename_i shape rest next
    cases moved
    have perm : (s.results.map (·.shape) ++ ((front ++ .awaiting intended shape now :: behind).flatMap
        SendTask.claimed).map (·.name)).Perm (openNames s ++ [shape.name]) := by
      have claim := names_claim SendTask.claimed (s.results.map (·.shape)) front behind (.created intended)
        (.awaiting intended shape now) rfl rfl
      rwa [← slot] at claim
    have more := perm.length_eq.trans (show _ = (openNames s).length + 1 by simp)
    have queued := next ▸ holds.queued
    have taken : shapes.take ((openNames s).length + 1) = shapes.take (openNames s).length ++ [shape] := by
      rw [List.take_add, ← queued]
      rfl
    obtain ⟨after, due⟩ := holds.each (.created intended) (by simp [slot])
    constructor
    · exact holds.started
    · exact drawn
    · exact holds.next
    · exact (intended_replaced (.awaiting intended shape now) slot rfl).trans holds.tasks
    · exact forall_replaced (slot ▸ holds.each) ⟨after, due, le_refl now⟩
    · exact holds.within
    · exact holds.sleeping
    · exact holds.gathering
    · have left : (front ++ SendTask.awaiting intended shape now :: behind).countP (·.waits) =
          (front ++ behind).countP (·.waits) := by
        simp [SendTask.waits, List.countP_append]
      show _ + (front ++ SendTask.awaiting intended shape now :: behind).countP (·.waits) = s.drawn
      rw [openNames, more, left]
      omega
    · show rest = shapes.drop _
      rw [openNames, more, List.drop_add_one_eq_tail_drop, ← queued]
      rfl
    · rw [openNames, more, taken, List.map_append]
      exact perm.trans (holds.shapes.append_right _)
    · have same : (front ++ SendTask.awaiting intended shape now :: behind).flatMap (·.scheduled) =
          s.tasks.flatMap (·.scheduled) := by
        simp [slot, SendTask.scheduled]
      rw [same]
      exact holds.results
    · exact holds.measured

theorem OnSchedule.resume (holds : OnSchedule numRequests shapes maxDuration gaps start now s)
    (slot : s.tasks = front ++ .awaiting intended shape began :: behind)
    (read : ReadBetween began now result) :
    OnSchedule numRequests shapes maxDuration gaps start now
      { s with
        tasks := front ++ .returned intended :: behind
        results := s.results ++
          [{ timed now start intended shape result with scheduledAt := some (intended - start) }] } := by
  obtain ⟨after, due, before⟩ := holds.each (.awaiting intended shape began) (by simp [slot])
  have perm : (openNames { s with
      tasks := front ++ .returned intended :: behind
      results := s.results ++ [{ timed now start intended shape result with
        scheduledAt := some (intended - start) }] }).Perm (openNames s) := by
    rw [openNames, openNames, slot, List.map_append]
    exact names_finish SendTask.claimed (s.results.map (·.shape)) front behind
      (.awaiting intended shape began) (.returned intended) rfl rfl
  have length := perm.length_eq
  constructor
  · exact holds.started
  · exact holds.drawn
  · exact holds.next
  · exact (intended_replaced (.returned intended) slot rfl).trans holds.tasks
  · exact forall_replaced (slot ▸ holds.each) trivial
  · exact holds.within
  · exact holds.sleeping
  · exact holds.gathering
  · rw [length, ← holds.begun, slot]
    simp [SendTask.waits, List.countP_append]
  · rw [length]
    exact holds.queued
  · rw [length]
    exact perm.trans holds.shapes
  · have sent := holds.results
    rw [slot] at sent
    simp only [List.map_append, List.flatMap_append, List.flatMap_cons, SendTask.scheduled, List.nil_append,
      List.map_cons, List.map_nil, List.singleton_append] at sent ⊢
    exact (sent.append_right _).trans (List.perm_append_singleton _ _ |>.trans List.perm_middle.symm)
  · intro timed member
    rcases List.mem_append.mp member with member | member
    · exact holds.measured timed member
    · rw [List.mem_singleton.mp member]
      have tokens : ReadBetween intended now result := fun time token =>
        ⟨due.trans (read time token).1, (read time token).2⟩
      obtain ⟨latency, waited, completed, first⟩ := measured_timed after (due.trans before) tokens shape
      refine ⟨⟨latency, waited, completed, first⟩, congrArg some ?_⟩
      show intended - start = now - start - (now - intended)
      ring

theorem OnSchedule.raise (holds : OnSchedule numRequests shapes maxDuration gaps start now s)
    (slot : s.tasks = front ++ .awaiting intended shape began :: behind) :
    OnSchedule numRequests shapes maxDuration gaps start now
      { s with tasks := front ++ .raised intended shape :: behind } := by
  have same : openNames { s with tasks := front ++ .raised intended shape :: behind } = openNames s := by
    simp [openNames, slot, SendTask.claimed]
  constructor
  · exact holds.started
  · exact holds.drawn
  · exact holds.next
  · exact (intended_replaced (.raised intended shape) slot rfl).trans holds.tasks
  · exact forall_replaced (slot ▸ holds.each) trivial
  · exact holds.within
  · exact holds.sleeping
  · exact holds.gathering
  · rw [same, ← holds.begun, slot]
    simp [SendTask.waits, List.countP_append]
  · rw [same]
    exact holds.queued
  · rw [same]
    exact holds.shapes
  · have sent := holds.results
    rw [slot] at sent
    simpa [SendTask.scheduled] using sent
  · exact holds.measured

theorem OnSchedule.step {event : LoopEvent} (nonneg : ∀ k, 0 ≤ gaps k) (enough : numRequests ≤ shapes.length)
    (holds : OnSchedule numRequests shapes maxDuration gaps start clock s)
    (reads : event.Reads clock stop) (step : OpenStep numRequests maxDuration gaps start s event t) :
    OnSchedule numRequests shapes maxDuration gaps start stop t := by
  unfold LoopEvent.Reads at reads
  cases step with
  | arrive looping =>
      simp at reads
      exact ((holds.later (by tauto)).nextArrival nonneg).later (by tauto)
  | wake sleeping due =>
      simp at reads
      obtain ⟨more, within⟩ := holds.sleeping sleeping
      exact ((holds.later (by tauto)).createTask nonneg more within due).later (by tauto)
  | begin slot moved =>
      simp at reads
      exact ((holds.later (by tauto)).beginTask enough slot moved).later (by tauto)
  | resume slot read =>
      simp at reads
      exact ((holds.later (by tauto)).resume slot read).later (by tauto)
  | raise slot =>
      simp at reads
      exact (holds.raise slot).later (by tauto)

theorem onSchedule (nonneg : ∀ k, 0 ≤ gaps k) (enough : numRequests ≤ shapes.length) {s : OpenLoop}
    (reachable : (openLoopLoadGen numRequests shapes maxDuration gaps start).Reachable (s, clock)) :
    OnSchedule numRequests shapes maxDuration gaps start clock s := by
  refine reachable.invariant (P := fun s =>
    OnSchedule numRequests shapes maxDuration gaps start s.2 s.1) ?_ ?_
  · rintro ⟨s, clock⟩ ⟨rfl, (rfl : clock = start)⟩
    constructor
    · exact le_refl _
    · exact Nat.zero_le _
    · exact (add_zero _).symm
    · rfl
    · exact List.forall_mem_nil _
    · intro k before
      exact absurd before (Nat.not_lt_zero k)
    · rintro ⟨⟩
    · rintro ⟨⟩
    · rfl
    · rfl
    · exact .refl _
    · exact .refl _
    · exact List.forall_mem_nil _
  · rintro ⟨s, clock⟩ event ⟨t, stop⟩ before holds ⟨le, reads, step⟩
    exact holds.step nonneg enough reads step

theorem scheduled_returned {tasks : List SendTask} (all : ∀ task ∈ tasks, ∃ intended, task = .returned intended) :
    tasks.flatMap (·.scheduled) = tasks.map (·.intended) ∧ tasks.flatMap SendTask.claimed = [] ∧
      tasks.countP (·.waits) = 0 := by
  induction tasks with
  | nil => exact ⟨rfl, rfl, rfl⟩
  | cons task rest ih =>
      obtain ⟨⟨intended, rfl⟩, others⟩ := List.forall_mem_cons.mp all
      obtain ⟨scheduled, claimed, waits⟩ := ih others
      refine ⟨?_, ?_, ?_⟩
      · rw [List.flatMap_cons, scheduled]
        rfl
      · rw [List.flatMap_cons, claimed]
        rfl
      · rw [List.countP_cons, waits]
        rfl

theorem OnSchedule.finished (holds : OnSchedule numRequests shapes maxDuration gaps start clock s)
    (gathering : s.sender = .gathering) (all : ∀ task ∈ s.tasks, ∃ intended, task = .returned intended) :
    (s.results.map (·.scheduledAt)).Perm
        ((List.range (arrivals numRequests maxDuration gaps)).map fun k => some (offset gaps k)) ∧
      (s.results.map (·.shape)).Perm
        ((shapes.take (arrivals numRequests maxDuration gaps)).map (·.name)) := by
  obtain ⟨scheduled, claimed, waits⟩ := scheduled_returned all
  have drawn := arrivals_eq holds.drawn holds.within (holds.gathering gathering)
  have names : openNames s = s.results.map (·.shape) := by
    rw [openNames, claimed]
    exact List.append_nil _
  have results := holds.results
  have begun := holds.begun
  have took := holds.shapes
  rw [scheduled, holds.tasks, List.map_map, ← drawn] at results
  rw [waits, Nat.add_zero, ← drawn] at begun
  rw [begun, names] at took
  refine ⟨?_, took⟩
  simpa [Function.comp_def] using results

end

/-- In every run, whatever the server does and however late the tasks get their turn: arrivals are created
in order for the times that `gaps` alone sets, a result counts from the time its request was due, and a
run that returns has one result for each arrival of `arrivals`. -/
theorem open_loop_on_schedule (numRequests : Nat) (shapes : List RequestShape) (maxDuration : Option Time)
    (gaps : Nat → Time) (start : Time) (nonneg : ∀ k, 0 ≤ gaps k) (enough : numRequests ≤ shapes.length)
    {s : OpenLoop} {clock : Time}
    (reachable : (openLoopLoadGen numRequests shapes maxDuration gaps start).Reachable (s, clock)) :
    s.tasks.map (·.intended) = (List.range s.drawn).map (fun k => start + offset gaps k) ∧
      (∀ task ∈ s.tasks, TaskOk start clock task) ∧
      s.queued = shapes.drop (openNames s).length ∧
      (openNames s).Perm ((shapes.take (openNames s).length).map (·.name)) ∧
      (∀ timed ∈ s.results, Scheduled start clock timed) ∧
      (s.sender = .gathering → s.drawn = arrivals numRequests maxDuration gaps ∧
        ((∀ task ∈ s.tasks, ∃ intended, task = .returned intended) →
          (s.results.map (·.scheduledAt)).Perm
              ((List.range (arrivals numRequests maxDuration gaps)).map fun k => some (offset gaps k)) ∧
            (s.results.map (·.shape)).Perm
              ((shapes.take (arrivals numRequests maxDuration gaps)).map (·.name)))) := by
  have holds := onSchedule nonneg enough reachable
  refine ⟨holds.tasks, holds.each, holds.queued, holds.shapes, holds.measured,
    fun gathering => ⟨?_, holds.finished gathering⟩⟩
  exact (arrivals_eq holds.drawn holds.within (holds.gathering gathering)).symm

def sampleOpen (sender : Sender) (drawn : Nat) (tasks : List SendTask) (begun : Nat) (results : List Timed) :
    OpenLoop :=
  ⟨sender, drawn, offset (fun _ => 2) drawn, tasks, sampleShapes.drop begun, results⟩

theorem sampleOpen_reachable : ∃ timed,
    (openLoopLoadGen 2 sampleShapes (some 1) (fun _ => 2) 0).Reachable
      (sampleOpen .gathering 1 [.returned 0] 1 [timed], 4) := by
  let chat : RequestShape := ⟨"chat", "hello", 64, 1⟩
  let late := { timed 4 0 0 chat sampleAnswer with scheduledAt := some (0 - 0) }
  have create : nextArrival 2 (some 1) (fun _ => 2) 0 0 (sampleOpen .looping 0 [] 0 []) =
      sampleOpen .looping 1 [.created 0] 0 [] := by
    simp [nextArrival, createTask, sampleOpen, offset]
  have stop : nextArrival 2 (some 1) (fun _ => 2) 0 1 (sampleOpen .looping 1 [.created 0] 0 []) =
      sampleOpen .gathering 1 [.created 0] 0 [] := by
    simp [nextArrival, sampleOpen, offset]
  have first : OpenStep 2 (some 1) (fun _ => 2) 0 (sampleOpen .looping 0 [] 0 []) ⟨none, [0]⟩
      (sampleOpen .looping 1 [.created 0] 0 []) := create ▸ .arrive rfl
  have second : OpenStep 2 (some 1) (fun _ => 2) 0 (sampleOpen .looping 1 [.created 0] 0 []) ⟨none, [1]⟩
      (sampleOpen .gathering 1 [.created 0] 0 []) := stop ▸ .arrive rfl
  have third : OpenStep 2 (some 1) (fun _ => 2) 0 (sampleOpen .gathering 1 [.created 0] 0 []) ⟨none, [2]⟩
      (sampleOpen .gathering 1 [.awaiting 0 chat 2] 1 []) :=
    .begin (show _ = [] ++ SendTask.created 0 :: [] from rfl)
      (show _ = (.awaiting 0 chat 2, sampleOpen .gathering 1 [.created 0] 1 []) from rfl)
  have fourth : OpenStep 2 (some 1) (fun _ => 2) 0 (sampleOpen .gathering 1 [.awaiting 0 chat 2] 1 [])
      ⟨some sampleAnswer, [4]⟩ (sampleOpen .gathering 1 [.returned 0] 1 [late]) :=
    .resume (show _ = [] ++ SendTask.awaiting 0 chat 2 :: [] from rfl) (by unfold ReadBetween; decide)
  have start : (openLoopLoadGen 2 sampleShapes (some 1) (fun _ => 2) 0).Reachable
      (sampleOpen .looping 0 [] 0 [], 0) := .initial ⟨rfl, rfl⟩
  have created := Machine.timed_next start _ 1 (by decide) (by decide +kernel) first
  have cut := Machine.timed_next created _ 2 (by decide) (by decide +kernel) second
  have sent := Machine.timed_next cut _ 3 (by decide) (by decide +kernel) third
  exact ⟨late, Machine.timed_next sent _ 4 (by decide) (by decide +kernel) fourth⟩

theorem open_loop_on_schedule_sample : ∃ timed : Timed,
    Scheduled 0 4 timed ∧ [timed.scheduledAt].Perm [some (offset (fun _ => 2) 0)] := by
  obtain ⟨timed, reachable⟩ := sampleOpen_reachable
  have schedule := open_loop_on_schedule 2 sampleShapes (some 1) (fun _ => 2) 0 (fun _ => by decide)
    (by decide) reachable
  obtain ⟨-, -, -, -, scheduled, finished⟩ := schedule
  obtain ⟨count, returned⟩ := finished rfl
  have all := (returned (by simp [sampleOpen])).1
  rw [← count] at all
  exact ⟨timed, scheduled timed (by simp [sampleOpen]), all⟩

end LlmServing.LoadGen
