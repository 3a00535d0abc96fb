import LlmServing.Engine.Delivery
import LlmServing.Engine.Iteration
import LlmServing.Observability.Requests

/-!
# The stamps on requests, and what the exporter has counted

Runs beside a clock that never goes back. `time.monotonic()` is read by the submitting thread before a
request reaches the scheduler thread, and by the scheduler thread within each of its own steps.
-/

namespace LlmServing.Engine

open Scheduling Runner Observability Lib

variable {α ρ : Type} [KVAllocator α]

/-- The readings an event takes lie between the clock before it and the clock after it. -/
def Event.Reads : Event → Time → Time → Prop
  | .arrive req, _, stop => req.arrivalTime ≤ stop
  | .schedule now, start, stop => start ≤ now ∧ now ≤ stop
  | .forward _, _, _ => True
  | .apply now, start, stop => start ≤ now ∧ now ≤ stop
  | .abortAll, _, _ => True

def timedLoop (runner : ModelRunner ρ) (scheduler : Scheduler) (allocator : α) (start : ρ) (origin : Time) :
    Machine (EngineState α ρ × Time) Event :=
  (loop runner scheduler allocator start).timed Event.Reads origin

/-- The registry after the calls of `record_request` so far: `_end` makes one for each sequence. -/
def exported (s : EngineState α ρ) : Registry :=
  (s.ended.map (·.metrics)).foldl recordRequest {}

/-! ## Stamps -/

structure OnTime (clock : Time) (seq : Sequence) : Prop where
  stamped : Stamped seq.metrics
  enqueued : seq.metrics.enqueueTime ≤ clock
  past : ∀ time ∈ seq.metrics.tokenTimes, time ≤ clock
  each : seq.metrics.tokenTimes.length = seq.generatedTokens.length

structure Awaiting (clock : Time) (seq : Sequence) : Prop extends OnTime clock seq where
  admitted : ∀ time ∈ seq.metrics.admitTime, time ≤ clock
  unfinished : seq.metrics.doneTime = none

structure Underway (clock : Time) (seq : Sequence) : Prop extends Awaiting clock seq where
  stamp : seq.metrics.admitTime.isSome

variable {clock now stop : Time} {seq : Sequence}

theorem OnTime.later (onTime : OnTime clock seq) (le : clock ≤ stop) : OnTime stop seq :=
  ⟨onTime.stamped, onTime.enqueued.trans le, fun time member => (onTime.past time member).trans le,
    onTime.each⟩

theorem Awaiting.later (awaiting : Awaiting clock seq) (le : clock ≤ stop) : Awaiting stop seq :=
  ⟨awaiting.toOnTime.later le, fun time member => (awaiting.admitted time member).trans le,
    awaiting.unfinished⟩

theorem Underway.later (admitted : Underway clock seq) (le : clock ≤ stop) : Underway stop seq :=
  ⟨admitted.toAwaiting.later le, admitted.stamp⟩

theorem OnTime.congr {seq' : Sequence} (onTime : OnTime clock seq) (metrics : seq'.metrics = seq.metrics)
    (tokens : seq'.generatedTokens = seq.generatedTokens) : OnTime clock seq' := by
  obtain ⟨stamped, enqueued, past, each⟩ := onTime
  rw [← metrics] at stamped enqueued past each
  exact ⟨stamped, enqueued, past, each.trans (congrArg List.length tokens.symm)⟩

theorem Awaiting.congr {seq' : Sequence} (awaiting : Awaiting clock seq)
    (metrics : seq'.metrics = seq.metrics) (tokens : seq'.generatedTokens = seq.generatedTokens) :
    Awaiting clock seq' :=
  ⟨awaiting.toOnTime.congr metrics tokens, metrics ▸ awaiting.admitted, metrics ▸ awaiting.unfinished⟩

theorem Underway.congr {seq' : Sequence} (admitted : Underway clock seq)
    (metrics : seq'.metrics = seq.metrics) (tokens : seq'.generatedTokens = seq.generatedTokens) :
    Underway clock seq' :=
  ⟨admitted.toAwaiting.congr metrics tokens, metrics ▸ admitted.stamp⟩

theorem awaiting_ingress {req : IngressRequest} (arrived : req.arrivalTime ≤ clock) :
    Awaiting clock (sequenceFromIngress req) where
  stamped :=
    { admitted := nofun
      first := rfl
      sorted := .nil
      tokens := List.forall_mem_nil _
      done := nofun }
  enqueued := arrived
  past := List.forall_mem_nil _
  each := rfl
  admitted := nofun
  unfinished := rfl

theorem Awaiting.stampAdmission (awaiting : Awaiting clock seq) (le : clock ≤ now) :
    Underway now (stampAdmission now seq) := by
  obtain ⟨⟨⟨admitted, first, sorted, tokens, done⟩, enqueued, past, each⟩, stamps, unfinished⟩ := awaiting
  have kept : ∀ entered ∈ seq.metrics.admitTime,
      some (seq.metrics.admitTime.getD now) = some entered := by
    intro entered stamp
    rw [Option.mem_def.mp stamp]
    rfl
  refine ⟨⟨⟨⟨?_, first, sorted, ?_, done⟩, enqueued.trans le, fun time member => (past time member).trans le,
    each⟩, ?_, unfinished⟩, rfl⟩
  · rintro entered ⟨⟩
    cases stamp : seq.metrics.admitTime with
    | none => exact enqueued.trans le
    | some entered => exact admitted entered stamp
  · intro time member
    obtain ⟨entered, stamp, before⟩ := tokens time member
    exact ⟨entered, kept entered stamp, before⟩
  · rintro entered ⟨⟩
    cases stamp : seq.metrics.admitTime with
    | none => exact le_refl now
    | some entered => exact (stamps entered stamp).trans le

theorem Underway.recordToken (admitted : Underway clock seq) (le : clock ≤ now) (token : Token)
    (finished : Bool) : OnTime now (recordToken now token finished seq) := by
  obtain ⟨⟨⟨⟨enqueue, first, sorted, tokens, done⟩, enqueued, past, each⟩, stamps, unfinished⟩, stamp⟩ :=
    admitted
  obtain ⟨entered, stamped⟩ := Option.isSome_iff_exists.mp stamp
  refine ⟨⟨enqueue, ?_, ?_, ?_, ?_⟩, enqueued.trans le, ?_, ?_⟩
  · show some (seq.metrics.firstTokenTime.getD now) = (seq.metrics.tokenTimes ++ [now]).head?
    rw [first]
    cases seq.metrics.tokenTimes <;> rfl
  · refine List.pairwise_append.mpr ⟨sorted, List.pairwise_singleton _ _, fun time member last here => ?_⟩
    rw [List.mem_singleton.mp here]
    exact (past time member).trans le
  · intro time member
    rcases List.mem_append.mp member with member | member
    · exact tokens time member
    · rw [List.mem_singleton.mp member]
      exact ⟨entered, stamped, (stamps entered stamped).trans le⟩
  · intro time finish
    have here : time = now := by
      cases finished with
      | false => cases finish.symm.trans unfinished
      | true => exact (Option.some.inj finish).symm
    rw [here]
    exact List.getLast?_concat
  · intro time member
    rcases List.mem_append.mp member with member | member
    · exact (past time member).trans le
    · exact (List.mem_singleton.mp member).le
  · show (seq.metrics.tokenTimes ++ [now]).length = (seq.generatedTokens ++ [token]).length
    rw [List.length_append, List.length_append, each]
    rfl

theorem Underway.recordUnfinished (admitted : Underway clock seq) (le : clock ≤ now) (token : Token) :
    Underway now (Scheduling.recordToken now token false seq) :=
  ⟨⟨admitted.recordToken le token false, fun time stamp => (admitted.admitted time stamp).trans le,
    admitted.unfinished⟩, admitted.stamp⟩

structure Punctual (clock : Time) (s : EngineState α ρ) : Prop where
  running : ∀ seq ∈ s.running, Underway clock seq
  waiting : ∀ seq ∈ s.waiting, Awaiting clock seq
  ended : ∀ seq ∈ s.ended, OnTime clock seq

variable {runner : ModelRunner ρ} {scheduler : Scheduler} {s t : EngineState α ρ} {event : Event}

omit [KVAllocator α] in
theorem Punctual.later (punctual : Punctual clock s) (le : clock ≤ stop) : Punctual stop s :=
  ⟨fun seq member => (punctual.running seq member).later le,
    fun seq member => (punctual.waiting seq member).later le,
    fun seq member => (punctual.ended seq member).later le⟩

theorem timekeeping (scheduler : Scheduler) (now : Time) :
    PlanRule (α := α) scheduler now (fun _ => True) (fun _ _ => Underway now) (fun _ => Awaiting now) where
  grant _ _ := trivial
  release _ := trivial
  decode _ _ admitted _ := admitted.congr rfl rfl
  preempt _ admitted := admitted.toAwaiting.congr rfl rfl
  «continue» _ _ admitted _ _ := admitted.congr rfl rfl
  admission _ awaiting _ _ _ := (awaiting.stampAdmission (le_refl now)).congr rfl rfl
  skip awaiting := awaiting.congr rfl rfl

theorem onTime_released {seqs : List Sequence} (each : ∀ seq ∈ seqs, OnTime clock seq) :
    ∀ seq ∈ (released seqs s).finished, OnTime clock seq := by
  intro seq member
  obtain ⟨source, found, a, rfl⟩ := released_finished member
  exact (each source found).congr rfl rfl

theorem Punctual.schedule (ok : Consistent runner s) (punctual : Punctual now s) :
    Punctual now (schedule runner scheduler now s) := by
  have holds := ok.holds (timekeeping scheduler now) trivial punctual.running punctual.waiting
  refine ⟨fun seq member => ?_, fun seq member => ?_, fun seq member => ?_⟩
  · rw [schedule_running _ _ _ ok.live_distinct] at member
    exact holds.running seq member
  · rw [schedule_waiting] at member
    exact holds.waiting seq member
  · rw [schedule_ended] at member
    rcases List.mem_append.mp member with member | member
    · exact punctual.ended seq member
    · exact onTime_released (fun seq member => (holds.rejected seq member).toOnTime) seq member

theorem Punctual.applyOutcome (ok : Consistent runner s) (punctual : Punctual now s)
    {flight : InFlight} {outcome : Outcome} (inFlight : s.inFlight = some flight)
    (done : flight.outcome = some outcome) : Punctual now (applyOutcome runner now flight outcome s) := by
  cases outcome with
  | results results =>
      obtain ⟨folded, -, spec, applied⟩ := applyOutcome_results now ok inFlight done
      rw [applied]
      refine ⟨?_, punctual.waiting, fun seq member => ?_⟩
      · exact spec.running_keeps punctual.running fun seq token admitted =>
          admitted.recordUnfinished (le_refl now) token
      · rcases List.mem_append.mp member with member | member
        · exact punctual.ended seq member
        · rcases spec.finished seq member with member | ⟨source, found, token, a, -, rfl⟩
          · cases member
          · exact ((punctual.running source found).recordToken (le_refl now) token true).congr rfl rfl
  | failed =>
      rw [applyOutcome_failed]
      refine ⟨fun seq member => ?_, punctual.waiting, fun seq member => ?_⟩
      · rw [failed_running ok inFlight] at member
        exact punctual.running seq (List.mem_of_mem_filter member)
      · rcases List.mem_append.mp member with member | member
        · exact punctual.ended seq member
        · refine onTime_released (fun seq member => ?_) seq member
          have running := mem_failedBatch (ok.flight flight inFlight) member
          exact (punctual.running seq running).toOnTime
  | deviceLost => exact ⟨punctual.running, punctual.waiting, punctual.ended⟩

theorem Punctual.step (ok : Consistent runner s) (punctual : Punctual clock s) (le : clock ≤ stop)
    (reads : event.Reads clock stop) (step : Step runner scheduler s event t) : Punctual stop t := by
  cases step with
  | arrive _ _ _ =>
      have later := punctual.later le
      refine ⟨later.running, fun seq member => ?_, later.ended⟩
      rcases List.mem_append.mp member with member | member
      · exact later.waiting seq member
      · rw [List.mem_singleton.mp member]
        exact awaiting_ingress reads
  | schedule _ _ => exact ((punctual.later reads.1).schedule ok).later reads.2
  | forward _ _ _ =>
      have later := punctual.later le
      exact ⟨later.running, later.waiting, later.ended⟩
  | apply inFlight done =>
      exact ((punctual.later reads.1).applyOutcome ok inFlight done).later reads.2
  | abortAll failing =>
      have later := punctual.later le
      rw [abortAll_eq (ok.serving (by simp [failing]))]
      refine ⟨fun seq member => ?_, List.forall_mem_nil _, fun seq member => ?_⟩
      · rw [show _ = [] from abortAll_running ok] at member
        cases member
      · rcases List.mem_append.mp member with member | member
        · exact later.ended seq member
        · refine onTime_released (fun seq member => ?_) seq member
          rcases List.mem_append.mp member with member | member
          · exact (later.running seq member).toOnTime
          · exact (later.waiting seq member).toOnTime

theorem punctual {allocator : α} {start : ρ} {origin : Time} {s : EngineState α ρ} {clock : Time}
    (reachable : (timedLoop runner scheduler allocator start origin).Reachable (s, clock)) : Punctual clock s := by
  refine reachable.invariant (P := fun s => Punctual s.2 s.1) ?_ ?_
  · rintro ⟨s, clock⟩ ⟨rfl, -⟩
    exact ⟨List.forall_mem_nil _, List.forall_mem_nil _, List.forall_mem_nil _⟩
  · rintro ⟨s, clock⟩ event ⟨t, stop⟩ before holds ⟨le, reads, step⟩
    exact holds.step (consistent (Machine.timed_reachable before)) le reads step

/-- Of every request the engine holds or has ended, in every run: its stamps are in order and in the
past, there is one for each token it generated, no latency is negative, and its stages make up its total
latency once it has finished. -/
theorem latencies_add_up (runner : ModelRunner ρ) (scheduler : Scheduler) (allocator : α) (start : ρ)
    (origin : Time) {s : EngineState α ρ} {clock : Time}
    (reachable : (timedLoop runner scheduler allocator start origin).Reachable (s, clock)) {seq : Sequence}
    (member : seq ∈ s.running ++ s.waiting ++ s.ended) :
    OnTime clock seq ∧ (∀ latency ∈ scheduleLatency seq.metrics, 0 ≤ latency) ∧
      (∀ latency ∈ prefillLatency seq.metrics, 0 ≤ latency) ∧
      (∀ gap ∈ interTokenLatencies seq.metrics, 0 ≤ gap) ∧
      ∀ total ∈ totalLatency seq.metrics, ∃ schedule prefill,
        scheduleLatency seq.metrics = some schedule ∧ prefillLatency seq.metrics = some prefill ∧
        total = schedule + prefill + (interTokenLatencies seq.metrics).sum := by
  have onTime : OnTime clock seq := by
    have holds := punctual reachable
    rcases List.mem_append.mp member with member | member
    · rcases List.mem_append.mp member with member | member
      · exact (holds.running seq member).toOnTime
      · exact (holds.waiting seq member).toOnTime
    · exact holds.ended seq member
  obtain ⟨schedule, prefill, interToken⟩ := onTime.stamped.nonneg
  exact ⟨onTime, schedule, prefill, interToken, fun total done => onTime.stamped.total done⟩

/-! ## The exporter -/

omit [KVAllocator α] in
theorem exported_eq (s : EngineState α ρ) :
    exported s =
      { success := s.ended.countP (·.metrics.doneTime.isSome)
        error := s.ended.countP (! ·.metrics.doneTime.isSome)
        schedule := Stage.schedule.values (s.ended.map (·.metrics))
        prefill := Stage.prefill.values (s.ended.map (·.metrics))
        interToken := Stage.interToken.values (s.ended.map (·.metrics))
        total := Stage.total.values (s.ended.map (·.metrics)) } := by
  rw [exported, recordRequest_values, List.countP_map, List.countP_map]
  rfl

theorem Closed.done_mem {callbacks : List Callback} (closed : Closed callbacks seq) :
    .terminal .done ∈ itemsFor seq.seqId callbacks ↔ seq.metrics.doneTime.isSome := by
  rw [closed, terminalOf]
  cases seq.metrics.doneTime <;> simp

theorem Closed.aborted_mem {callbacks : List Callback} (closed : Closed callbacks seq) :
    .terminal .aborted ∈ itemsFor seq.seqId callbacks ↔ ¬seq.metrics.doneTime.isSome := by
  rw [closed, terminalOf]
  cases seq.metrics.doneTime <;> simp

theorem length_totals (all : List RequestMetrics) :
    (Stage.total.values all).length = all.countP (·.doneTime.isSome) := by
  induction all with
  | nil => rfl
  | cons metrics rest ih =>
      rw [List.countP_cons, ← ih]
      cases done : metrics.doneTime <;> simp [Stage.values, totalLatency, done, Nat.add_comm]

theorem length_dispatched {callbacks : List Callback} {ended : List Sequence}
    (onTime : ∀ seq ∈ ended, OnTime clock seq) (closed : ∀ seq ∈ ended, Closed callbacks seq) :
    (Stage.prefill.values (ended.map (·.metrics))).length +
        (Stage.interToken.values (ended.map (·.metrics))).length + ended.length =
      (ended.map fun seq => (itemsFor seq.seqId callbacks).length).sum := by
  induction ended with
  | nil => rfl
  | cons seq rest ih =>
      obtain ⟨here, others⟩ := List.forall_mem_cons.mp onTime
      obtain ⟨shut, closed⟩ := List.forall_mem_cons.mp closed
      have tokens := (length_prefillLatency here.stamped).trans here.each
      have items : (itemsFor seq.seqId callbacks).length = seq.generatedTokens.length + 1 := by
        rw [shut, List.length_append, List.length_map]
        rfl
      have later := ih others closed
      rw [List.map_cons, List.map_cons, List.sum_cons, List.length_cons, items, ← later, ← tokens]
      simp only [Stage.values, List.flatMap_cons, List.length_append]
      omega

structure Reconciled (s : EngineState α ρ) : Prop where
  success : (exported s).success =
    s.ended.countP fun seq => decide (.terminal .done ∈ itemsFor seq.seqId s.callbacks)
  error : (exported s).error =
    s.ended.countP fun seq => decide (.terminal .aborted ∈ itemsFor seq.seqId s.callbacks)
  ended : (exported s).success + (exported s).error = s.ended.length
  total : (exported s).total.length = (exported s).success
  tokens : (exported s).prefill.length + (exported s).interToken.length + s.ended.length =
    (s.ended.map fun seq => (itemsFor seq.seqId s.callbacks).length).sum
  spent : (exported s).total.sum ≤
    (exported s).schedule.sum + (exported s).prefill.sum + (exported s).interToken.sum
  whole : (exported s).error = 0 → (exported s).total.sum =
    (exported s).schedule.sum + (exported s).prefill.sum + (exported s).interToken.sum

/-- In every run the exporter counts a success for each client that was sent DONE and an error for each
that was sent ABORTED, has observed one stage for each token sent, and its stages make up the total
latencies it shows, up to what aborted requests had spent. -/
theorem exporter_accounts (runner : ModelRunner ρ) (scheduler : Scheduler) (allocator : α) (start : ρ)
    (origin : Time) {s : EngineState α ρ} {clock : Time}
    (reachable : (timedLoop runner scheduler allocator start origin).Reachable (s, clock)) : Reconciled s := by
  have onTime := (punctual reachable).ended
  have closed := (delivered (Machine.timed_reachable reachable)).ended
  obtain ⟨spent, whole⟩ := sum_total_le (show ∀ metrics ∈ s.ended.map (·.metrics), Stamped metrics from
    List.forall_mem_map.mpr fun seq member => (onTime seq member).stamped)
  have eq := exported_eq s
  constructor
  · rw [eq]
    refine List.countP_congr fun seq member => ?_
    rw [decide_eq_true_iff, (closed seq member).done_mem]
  · rw [eq]
    refine List.countP_congr fun seq member => ?_
    rw [decide_eq_true_iff, (closed seq member).aborted_mem]
    simp
  · rw [eq, List.length_eq_countP_add_countP (fun seq : Sequence => seq.metrics.doneTime.isSome)]
    refine congrArg (_ + ·) (List.countP_congr fun seq member => ?_)
    simp
  · rw [eq]
    exact (length_totals _).trans List.countP_map
  · rw [eq]
    exact length_dispatched onTime closed
  · rw [eq]
    exact spent
  · intro none
    rw [eq] at none ⊢
    refine whole (List.forall_mem_map.mpr fun seq member => ?_)
    have finished := List.countP_eq_zero.mp none seq member
    exact Option.isSome_iff_ne_none.mpr (by simpa using finished)

theorem hfRun_timed (n : Nat) :
    (timedLoop (hfRunner [] List.length) sharedScheduler (samplePool 4 1) (fun _ => []) 0).Reachable
      (hfRun n, n) := by
  let start : EngineState BlockAllocator Caches := { allocator := samplePool 4 1, runner := fun _ => [] }
  induction n with
  | zero =>
      have empty : (timedLoop (hfRunner [] List.length) sharedScheduler (samplePool 4 1)
          (fun _ => []) 0).Reachable (start, 0) := .initial ⟨rfl, rfl⟩
      have first := Machine.timed_next (t := arrived [sampleRequest 0 5 [6, 7] 3] start) empty
        (.arrive (sampleRequest 0 5 [6, 7] 3)) 0 (le_refl _) (le_refl (0 : Time))
        (.arrive rfl (by decide) (by decide))
      have second := Machine.timed_next (t := hfRun 0) first (.arrive (sampleRequest 1 8 [9] 3)) 0
        (le_refl _) (le_refl (0 : Time)) (.arrive rfl (by decide) (by decide))
      rw [Nat.cast_zero]
      exact second
  | succ n ih =>
      obtain ⟨-, idle, serving⟩ := hfRun_reachable n
      have later : (n : Time) ≤ n + 1 := by linarith
      have scheduled := Machine.timed_next ih (.schedule (n + 1)) (n + 1) later ⟨later, le_refl _⟩
        (.schedule idle serving)
      rw [Nat.cast_add_one]
      rcases iteration_steps idle fun flight inFlight =>
          (forwardPlanned_computed [] List.length inFlight).2 with same | ⟨outcome, middle, forward, apply⟩
      · rw [hfRun, sharedRun, same]
        exact scheduled
      · have computed := Machine.timed_next scheduled (.forward outcome) (n + 1) (le_refl _) trivial forward
        exact Machine.timed_next computed (.apply (n + 1)) (n + 1) (le_refl _) ⟨le_refl _, le_refl _⟩ apply

theorem latencies_add_up_sample : ∃ seq ∈ (hfRun 8).ended, seq.seqId = 1 ∧ ∃ schedule prefill,
    scheduleLatency seq.metrics = some schedule ∧ prefillLatency seq.metrics = some prefill ∧
      8 = schedule + prefill + (interTokenLatencies seq.metrics).sum := by
  have ended : (hfRun 8).ended.map (fun seq => (seq.seqId, totalLatency seq.metrics)) =
      [(0, some 5), (1, some 8)] := by decide +kernel
  have named : (1, some 8) ∈ (hfRun 8).ended.map fun seq => (seq.seqId, totalLatency seq.metrics) := by
    rw [ended]
    exact List.mem_cons_of_mem _ List.mem_cons_self
  obtain ⟨seq, member, same⟩ := List.mem_map.mp named
  obtain ⟨id, total⟩ := Prod.mk.inj same
  exact ⟨seq, member, id, (latencies_add_up _ _ _ _ _ (hfRun_timed 8)
    (List.mem_append_right _ member)).2.2.2.2 8 total⟩

theorem exporter_accounts_sample : Reconciled (hfRun 8) ∧ (exported (hfRun 8)).success = 2 :=
  ⟨exporter_accounts _ _ _ _ _ (hfRun_timed 8), by decide +kernel⟩

end LlmServing.Engine
