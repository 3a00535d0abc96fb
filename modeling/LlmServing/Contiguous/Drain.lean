import LlmServing.Contiguous.Buffers
import LlmServing.Engine.Iteration
import LlmServing.Engine.Plans

/-!
# Runs drain

Without arrivals and failures every iteration gets some of the live requests' prefill and generation
done, so they all come to an end.
-/

namespace LlmServing.Contiguous

open Scheduling Runner Engine Lib
open ContiguousAllocator (reservation)

def workLeft (seq : Sequence) : Nat :=
  (seq.samplingParams.maxTokens - seq.generatedTokens.length) +
    if seq.status = .decoding then 0 else seq.numTokens - seq.prefillProgress

def work (seqs : List Sequence) : Nat := (seqs.map workLeft).sum

@[simp] theorem work_nil : work [] = 0 := rfl

@[simp] theorem work_cons (seq : Sequence) (seqs : List Sequence) :
    work (seq :: seqs) = workLeft seq + work seqs := rfl

@[simp] theorem work_append (first second : List Sequence) :
    work (first ++ second) = work first + work second := by simp [work]

@[simp] theorem work_skipHead (seqs : List Sequence) : work (skipHead seqs) = work seqs := by
  cases seqs <;> rfl

theorem TokensLeft.workLeft_pos {seq : Sequence} (left : TokensLeft seq) : 0 < workLeft seq := by
  unfold TokensLeft at left
  unfold workLeft
  omega

theorem workLeft_advancePrefill {seq : Sequence} (table : BlockTable) {chunk : Nat}
    (status : seq.status ≠ .decoding) (le : chunk ≤ seq.numTokens - seq.prefillProgress)
    (positive : 0 < chunk) :
    workLeft (advancePrefill { seq with blockTable := table } chunk) + chunk = workLeft seq := by
  have total : (advancePrefill { seq with blockTable := table } chunk).numTokens = seq.numTokens := rfl
  unfold workLeft
  rw [total, if_neg status]
  simp only [advancePrefill]
  by_cases last : seq.prefillProgress + chunk = seq.numTokens
  · have last' : seq.prefillProgress + chunk =
        ({ seq with blockTable := table } : Sequence).numTokens := last
    simp only [last', if_true]
    omega
  · have last' : ¬seq.prefillProgress + chunk =
        ({ seq with blockTable := table } : Sequence).numTokens := last
    simp only [last', if_false, reduceCtorEq]
    omega

variable {ρ : Type} {runner : ModelRunner ρ} {scheduler : Scheduler} {now : Time} {capacity : Nat}

theorem draining (scheduler : Scheduler) (now : Time) :
    PlanRule (α := ContiguousAllocator) scheduler now (fun _ => (True ∧ True) ∧ True)
      (fun _ entry seq => (RunningOk entry seq ∧ TokensLeft seq) ∧
        seq.blockTable.reservedTokens = reservation seq)
      (fun _ seq => (WaitingOk seq ∧ TokensLeft seq) ∧ seq.blockTable.reservedTokens = 0) :=
  ((bookkeeping scheduler now).and (tokensLeft_planned scheduler now)).and
    (reserving scheduler now)

def Worked (capacity total : Nat) (st : Planning ContiguousAllocator) : Prop :=
  st.allocator.capacityTokens = capacity ∧
    work (st.running ++ st.waiting) + prefillTokens st.plan ≤ total ∧
    ∀ seq ∈ st.plan.rejected, capacity < reservation seq

theorem worked_planStep {total : Nat} {st st' : Planning ContiguousAllocator}
    (step : PlanStep scheduler now st st')
    (holds : st.Holds (fun _ => (True ∧ True) ∧ True)
      (fun _ entry seq => (RunningOk entry seq ∧ TokensLeft seq) ∧
        seq.blockTable.reservedTokens = reservation seq)
      (fun _ seq => (WaitingOk seq ∧ TokensLeft seq) ∧ seq.blockTable.reservedTokens = 0))
    (worked : Worked capacity total st) : Worked capacity total st' := by
  obtain ⟨size, less, rejected⟩ := worked
  have reserved (seq : Sequence) (member : seq ∈ st.running) :
      seq.blockTable.reservedTokens ≠ 0 :=
    (holds.running seq member).2 ▸ (reservation_pos seq).ne'
  cases step with
  | @decode front behind waiting seq a a' plan table status unplanned granted =>
      rw [allocate_reserved (reserved seq (by simp))] at granted
      obtain ⟨rfl, rfl⟩ := Prod.mk.inj (Option.some.inj granted)
      refine ⟨size, ?_, rejected⟩
      rw [prefillTokens_add_decode]
      simpa [workLeft, status] using less
  | preempt unplanned served status refused =>
      rw [allocate_reserved (reserved _ served)] at refused
      cases refused
  | @«continue» front behind waiting seq a a' plan table budget chunk status unplanned positive same
      granted =>
      rw [allocate_reserved (reserved seq (by simp))] at granted
      obtain ⟨rfl, -⟩ := Prod.mk.inj (Option.some.inj granted)
      refine ⟨size, ?_, rejected⟩
      obtain ⟨⟨ok, -⟩, -⟩ := holds.running seq (by simp)
      rw [entryFor_eq_none.mpr unplanned] at ok
      have some : 0 < seq.numTokens - seq.prefillProgress := by
        rcases ok with ⟨-, -, -, inside⟩ | ⟨decoding, -⟩
        · omega
        · cases status.symm.trans decoding
      have chunked := workLeft_advancePrefill table (by rw [status]; decide)
        (same ▸ chunk_le scheduler _ budget) (same ▸ chunk_pos scheduler some positive)
      rw [prefillTokens_add_chunk]
      simp only [work_append, work_cons] at less ⊢
      omega
  | @reject before after running seq a plan unfit =>
      refine ⟨size, ?_, fun other member => ?_⟩
      · have same : prefillTokens { plan with rejected := plan.rejected ++ [seq] } =
            prefillTokens plan := prefillTokens_congr rfl
        rw [same]
        simp only [work_append, work_cons] at less ⊢
        omega
      · rcases List.mem_append.mp member with member | member
        · exact rejected other member
        · rw [List.mem_singleton.mp member, ← size]
          exact Nat.not_le.mp (of_decide_eq_false unfit)
  | @admission before after running seq a a' plan table budget chunk fits positive room same granted =>
      obtain ⟨⟨⟨waits, fresh, -⟩, -⟩, unreserved⟩ := holds.waiting seq (by simp)
      obtain ⟨-, rfl, -⟩ := allocate_unreserved unreserved granted
      refine ⟨size, ?_, rejected⟩
      have inside : chunk ≤ seq.numTokens - seq.prefillProgress := by
        rw [fresh, Nat.sub_zero]
        exact same ▸ chunk_le scheduler seq.numTokens budget
      have chunked := workLeft_advancePrefill table (by rw [waits]; decide) inside
        (same ▸ chunk_pos scheduler seq.numTokens_pos positive)
      have stamped (now : Time) (seq : Sequence) : workLeft (stampAdmission now seq) = workLeft seq :=
        rfl
      rw [prefillTokens_add_chunk]
      simp only [work_append, work_cons, work_nil, work_skipHead, stamped] at less ⊢
      omega

variable {s : EngineState ContiguousAllocator ρ}

theorem planned_worked (scheduler : Scheduler) (now : Time) (ok : Consistent runner s)
    (unspent : Unspent s) (reservations : Reservations capacity s) (idle : s.inFlight = none)
    (serving : s.phase = .serving) :
    Worked capacity (work (s.running ++ s.waiting)) (planned scheduler now s) := by
  refine ((draining scheduler now).schedulerStep_keeps
    (I := Worked capacity (work (s.running ++ s.waiting)))
    (fun _ _ step _ holds worked => worked_planStep step holds worked) ok.live_distinct
    ⟨⟨trivial, trivial⟩, trivial⟩ (fun seq member => ?_) (fun seq member => ?_)
    ⟨reservations.accounted.size, Nat.le_refl _, List.forall_mem_nil _⟩).2
  · exact ⟨⟨ok.idle serving idle seq member, unspent seq (List.mem_append_left _ member)⟩,
      reservations.running seq member⟩
  · exact ⟨⟨ok.waiting seq member, unspent seq (List.mem_append_right _ member)⟩,
      reservations.waiting seq member⟩

theorem planned_empty (now : Time) (budget : 0 < scheduler.tokenBudget)
    (room : 0 < scheduler.maxRunning) (ok : Consistent runner s)
    (reservations : Reservations capacity s) (idle : s.inFlight = none)
    (serving : s.phase = .serving) (empty : (planned scheduler now s).plan.entries = []) :
    (planned scheduler now s).running = [] ∧ (planned scheduler now s).waiting = [] := by
  have granted (seq : Sequence) (member : seq ∈ s.running) (n reserve : Nat) :
      allocate s.allocator seq n reserve ≠ none := by
    rw [allocate_reserved (reservations.running seq member ▸ (reservation_pos seq).ne')]
    exact Option.some_ne_none _
  simp only [planned, schedulerStep, planPrefillContinuations, planAdmissions] at empty ⊢
  have decoded : (planDecodes ⟨s.running, s.waiting, s.allocator, {}⟩).plan.entries = [] := by
    by_contra some
    exact planAdmissionsFrom_entries (continuePrefills_entries some) empty
  obtain ⟨prefilling, same⟩ := planDecodesFrom_idle [] s.running s.waiting s.allocator {}
    (fun seq member _ => granted seq member 1 0) decoded
  have same : planDecodes ⟨s.running, s.waiting, s.allocator, {}⟩ =
    ⟨s.running, s.waiting, s.allocator, {}⟩ := same
  simp only [same] at empty ⊢
  cases running : s.running with
  | cons head rest =>
      have member : head ∈ s.running := by simp [running]
      have status : head.status = .prefilling := by
        rcases ok.idle serving idle head member with ok | ok
        · exact ok.1
        · exact absurd ok.1 (prefilling head member)
      rw [running] at empty
      exact absurd empty (planAdmissionsFrom_entries
        (continuePrefills_granted status budget (granted head member _ 0)))
  | nil =>
      have unused : s.allocator.usedTokens = 0 := by
        rw [reservations.accounted.used, running, reservedBy_nil]
      rw [running] at empty
      simp only [continuePrefills, admissionCap_nil] at empty ⊢
      refine planAdmissionsFrom_idle scheduler now room budget (fun seq member fits n _ => ?_) empty
      have fits : reservation seq ≤ s.allocator.capacityTokens := of_decide_eq_true fits
      show ContiguousAllocator.allocate s.allocator seq n 0 ≠ none
      rw [ContiguousAllocator.allocate]
      simp only [reservations.waiting seq member, unused, if_true]
      rw [if_neg (by omega)]
      exact Option.some_ne_none _

/-! ## The results of an iteration -/

theorem workLeft_recordToken {seq : Sequence} (left : TokensLeft seq)
    (status : seq.status = .decoding) (now : Time) (token : Token) :
    workLeft (recordToken now token false seq) < workLeft seq := by
  have same : (recordToken now token false seq).status = .decoding := status
  unfold TokensLeft at left
  unfold workLeft
  rw [if_pos same, if_pos status]
  simp only [recordToken, List.length_append, List.length_singleton]
  omega

theorem work_filterMap (after : Sequence → Option Sequence) (seqs : List Sequence) :
    work (seqs.filterMap after) = (seqs.map fun seq => ((after seq).map workLeft).getD 0).sum := by
  induction seqs with
  | nil => rfl
  | cons seq rest ih =>
      cases left : after seq with
      | none => simpa [left] using ih
      | some seq' => simpa [left] using ih

theorem status_of_named (ok : Consistent runner s) {flight : InFlight}
    (inFlight : s.inFlight = some flight) {results : IterationResults}
    (outcome : flight.outcome = some (.results results)) {seq : Sequence} (member : seq ∈ s.running)
    (named : seq.seqId ∈ results.map (·.1)) : seq.status = .decoding := by
  have flightOk := ok.flight flight inFlight
  have bookkept := ok.running (ok.serving_of_flight inFlight)
  rw [EngineState.plan, inFlight, Option.map_some, Option.getD_some] at bookkept
  rw [flightOk.results_ids outcome] at named
  exact (mem_owed_ids flightOk ok.running_distinct bookkept member).mp named

theorem workLeft_afterResults (ok : Consistent runner s) (unspent : Unspent s) {flight : InFlight}
    (inFlight : s.inFlight = some flight) {results : IterationResults}
    (outcome : flight.outcome = some (.results results)) (now : Time) {seq : Sequence}
    (member : seq ∈ s.running) :
    ((afterResults now results seq).map workLeft).getD 0 ≤ workLeft seq ∧
      (seq.seqId ∈ results.map (·.1) →
        ((afterResults now results seq).map workLeft).getD 0 < workLeft seq) := by
  have tokens : TokensLeft seq := unspent seq (List.mem_append_left _ member)
  cases left : afterResults now results seq with
  | none => exact ⟨Nat.zero_le _, fun _ => TokensLeft.workLeft_pos tokens⟩
  | some seq' =>
      rcases afterResults_cases left with ⟨absent, rfl⟩ | ⟨token, named, rfl⟩
      · exact ⟨Nat.le_refl _, fun named => absurd named absent⟩
      · have less := workLeft_recordToken tokens
          (status_of_named ok inFlight outcome member (List.mem_map_of_mem named)) now token
        exact ⟨less.le, fun _ => less⟩

theorem prefillTokens_pos (ok : Consistent runner s) {flight : InFlight}
    (inFlight : s.inFlight = some flight) (nothing : owed flight.plan flight.seqs = []) :
    0 < prefillTokens flight.plan := by
  have batchOk := ok.batchOk inFlight
  obtain ⟨entry, rest, entries⟩ := List.exists_cons_of_ne_nil (ok.flight flight inFlight).nonempty
  have planned : entry ∈ (batch flight.plan flight.seqs).map (·.1) := by
    rw [map_fst_batch batchOk.present, entries]
    exact List.mem_cons_self
  obtain ⟨⟨_, seq⟩, member, rfl⟩ := List.mem_map.mp planned
  rename_i entry
  have unowed : ¬owesToken entry seq = true := fun owes => by
    have named : seq ∈ owed flight.plan flight.seqs :=
      List.mem_map.mpr ⟨(entry, seq), List.mem_filter.mpr ⟨member, owes⟩, rfl⟩
    rw [nothing] at named
    cases named
  have chunk : entry.isPrefillChunk = true := by
    by_contra decode
    exact unowed (by simp [owesToken, decode])
  have positive : 0 < entry.nTokens := by
    have bookkept : RunningOk (some entry) seq := batchOk.bookkept _ member
    simp only [RunningOk, chunk, if_true] at bookkept
    exact bookkept.2.1
  have counted : entry.nTokens ∈ (prefillEntries flight.plan).map (·.nTokens) :=
    List.mem_map_of_mem (List.mem_filter.mpr ⟨(mem_batch.mp member).1, chunk⟩)
  exact positive.trans_le (List.le_sum_of_mem counted)

theorem work_results (ok : Consistent runner s) (unspent : Unspent s) {flight : InFlight}
    (inFlight : s.inFlight = some flight) {results : IterationResults}
    (outcome : flight.outcome = some (.results results)) {folded : Folding ContiguousAllocator}
    (spec : Folded now results ⟨s.running, s.allocator, []⟩ folded) :
    work folded.running < work s.running + prefillTokens flight.plan := by
  have each (seq : Sequence) (member : seq ∈ s.running) :=
    workLeft_afterResults ok unspent inFlight outcome now member
  rw [spec.running, work_filterMap]
  cases named : results with
  | nil =>
      have flightOk := ok.flight flight inFlight
      have none : owed flight.plan flight.seqs = [] := by
        have ids := flightOk.results_ids outcome
        rw [named] at ids
        exact List.map_eq_nil_iff.mp ids.symm
      have prefilled := prefillTokens_pos ok inFlight none
      have less := List.sum_le_sum fun seq member => (each seq member).1
      rw [named] at less
      exact less.trans_lt (by
        show work s.running < _
        omega)
  | cons result rest =>
      have present := (ok.flight flight inFlight).results_present outcome result.1 (by simp [named])
      obtain ⟨seq, member, same⟩ := List.mem_map.mp present
      have less := List.sum_lt_sum _ _ (fun seq member => (each seq member).1)
        ⟨seq, member, (each seq member).2 (by simp [named, same])⟩
      rw [named] at less
      exact Nat.lt_of_lt_of_le less (Nat.le_add_right _ _)

inductive Turn (runner : ModelRunner ρ) (scheduler : Scheduler) :
    EngineState ContiguousAllocator ρ → EngineState ContiguousAllocator ρ → Prop where
  | schedule {s : EngineState ContiguousAllocator ρ} (now : Time) :
      s.inFlight = none → Turn runner scheduler s (Engine.schedule runner scheduler now s)
  | forward {s : EngineState ContiguousAllocator ρ} {flight : InFlight} (tokens : List Token)
      (after : ρ) :
      s.inFlight = some flight → flight.outcome = none →
      tokens.length = (owed flight.plan flight.seqs).length →
      Turn runner scheduler s { s with
        runner := after
        inFlight := some { flight with outcome := some (.results (sampled runner flight tokens)) } }
  | results {s : EngineState ContiguousAllocator ρ} {flight : InFlight}
      {results : IterationResults} (now : Time) :
      s.inFlight = some flight → flight.outcome = some (.results results) →
      Turn runner scheduler s (applyOutcome runner now flight (.results results) s)

/-- DONE with its last token, or rejected because the cache could never hold it. -/
def Settled (capacity : Nat) (seq : Sequence) : Prop :=
  seq.metrics.doneTime ≠ none ∨
    capacity < seq.promptTokens.length + seq.samplingParams.maxTokens

structure Drained (capacity : Nat) (start s : EngineState ContiguousAllocator ρ) : Prop where
  running : s.running = []
  waiting : s.waiting = []
  settled : ∀ seq ∈ start.running ++ start.waiting, ∃ gone ∈ s.ended, gone.seqId = seq.seqId ∧
    Settled capacity gone

structure Draining (runner : ModelRunner ρ) (capacity : Nat)
    (start s : EngineState ContiguousAllocator ρ) : Prop where
  ok : Consistent runner s
  serving : s.phase = .serving
  computed : ∀ flight outcome, s.inFlight = some flight → flight.outcome = some outcome →
    ∃ results, outcome = .results results
  unspent : Unspent s
  reservations : Reservations capacity s
  ids : s.ids.Perm start.ids
  settled : ∀ seq ∈ s.ended, seq ∈ start.ended ∨ Settled capacity seq

variable {start t : EngineState ContiguousAllocator ρ}

theorem Draining.turn (draining : Draining runner capacity start s)
    (turn : Turn runner scheduler s t) : Draining runner capacity start t := by
  obtain ⟨ok, serving, computed, unspent, reservations, ids, settled⟩ := draining
  cases turn with
  | schedule now idle =>
      refine ⟨ok.schedule now idle serving, (schedule_phase runner scheduler now s).trans serving,
        fun flight outcome inFlight done => ?_, unspentRule.schedule ok trivial unspent idle serving,
        reservationsRule.schedule ok unspent reservations idle serving,
        (ids_schedule scheduler now ok).trans ids, fun seq member => ?_⟩
      · obtain ⟨-, rfl⟩ := schedule_inFlight runner scheduler now idle inFlight
        cases done
      · rw [schedule_ended] at member
        rcases List.mem_append.mp member with member | member
        · exact settled seq member
        · obtain ⟨source, rejected, a, rfl⟩ := released_finished member
          obtain ⟨-, -, unfit⟩ := planned_worked scheduler now ok unspent reservations idle serving
          exact .inr (.inr (unfit source rejected))
  | @forward flight tokens after inFlight pending each =>
      refine ⟨ok.computed _ after inFlight fun results same => ⟨tokens, each, ?_⟩, serving, ?_,
        unspent, ⟨reservations.accounted, reservations.running, reservations.inside,
          reservations.waiting⟩, ids, settled⟩
      · exact (Outcome.results.inj same).symm
      · rintro _ _ ⟨rfl⟩ ⟨rfl⟩
        exact ⟨_, rfl⟩
  | @results flight results now inFlight outcome =>
      obtain ⟨folded, done, spec, applied⟩ := applyOutcome_results now ok inFlight outcome
      have tokens : LoopRule (α := ContiguousAllocator) runner scheduler (fun _ => True) Unspent :=
        unspentRule
      have slots : LoopRule runner scheduler Unspent (Reservations capacity) := reservationsRule
      rw [applied]
      refine ⟨ok.results now inFlight outcome spec, serving, (fun _ _ none => by cases none),
        tokens.results ok trivial unspent inFlight outcome done spec,
        slots.results ok unspent reservations inFlight outcome done spec,
        (ids_results spec).trans ids, fun seq member => ?_⟩
      rcases List.mem_append.mp member with member | member
      · exact settled seq member
      · rcases spec.finished seq member with none | ⟨source, -, token, a, -, rfl⟩
        · cases none
        · exact .inr (.inl (Option.some_ne_none now))

def stage (s : EngineState ContiguousAllocator ρ) : Nat :=
  match s.inFlight with
  | none => 2
  | some flight => if flight.outcome = none then 1 else 0

def turnsLeft (s : EngineState ContiguousAllocator ρ) : Nat :=
  3 * (work (s.running ++ s.waiting) + prefillTokens s.plan) + stage s

theorem Draining.drained (draining : Draining runner capacity start s)
    (distinct : start.ids.Nodup) (running : s.running = []) (waiting : s.waiting = []) :
    Drained capacity start s := by
  refine ⟨running, waiting, fun seq member => ?_⟩
  have id : seq.seqId ∈ s.ids := by
    rw [draining.ids.mem_iff, EngineState.ids, List.map_append]
    exact List.mem_append_left _ (List.mem_map_of_mem member)
  simp only [EngineState.ids, running, waiting, List.nil_append] at id
  obtain ⟨gone, ended, same⟩ := List.mem_map.mp id
  refine ⟨gone, ended, same, (draining.settled gone ended).resolve_left fun before => ?_⟩
  rw [EngineState.ids, List.map_append] at distinct
  exact List.disjoint_of_nodup_append distinct (List.mem_map_of_mem member)
    (same ▸ List.mem_map_of_mem before)

theorem work_pos (unspent : Unspent s) (some : s.running ++ s.waiting ≠ []) :
    0 < work (s.running ++ s.waiting) := by
  obtain ⟨seq, rest, live⟩ := List.exists_cons_of_ne_nil some
  have left : TokensLeft seq := unspent seq (live ▸ List.mem_cons_self)
  have positive := TokensLeft.workLeft_pos left
  rw [live, work_cons]
  omega

theorem Draining.falls (budget : 0 < scheduler.tokenBudget) (room : 0 < scheduler.maxRunning)
    (draining : Draining runner capacity start s) (some : s.running ++ s.waiting ≠ [])
    (turn : Turn runner scheduler s t) : turnsLeft t < turnsLeft s := by
  obtain ⟨ok, serving, computed, unspent, reservations, -, -⟩ := draining
  unfold turnsLeft
  cases turn with
  | schedule now idle =>
      obtain ⟨-, less, -⟩ := planned_worked scheduler now ok unspent reservations idle serving
      have before : prefillTokens s.plan = 0 := by
        rw [EngineState.plan, idle]
        rfl
      have stage_idle : stage s = 2 := by
        unfold stage
        rw [idle]
      rw [prefillTokens_congr (schedule_plan_entries runner scheduler now idle),
        schedule_running _ _ _ ok.live_distinct, schedule_waiting, before, stage_idle]
      cases inFlight : (Engine.schedule runner scheduler now s).inFlight with
      | none =>
          have empty := schedule_empty runner scheduler now inFlight
          have nothing := planned_empty now budget room ok reservations idle serving empty
          have positive := work_pos unspent some
          have unprefilled : prefillTokens (planned scheduler now s).plan = 0 := by
            rw [prefillTokens, prefillEntries, empty]
            rfl
          have stage_none : stage (Engine.schedule runner scheduler now s) = 2 := by
            unfold stage
            rw [inFlight]
          rw [nothing.1, nothing.2, unprefilled, stage_none]
          simp only [List.append_nil, work_nil]
          omega
      | some flight =>
          have stage_some : stage (Engine.schedule runner scheduler now s) ≤ 1 := by
            unfold stage
            rw [inFlight]
            simp only
            split <;> omega
          omega
  | @forward flight tokens after inFlight pending each =>
      have before : stage s = 1 := by
        unfold stage
        rw [inFlight]
        simp only [pending, if_true]
      rw [before]
      simp [stage, EngineState.plan, inFlight]
  | @results flight results now inFlight outcome =>
      obtain ⟨folded, done, spec, applied⟩ := applyOutcome_results now ok inFlight outcome
      have less := work_results ok unspent inFlight outcome spec
      rw [applied]
      have same : prefillTokens s.plan = prefillTokens flight.plan := by
        rw [EngineState.plan, inFlight]
        rfl
      have after : prefillTokens (resultsApplied runner results folded s).plan = 0 := rfl
      have stage_after : stage (resultsApplied runner results folded s) = 2 := rfl
      rw [same, after, stage_after]
      simp only [resultsApplied, work_append]
      omega

theorem Draining.moves (draining : Draining runner capacity start s) :
    ∃ t, Turn runner scheduler s t := by
  cases inFlight : s.inFlight with
  | none => exact ⟨_, .schedule 0 inFlight⟩
  | some flight =>
      cases outcome : flight.outcome with
      | none =>
          exact ⟨_, .forward (List.replicate (owed flight.plan flight.seqs).length 0) s.runner
            inFlight outcome List.length_replicate⟩
      | some done =>
          obtain ⟨results, rfl⟩ := draining.computed flight done inFlight outcome
          exact ⟨_, .results 0 inFlight outcome⟩

/-- Without arrivals and failed forward passes every request that is live comes to its end, with
either scheduler and whatever is sampled. -/
theorem drains {runner : ModelRunner ρ} {scheduler : Scheduler} {capacity : Nat} {first : ρ}
    {s : EngineState ContiguousAllocator ρ} (budget : 1 ≤ scheduler.tokenBudget)
    (room : 1 ≤ scheduler.maxRunning)
    (reachable : (loop runner scheduler { capacityTokens := capacity } first).Reachable s)
    (serving : s.phase = .serving)
    (computed : ∀ flight outcome, s.inFlight = some flight → flight.outcome = some outcome →
      ∃ results, outcome = .results results) :
    Inevitable (Turn runner scheduler) (Drained capacity s) s := by
  have ok := consistent reachable
  have ranking : Ranking (Turn runner scheduler) (Drained capacity s)
      (Draining runner capacity s) turnsLeft := by
    refine ⟨fun draining turn => draining.turn turn, fun draining _ => draining.moves,
      fun draining live turn => draining.falls budget room (fun none => live ?_) turn⟩
    obtain ⟨running, waiting⟩ := List.append_eq_nil_iff.mp none
    exact draining.drained ok.distinct running waiting
  exact ranking.inevitable s ⟨ok, serving, computed, unspent reachable, reservations reachable,
    .refl _, fun _ member => .inl member⟩

theorem drains_sample :
    Inevitable (Turn (contiguousRunner 2 []) sampleScheduler) (Drained 16 samplePlanned)
      samplePlanned := by
  have serving : samplePlanned.phase = .serving := schedule_phase _ _ _ _
  refine drains (by decide) (by decide) samplePlanned_reachable serving ?_
  intro flight outcome inFlight done
  rw [samplePlanned_inFlight] at inFlight
  obtain rfl := Option.some.inj inFlight
  cases done

end LlmServing.Contiguous
