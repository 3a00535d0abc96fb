import LlmServing.Engine.Iteration
import LlmServing.Runner.Buckets
import LlmServing.Runner.DecodeGraph

/-!
# Every plan is well formed

What a scheduler step hands over, whatever the queue, the pool and the preemptions of the step: one
entry for each planned sequence, within the budget, and never more than the captured graphs hold.
-/

namespace LlmServing.Engine

open Scheduling Runner Lib

variable {α ρ : Type} [KVAllocator α] {runner : ModelRunner ρ} {scheduler : Scheduler}

def prefillEntries (plan : BatchPlan) : List BatchEntry := plan.entries.filter (·.isPrefillChunk)

def prefillTokens (plan : BatchPlan) : Nat := ((prefillEntries plan).map (·.nTokens)).sum

@[simp] theorem prefillTokens_add_decode (plan : BatchPlan) (seq : Sequence) (n : Nat) :
    prefillTokens (plan.add seq n) = prefillTokens plan := by
  simp [prefillTokens, prefillEntries]

@[simp] theorem prefillTokens_add_chunk (plan : BatchPlan) (seq : Sequence) (n : Nat) :
    prefillTokens (plan.add seq n true) = prefillTokens plan + n := by
  simp [prefillTokens, prefillEntries]

theorem prefillTokens_congr {plan plan' : BatchPlan} (same : plan.entries = plan'.entries) :
    prefillTokens plan = prefillTokens plan' := by
  rw [prefillTokens, prefillTokens, prefillEntries, prefillEntries, same]

theorem prefillTokens_planDecodesFrom (i : Nat) (st : Planning α) :
    prefillTokens (planDecodesFrom i st).plan = prefillTokens st.plan := by
  have tried (i : Nat) (st : Planning α) :
      prefillTokens (preemptUntilAllocated i st).2.plan = prefillTokens st.plan :=
    prefillTokens_congr (preemptUntilAllocated_entries i st)
  fun_induction planDecodesFrom i st with
  | case1 i st inside seq status result served ih =>
      rw [ih, prefillTokens_add_decode]
      exact tried i st
  | case2 i st inside seq status result refused ih => exact ih.trans (tried i st)
  | case3 i st inside seq status ih => exact ih
  | case4 => rfl

theorem chunk_le_budget (scheduler : Scheduler) (left budget : Nat) :
    scheduler.chunk left budget ≤ budget := by
  unfold Scheduler.chunk
  omega

theorem prefillTokens_continuePrefills (scheduler : Scheduler) (budget : Nat) (a : α)
    (plan : BatchPlan) (todo : List Sequence) :
    prefillTokens (continuePrefills scheduler budget a plan todo).2.2.1 +
      (continuePrefills scheduler budget a plan todo).2.2.2 ≤ prefillTokens plan + budget := by
  induction todo generalizing budget a plan with
  | nil => exact Nat.le_refl _
  | cons seq rest ih =>
      simp only [continuePrefills]
      split
      · exact ih budget a plan
      · split
        · exact Nat.add_le_add_left (Nat.zero_le budget) _
        · rename_i a' table granted
          have later := ih
            (budget - scheduler.chunk (seq.numTokens - seq.prefillProgress) budget) a'
            (plan.add seq (scheduler.chunk (seq.numTokens - seq.prefillProgress) budget) true)
          have within := chunk_le_budget scheduler (seq.numTokens - seq.prefillProgress) budget
          rw [prefillTokens_add_chunk] at later
          exact later.trans (by omega)

theorem prefillTokens_planAdmissionsFrom (scheduler : Scheduler) (now : Time)
    (cap index budget : Nat) (st : Planning α) :
    prefillTokens (planAdmissionsFrom scheduler now cap index budget st).plan ≤
      prefillTokens st.plan + budget := by
  fun_induction planAdmissionsFrom scheduler now cap index budget st with
  | case1 | case5 | case6 => exact Nat.le_add_right _ _
  | case2 index budget st inside room frozen seq fits chunk refused ih => exact ih
  | case3 index budget st inside room frozen seq fits chunk a' table granted admitted ih =>
      have within : chunk ≤ budget := chunk_le_budget scheduler seq.numTokens budget
      rw [prefillTokens_add_chunk] at ih
      exact ih.trans (by omega)
  | case4 index budget st inside room frozen seq unfit ih => exact ih

theorem prefillTokens_schedulerStep (scheduler : Scheduler) (now : Time)
    (running waiting : List Sequence) (a : α) :
    prefillTokens (schedulerStep scheduler now running waiting a).plan ≤ scheduler.tokenBudget := by
  let decoded := planDecodes (⟨running, waiting, a, {}⟩ : Planning α)
  let continued := planPrefillContinuations scheduler decoded
  have decodes : prefillTokens decoded.plan = 0 := prefillTokens_planDecodesFrom 0 _
  have continues : prefillTokens continued.1.plan + continued.2 ≤
      prefillTokens decoded.plan + scheduler.tokenBudget :=
    prefillTokens_continuePrefills scheduler _ decoded.allocator decoded.plan decoded.running
  calc prefillTokens (planAdmissions scheduler now continued.2 continued.1).plan
    _ ≤ prefillTokens continued.1.plan + continued.2 :=
        prefillTokens_planAdmissionsFrom scheduler now _ 0 _ _
    _ ≤ scheduler.tokenBudget := by omega

theorem running_le_planStep {now : Time} {st st' : Planning α}
    (step : PlanStep scheduler now st st') (room : st.running.length ≤ scheduler.maxRunning) :
    st'.running.length ≤ scheduler.maxRunning := by
  cases step with
  | decode status unplanned granted => simpa using room
  | preempt unplanned served status refused =>
      simp only [List.length_append, List.length_singleton] at room
      simp only
      omega
  | «continue» status unplanned positive chunk granted => simpa using room
  | reject unfit => exact room
  | admission fits positive less chunk granted =>
      simp only [List.length_append, List.length_singleton]
      omega

def Roomy (scheduler : Scheduler) (s : EngineState α ρ) : Prop :=
  s.running.length ≤ scheduler.maxRunning

theorem planned_running_le (now : Time) {s : EngineState α ρ} (ok : Consistent runner s)
    (roomy : Roomy scheduler s) :
    (planned scheduler now s).running.length ≤ scheduler.maxRunning := by
  have steps := (schedulerStep_steps scheduler now s.running s.waiting s.allocator
    ok.live_distinct).1
  rw [planned]
  generalize schedulerStep scheduler now s.running s.waiting s.allocator = after at steps ⊢
  induction steps with
  | refl => exact roomy
  | tail _ step ih => exact running_le_planStep step ih

theorem released_length_le (seqs : List Sequence) {s : EngineState α ρ}
    (ok : Consistent runner s) : (released seqs s).running.length ≤ s.running.length := by
  rw [released_running ok.running_distinct]
  exact List.length_filter_le _ _

theorem roomyRule :
    LoopRule runner scheduler (fun _ => True) (Roomy (α := α) (ρ := ρ) scheduler) where
  arrive _ _ roomy _ _ _ := roomy
  schedule ok _ roomy _ _ := by
    rw [Roomy, schedule_running _ _ _ ok.live_distinct]
    exact planned_running_le _ ok roomy
  forward _ _ roomy _ _ _ := roomy
  results _ _ roomy _ _ _ spec := by
    refine Nat.le_trans ?_ roomy
    simp only [resultsApplied, spec.running]
    exact List.length_filterMap_le _ _
  failed ok _ roomy _ _ := (released_length_le _ ok).trans roomy
  deviceLost _ _ roomy _ _ := roomy
  abortAll ok _ roomy _ _ := (released_length_le _ ok).trans roomy

theorem roomy {allocator : α} {start : ρ} {s : EngineState α ρ}
    (reachable : (loop runner scheduler allocator start).Reachable s) : Roomy scheduler s :=
  roomyRule.reachable (fun _ _ => trivial) (Nat.zero_le _) reachable

/-! ## One entry for each planned sequence -/

def Framed (scheduler : Scheduler) (freed : Prop) (entry : Option BatchEntry) : Prop :=
  (freed → ∃ chunk, entry = some chunk ∧ chunk.isPrefillChunk = true) ∧
    ∀ chunk, entry = some chunk → chunk.isPrefillChunk = true →
      chunk.nTokens ≤ scheduler.maxPrefillChunk

theorem chunk_le_max (scheduler : Scheduler) (left budget : Nat) :
    scheduler.chunk left budget ≤ scheduler.maxPrefillChunk := by
  unfold Scheduler.chunk
  omega

theorem framing (scheduler : Scheduler) (now : Time) :
    PlanRule (α := α) scheduler now (fun _ => True) (fun freed entry _ => Framed scheduler freed entry)
      (fun _ _ => True) where
  grant _ _ := trivial
  release _ := trivial
  decode _ _ framed _ := by
    refine ⟨fun freed => ?_, fun chunk same prefill => ?_⟩
    · obtain ⟨chunk, none, -⟩ := framed.1 freed
      cases none
    · cases same
      cases prefill
  preempt _ _ := trivial
  «continue» _ _ framed _ _ := by
    refine ⟨fun freed => ?_, fun chunk same _ => ?_⟩
    · obtain ⟨chunk, none, -⟩ := framed.1 freed
      cases none
    · cases same
      exact chunk_le_max _ _ _
  admission _ _ _ _ _ := by
    refine ⟨fun _ => ⟨_, rfl, rfl⟩, fun chunk same _ => ?_⟩
    cases same
    exact chunk_le_max _ _ _
  skip _ := trivial

def StillDecoding (ids : List SeqId) (st : Planning α) : Prop :=
  ∀ id ∈ ids, id ∈ st.plan.preempted ∨ ∃ seq ∈ st.running, seq.seqId = id ∧
    seq.status = .decoding ∧ ∀ entry ∈ st.plan.entries, entry.seqId = id →
      entry.isPrefillChunk = false

theorem StillDecoding.step {now : Time} {st st' : Planning α} {ids : List SeqId}
    (step : PlanStep scheduler now st st') (distinct : st.Distinct)
    (still : StillDecoding ids st) : StillDecoding ids st' := by
  have nodup := distinct.running_nodup
  intro id named
  cases step with
  | @decode front behind waiting seq a a' plan table status unplanned granted =>
      refine (still id named).imp_right ?_
      rintro ⟨other, member, rfl, decoding, entries⟩
      have added (here : SeqId) (entry : BatchEntry)
          (planned : entry ∈ (plan.add seq 1).entries) (same : entry.seqId = here)
          (before : ∀ entry ∈ plan.entries, entry.seqId = here → entry.isPrefillChunk = false) :
          entry.isPrefillChunk = false := by
        rcases List.mem_append.mp planned with planned | planned
        · exact before entry planned same
        · rw [List.mem_singleton.mp planned]
      by_cases this : other = seq
      · subst this
        exact ⟨{ other with blockTable := table }, by simp, rfl, decoding,
          fun entry planned same => added _ entry planned same entries⟩
      · refine ⟨other, ?_, rfl, decoding, fun entry planned same => added _ entry planned same entries⟩
        simp only [List.mem_append, List.mem_cons] at member ⊢
        tauto
  | @preempt front waiting victim served a plan unplanned _ _ refused =>
      rcases still id named with gone | ⟨other, member, rfl, decoding, entries⟩
      · exact .inl (List.mem_append_left _ gone)
      · rcases List.mem_append.mp member with member | member
        · exact .inr ⟨other, member, rfl, decoding, entries⟩
        · rw [List.mem_singleton.mp member]
          exact .inl (List.mem_append_right _ (List.mem_singleton_self _))
  | @«continue» front behind waiting seq a a' plan table budget chunk status unplanned positive size
      granted =>
      refine (still id named).imp_right ?_
      rintro ⟨other, member, rfl, decoding, entries⟩
      have this : other ≠ seq := fun same => by
        rw [same, status] at decoding
        cases decoding
      have here : other ∈ front ++ behind := by
        simp only [List.mem_append, List.mem_cons] at member ⊢
        tauto
      refine ⟨other, ?_, rfl, decoding, fun entry planned same => ?_⟩
      · simp only [List.mem_append, List.mem_cons] at here ⊢
        tauto
      · rcases List.mem_append.mp planned with planned | planned
        · exact entries entry planned same
        · rw [List.mem_singleton.mp planned] at same
          exact absurd same (Keyed.ne_of_nodup_cons nodup other here)
  | reject unfit => exact still id named
  | @admission before after running seq a a' plan table budget chunk fits positive room size
      granted =>
      refine (still id named).imp_right ?_
      rintro ⟨other, member, rfl, decoding, entries⟩
      refine ⟨other, List.mem_append_left _ member, rfl, decoding, fun entry planned same => ?_⟩
      rcases List.mem_append.mp planned with planned | planned
      · exact entries entry planned same
      · rw [List.mem_singleton.mp planned] at same
        exact absurd (by simp [← same])
          (distinct.running_not_waiting (List.mem_map_of_mem member))

/-! ## The plan of one step -/

/-- What `_schedule_until_stopped` and the captured graphs rely on in a plan made from `running`. -/
structure WellFormed (scheduler : Scheduler) (running : List Sequence) (st : Planning α) : Prop where
  entries : st.plan.ids.Nodup
  present : ∀ id ∈ st.plan.ids, id ∈ st.running.map (·.seqId) ∧
    id ∉ st.plan.rejected.map (·.seqId)
  decoding : ∀ seq ∈ running, seq.status = .decoding →
    Xor (st.plan.entries.filter (·.seqId = seq.seqId) = [⟨seq.seqId, 1, false⟩])
      (seq.seqId ∈ st.plan.preempted)
  prefills : ∀ entry ∈ prefillEntries st.plan,
    1 ≤ entry.nTokens ∧ entry.nTokens ≤ scheduler.maxPrefillChunk
  budget : prefillTokens st.plan ≤ scheduler.tokenBudget
  room : st.running.length ≤ scheduler.maxRunning
  decodeBucket : decodeOnly st.plan = true →
    ∃ bucket ∈ decodeGraphBuckets scheduler.maxRunning, st.plan.entries.length ≤ bucket
  piecewiseBucket :
    ∃ bucket ∈ piecewiseGraphBuckets (scheduler.tokenBudget + scheduler.maxRunning),
      (st.plan.entries.map (·.nTokens)).sum ≤ bucket

theorem StillDecoding.steps {now : Time} {st st' : Planning α} {ids : List SeqId}
    (steps : PlanSteps scheduler now st st') (distinct : st.Distinct)
    (still : StillDecoding ids st) : StillDecoding ids st' := by
  induction steps with
  | refl => exact still
  | tail before step ih => exact ih.step step (PlanSteps.distinct before distinct)

theorem sum_nTokens {entries : List BatchEntry}
    (single : ∀ entry ∈ entries, entry.isPrefillChunk = false → entry.nTokens = 1) :
    (entries.map (·.nTokens)).sum ≤
      ((entries.filter (·.isPrefillChunk)).map (·.nTokens)).sum + entries.length := by
  induction entries with
  | nil => exact Nat.le_refl _
  | cons entry rest ih =>
      have later := ih fun other member => single other (by simp [member])
      cases chunk : entry.isPrefillChunk with
      | false =>
          have one := single entry (by simp) chunk
          simp only [List.filter_cons, chunk, List.map_cons, List.sum_cons, List.length_cons,
            Bool.false_eq_true, if_false]
          omega
      | true =>
          simp only [List.filter_cons, chunk, List.map_cons, List.sum_cons, List.length_cons,
            if_true]
          omega

theorem planned_entry (now : Time) {s : EngineState α ρ} (ok : Consistent runner s)
    {entry : BatchEntry} (inPlan : entry ∈ (planned scheduler now s).plan.entries) :
    ∃ seq ∈ (planned scheduler now s).running, seq.seqId = entry.seqId ∧
      entryFor (planned scheduler now s).plan seq.seqId = some entry := by
  have apart := planned_distinct scheduler now ok.live_distinct
  obtain ⟨seq, member, same⟩ := List.mem_map.mp (apart.planned _ (List.mem_map_of_mem inPlan))
  exact ⟨seq, member, same, same ▸ entryFor_of_mem apart.entries inPlan⟩

theorem planned_single (now : Time) {s : EngineState α ρ} (ok : Consistent runner s)
    (idle : s.inFlight = none) (serving : s.phase = .serving) {entry : BatchEntry}
    (inPlan : entry ∈ (planned scheduler now s).plan.entries)
    (decode : entry.isPrefillChunk = false) : entry.nTokens = 1 := by
  obtain ⟨seq, member, -, entered⟩ := planned_entry now ok inPlan
  have here := (ok.planned scheduler now idle serving).running seq member
  simp only [entered, RunningOk, decode, Bool.false_eq_true, if_false] at here
  exact here.1

theorem framed_planned (now : Time) {s : EngineState α ρ} (ok : Consistent runner s) :
    ∀ seq ∈ (planned scheduler now s).running,
      Framed scheduler (seq.seqId ∈ (planned scheduler now s).plan.preempted)
        (entryFor (planned scheduler now s).plan seq.seqId) :=
  (ok.holds (framing scheduler now) trivial
    (fun _ _ => ⟨False.elim, fun _ none => by cases none⟩) fun _ _ => trivial).running

theorem decode_not_preempted (now : Time) {s : EngineState α ρ} (ok : Consistent runner s)
    {entry : BatchEntry} (inPlan : entry ∈ (planned scheduler now s).plan.entries)
    (decode : entry.isPrefillChunk = false) :
    entry.seqId ∉ (planned scheduler now s).plan.preempted := by
  obtain ⟨seq, member, same, entered⟩ := planned_entry now ok inPlan
  intro preempted
  obtain ⟨chunk, again, prefill⟩ := (framed_planned now ok seq member).1 (same ▸ preempted)
  obtain rfl := Option.some.inj (entered.symm.trans again)
  simp [decode] at prefill

theorem decoding_served (now : Time) {s : EngineState α ρ} (ok : Consistent runner s)
    (idle : s.inFlight = none) (serving : s.phase = .serving) {seq : Sequence}
    (member : seq ∈ s.running) (status : seq.status = .decoding) :
    Xor ((planned scheduler now s).plan.entries.filter (·.seqId = seq.seqId) =
        [⟨seq.seqId, 1, false⟩])
      (seq.seqId ∈ (planned scheduler now s).plan.preempted) := by
  have apart := planned_distinct scheduler now ok.live_distinct
  obtain ⟨steps, served⟩ := schedulerStep_steps scheduler now s.running s.waiting s.allocator
    ok.live_distinct
  rw [← planned] at steps served
  have still : StillDecoding [seq.seqId] (planned scheduler now s) :=
    StillDecoding.steps steps (Planning.Distinct.start _ ok.live_distinct) fun id named => by
      rw [List.mem_singleton.mp named]
      exact .inr ⟨seq, member, rfl, status, List.forall_mem_nil _⟩
  rcases still _ (List.mem_singleton_self _) with
    preempted | ⟨other, running, same, decoding, decodes⟩
  · refine .inr ⟨preempted, fun only => ?_⟩
    have inPlan : (⟨seq.seqId, 1, false⟩ : BatchEntry) ∈ (planned scheduler now s).plan.entries :=
      List.mem_of_mem_filter (only ▸ List.mem_singleton_self _)
    exact decode_not_preempted now ok inPlan rfl preempted
  · obtain ⟨entry, inPlan, id⟩ := List.mem_map.mp (served other running decoding)
    have decode := decodes entry inPlan (id.trans same)
    have one := planned_single now ok idle serving inPlan decode
    have only := Keyed.filter_of_mem apart.entries inPlan
    rw [id, same] at only
    refine .inl ⟨only.trans ?_, same ▸ id ▸ decode_not_preempted now ok inPlan decode⟩
    obtain ⟨entryId, nTokens, prefill⟩ := entry
    simp only at id decode one
    rw [id, same, decode, one]

theorem wellFormed (now : Time) {s : EngineState α ρ} (ok : Consistent runner s)
    (roomy : Roomy scheduler s) (idle : s.inFlight = none) (serving : s.phase = .serving) :
    WellFormed scheduler s.running (planned scheduler now s) := by
  have apart := planned_distinct scheduler now ok.live_distinct
  have room := planned_running_le now ok roomy
  have budget := prefillTokens_schedulerStep scheduler now s.running s.waiting s.allocator
  rw [← planned] at budget
  have length : (planned scheduler now s).plan.entries.length ≤ scheduler.maxRunning := by
    have less := (apart.entries.subperm apart.planned).length_le
    simp only [BatchPlan.ids, List.length_map] at less
    omega
  refine ⟨apart.entries, fun id member => ⟨apart.planned id member,
      apart.running_not_rejected (apart.planned id member)⟩,
    fun seq member status => decoding_served now ok idle serving member status,
    fun entry member => ?_, budget, room, fun _ => exists_decodeGraphBucket length,
    exists_piecewiseGraphBucket ?_⟩
  · obtain ⟨inPlan, prefill⟩ := List.mem_filter.mp member
    obtain ⟨seq, running, -, entered⟩ := planned_entry now ok inPlan
    have here := (ok.planned scheduler now idle serving).running seq running
    have bounded := (framed_planned now ok seq running).2 entry entered prefill
    simp only [entered, RunningOk, prefill, if_true] at here
    exact ⟨here.2.1, bounded⟩
  · have single (entry : BatchEntry) (inPlan : entry ∈ (planned scheduler now s).plan.entries) :=
      planned_single now ok idle serving inPlan
    have total := sum_nTokens single
    rw [← prefillEntries, ← prefillTokens] at total
    omega

theorem plans_well_formed (runner : ModelRunner ρ) (scheduler : Scheduler) (allocator : α)
    (start : ρ) {s : EngineState α ρ}
    (reachable : (loop runner scheduler allocator start).Reachable s)
    (idle : s.inFlight = none) (serving : s.phase = .serving) (now : Time) :
    WellFormed scheduler s.running (planned scheduler now s) :=
  wellFormed now (consistent reachable) (roomy reachable) idle serving

theorem plans_well_formed_sample :
    (WellFormed sharedScheduler (hfRun 1).running (planned sharedScheduler 2 (hfRun 1)) ∧
      (planned sharedScheduler 2 (hfRun 1)).plan.entries = [⟨1, 1, false⟩, ⟨0, 1, true⟩]) ∧
    WellFormed sharedScheduler (hfRun 3).running (planned sharedScheduler 4 (hfRun 3)) ∧
      (planned sharedScheduler 4 (hfRun 3)).plan.preempted = [1] := by
  obtain ⟨reachable, idle, serving⟩ := hfRun_reachable 1
  obtain ⟨reachable', idle', serving'⟩ := hfRun_reachable 3
  exact ⟨⟨plans_well_formed _ _ _ _ reachable idle serving 2, by decide +kernel⟩,
    plans_well_formed _ _ _ _ reachable' idle' serving' 4, by decide +kernel⟩

end LlmServing.Engine
