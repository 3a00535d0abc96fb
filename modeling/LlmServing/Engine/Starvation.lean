import LlmServing.Engine.Iteration

/-!
# Whom the admissions overtake

Once `MAX_ADMISSION_SKIPS` admissions have gone ahead of a waiting sequence nothing else is to be
admitted until it fits. What is promised to whom depends on the run, so a record of it is kept beside
the states.
-/

namespace LlmServing.Engine

open Scheduling Runner Lib

variable {α ρ : Type} [KVAllocator α] {runner : ModelRunner ρ} {scheduler : Scheduler} {now : Time}

def Admitted (seq : Sequence) : Prop := seq.metrics.admitTime ≠ none

instance (seq : Sequence) : Decidable (Admitted seq) := inferInstanceAs (Decidable (¬_))

theorem stamping (scheduler : Scheduler) (now : Time) :
    PlanRule (α := α) scheduler now (fun _ => True) (fun _ _ => Admitted) (fun _ _ => True) where
  grant _ _ := trivial
  release _ := trivial
  decode _ _ old _ := old
  preempt _ _ := trivial
  «continue» _ _ old _ _ := old
  admission _ _ _ _ _ := Option.some_ne_none _
  skip _ := trivial

/-- The rounds of `planAdmissionsFrom` that get past its guard: the sequence each looks at, behind those
that it leaves in front. -/
def roundsFrom (scheduler : Scheduler) (now : Time) (cap : Nat) (index budget : Nat)
    (st : Planning α) : List (List Sequence × Sequence) :=
  if inside : index < st.waiting.length then
    if 0 < budget ∧ st.running.length < cap then
      if 0 < index ∧ maxAdmissionSkips ≤ headSkips st.waiting then []
      else
        let seq := st.waiting[index]
        (st.waiting.take index, seq) ::
          if canEverFit st.allocator seq then
            let chunk := min (min seq.numTokens budget) scheduler.maxPrefillChunk
            match allocate st.allocator seq chunk st.running.length with
            | none => roundsFrom scheduler now cap (index + 1) budget st
            | some (allocator, table) =>
                let admitted := advancePrefill { seq with blockTable := table } chunk
                roundsFrom scheduler now cap index (budget - chunk)
                  { running := st.running ++ [stampAdmission now admitted]
                    waiting := takeAdmitted st.waiting index
                    allocator
                    plan := st.plan.add seq chunk true }
          else
            roundsFrom scheduler now cap index budget
              { st with
                waiting := st.waiting.eraseIdx index
                plan := { st.plan with rejected := st.plan.rejected ++ [seq] } }
    else []
  else []
termination_by st.waiting.length - index
decreasing_by
  · omega
  · rw [length_takeAdmitted, List.length_eraseIdx_of_lt inside]
    omega
  · rw [List.length_eraseIdx_of_lt inside]
    omega

def rounds (scheduler : Scheduler) (now : Time) (s : EngineState α ρ) :
    List (List Sequence × Sequence) :=
  let (continued, budget) := planPrefillContinuations scheduler
    (planDecodes ⟨s.running, s.waiting, s.allocator, {}⟩)
  roundsFrom scheduler now (scheduler.admissionCap continued.running) 0 budget continued

/-- The admissions of `planAdmissionsFrom`, each with the sequences it leaves waiting in front. -/
def overtakingFrom (scheduler : Scheduler) (now : Time) (cap : Nat) (index budget : Nat)
    (st : Planning α) : List (List Sequence × SeqId) :=
  if inside : index < st.waiting.length then
    if 0 < budget ∧ st.running.length < cap then
      if 0 < index ∧ maxAdmissionSkips ≤ headSkips st.waiting then []
      else
        let seq := st.waiting[index]
        if canEverFit st.allocator seq then
          let chunk := min (min seq.numTokens budget) scheduler.maxPrefillChunk
          match allocate st.allocator seq chunk st.running.length with
          | none => overtakingFrom scheduler now cap (index + 1) budget st
          | some (allocator, table) =>
              let admitted := advancePrefill { seq with blockTable := table } chunk
              (st.waiting.take index, seq.seqId) ::
                overtakingFrom scheduler now cap index (budget - chunk)
                  { running := st.running ++ [stampAdmission now admitted]
                    waiting := takeAdmitted st.waiting index
                    allocator
                    plan := st.plan.add seq chunk true }
        else
          overtakingFrom scheduler now cap index budget
            { st with
              waiting := st.waiting.eraseIdx index
              plan := { st.plan with rejected := st.plan.rejected ++ [seq] } }
    else []
  else []
termination_by st.waiting.length - index
decreasing_by
  · omega
  · rw [length_takeAdmitted, List.length_eraseIdx_of_lt inside]
    omega
  · rw [List.length_eraseIdx_of_lt inside]
    omega

def overtaking (scheduler : Scheduler) (now : Time) (s : EngineState α ρ) :
    List (List Sequence × SeqId) :=
  let (continued, budget) := planPrefillContinuations scheduler
    (planDecodes ⟨s.running, s.waiting, s.allocator, {}⟩)
  overtakingFrom scheduler now (scheduler.admissionCap continued.running) 0 budget continued

theorem overtakingFrom_running (scheduler : Scheduler) (now : Time) (cap index budget : Nat)
    (st : Planning α) :
    (planAdmissionsFrom scheduler now cap index budget st).running.map (·.seqId) =
      st.running.map (·.seqId) ++
        (overtakingFrom scheduler now cap index budget st).map (·.2) := by
  fun_induction planAdmissionsFrom scheduler now cap index budget st with
  | case1 index budget st inside room frozen =>
      rw [overtakingFrom, dif_pos inside, if_pos room, if_pos frozen]
      simp
  | case2 index budget st inside room frozen seq fits chunk refused ih =>
      rw [overtakingFrom, dif_pos inside, if_pos room, if_neg frozen]
      simp only [seq, chunk] at fits refused
      simp only [if_pos fits, refused]
      exact ih
  | case3 index budget st inside room frozen seq fits chunk a' table granted admitted ih =>
      rw [overtakingFrom, dif_pos inside, if_pos room, if_neg frozen]
      simp only [seq, chunk] at fits granted
      simp only [if_pos fits, granted, List.map_cons]
      rw [ih]
      simp [admitted, seq, chunk]
  | case4 index budget st inside room frozen seq unfit ih =>
      rw [overtakingFrom, dif_pos inside, if_pos room, if_neg frozen]
      simp only [seq] at unfit
      simp only [if_neg unfit]
      exact ih
  | case5 index budget st inside full =>
      rw [overtakingFrom, dif_pos inside, if_neg full]
      simp
  | case6 index budget st outside =>
      rw [overtakingFrom, dif_neg outside]
      simp

theorem overtakingFrom_rounds (scheduler : Scheduler) (now : Time) (cap index budget : Nat)
    (st : Planning α) :
    ∀ pair ∈ overtakingFrom scheduler now cap index budget st,
      ∃ round ∈ roundsFrom scheduler now cap index budget st, round.1 = pair.1 := by
  fun_induction planAdmissionsFrom scheduler now cap index budget st with
  | case1 index budget st inside room frozen =>
      rw [overtakingFrom, dif_pos inside, if_pos room, if_pos frozen]
      exact List.forall_mem_nil _
  | case2 index budget st inside room frozen seq fits chunk refused ih =>
      rw [overtakingFrom, roundsFrom, dif_pos inside, dif_pos inside, if_pos room, if_pos room,
        if_neg frozen, if_neg frozen]
      simp only [seq, chunk] at fits refused
      simp only [if_pos fits, refused]
      intro pair member
      obtain ⟨round, found, same⟩ := ih pair member
      exact ⟨round, List.mem_cons_of_mem _ found, same⟩
  | case3 index budget st inside room frozen seq fits chunk a' table granted admitted ih =>
      rw [overtakingFrom, roundsFrom, dif_pos inside, dif_pos inside, if_pos room, if_pos room,
        if_neg frozen, if_neg frozen]
      simp only [seq, chunk] at fits granted
      simp only [if_pos fits, granted]
      refine List.forall_mem_cons.mpr ⟨⟨_, List.mem_cons_self, rfl⟩, fun pair member => ?_⟩
      obtain ⟨round, found, same⟩ := ih pair member
      exact ⟨round, List.mem_cons_of_mem _ found, same⟩
  | case4 index budget st inside room frozen seq unfit ih =>
      rw [overtakingFrom, roundsFrom, dif_pos inside, dif_pos inside, if_pos room, if_pos room,
        if_neg frozen, if_neg frozen]
      simp only [seq] at unfit
      simp only [if_neg unfit]
      intro pair member
      obtain ⟨round, found, same⟩ := ih pair member
      exact ⟨round, List.mem_cons_of_mem _ found, same⟩
  | case5 index budget st inside full =>
      rw [overtakingFrom, dif_pos inside, if_neg full]
      exact List.forall_mem_nil _
  | case6 index budget st outside =>
      rw [overtakingFrom, dif_neg outside]
      exact List.forall_mem_nil _

/-! ## Who is overtaken -/

def Spent (seq : Sequence) : Prop := maxAdmissionSkips ≤ seq.admissionSkips

instance (seq : Sequence) : Decidable (Spent seq) := inferInstanceAs (Decidable (_ ≤ _))

def Ahead (P : Sequence → Prop) (waiting : List Sequence) : Prop :=
  waiting.Pairwise fun other seq => P seq → Spent other ∨ Admitted other

theorem Ahead.skipHead {P : Sequence → Prop} {waiting : List Sequence} (ordered : Ahead P waiting) :
    Ahead P (skipHead waiting) := by
  cases waiting with
  | nil => exact .nil
  | cons head rest =>
      obtain ⟨first, others⟩ := List.pairwise_cons.mp ordered
      refine .cons (fun seq member holds => ?_) others
      rcases first seq member holds with spent | admitted
      · exact .inl (Nat.le_succ_of_le spent)
      · exact .inr admitted

theorem Ahead.takeAdmitted {P : Sequence → Prop} {waiting : List Sequence} {index : Nat}
    (ordered : Ahead P waiting) : Ahead P (takeAdmitted waiting index) := by
  have shorter : Ahead P (waiting.eraseIdx index) := ordered.sublist (List.eraseIdx_sublist ..)
  unfold Scheduling.takeAdmitted
  split
  · exact shorter.skipHead
  · exact shorter

theorem Ahead.head {P : Sequence → Prop} {waiting : List Sequence} {index : Nat}
    (ordered : Ahead P waiting) (spent : ∀ seq, P seq → Spent seq)
    (thawed : ¬(0 < index ∧ maxAdmissionSkips ≤ headSkips waiting)) :
    ∀ seq ∈ waiting.take index, P seq →
      ∃ head ∈ (waiting.take index).head?, ¬Spent head ∧ Admitted head := by
  cases waiting with
  | nil =>
      intro seq member
      rw [List.take_nil] at member
      cases member
  | cons head rest =>
      cases index with
      | zero => exact List.forall_mem_nil _
      | succ index =>
          intro seq member holds
          have few : ¬Spent head := fun full => thawed ⟨Nat.succ_pos index, full⟩
          refine ⟨head, rfl, few, ?_⟩
          rcases List.mem_cons.mp member with rfl | member
          · exact absurd (spent seq holds) few
          · have first := (List.pairwise_cons.mp ordered).1 seq (List.mem_of_mem_take member) holds
            exact first.resolve_left few

theorem overtakingFrom_head {P : Sequence → Prop} (spent : ∀ seq, P seq → Spent seq)
    (scheduler : Scheduler) (now : Time) (cap index budget : Nat) {st : Planning α}
    (ordered : Ahead P st.waiting) :
    (∀ pair ∈ overtakingFrom scheduler now cap index budget st, ∀ seq ∈ pair.1, P seq →
      ∃ head ∈ pair.1.head?, ¬Spent head ∧ Admitted head) ∧
      Ahead P (planAdmissionsFrom scheduler now cap index budget st).waiting := by
  fun_induction planAdmissionsFrom scheduler now cap index budget st with
  | case1 index budget st inside room frozen =>
      rw [overtakingFrom, dif_pos inside, if_pos room, if_pos frozen]
      exact ⟨List.forall_mem_nil _, ordered⟩
  | case2 index budget st inside room frozen seq fits chunk refused ih =>
      rw [overtakingFrom, dif_pos inside, if_pos room, if_neg frozen]
      simp only [seq, chunk] at fits refused
      simp only [if_pos fits, refused]
      exact ih ordered
  | case3 index budget st inside room frozen seq fits chunk a' table granted admitted ih =>
      rw [overtakingFrom, dif_pos inside, if_pos room, if_neg frozen]
      simp only [seq, chunk] at fits granted
      simp only [if_pos fits, granted]
      obtain ⟨later, after⟩ := ih ordered.takeAdmitted
      exact ⟨List.forall_mem_cons.mpr ⟨ordered.head spent frozen, later⟩, after⟩
  | case4 index budget st inside room frozen seq unfit ih =>
      rw [overtakingFrom, dif_pos inside, if_pos room, if_neg frozen]
      simp only [seq] at unfit
      simp only [if_neg unfit]
      exact ih (ordered.sublist (List.eraseIdx_sublist ..))
  | case5 index budget st inside full =>
      rw [overtakingFrom, dif_pos inside, if_neg full]
      exact ⟨List.forall_mem_nil _, ordered⟩
  | case6 index budget st outside =>
      rw [overtakingFrom, dif_neg outside]
      exact ⟨List.forall_mem_nil _, ordered⟩

theorem admittedRule :
    LoopRule (α := α) runner scheduler (fun _ => True) (fun s => ∀ seq ∈ s.running, Admitted seq) where
  arrive _ _ admitted _ _ _ := admitted
  schedule {s now} ok _ admitted _ _ := by
    rw [schedule_running _ _ _ ok.live_distinct]
    exact (ok.holds (stamping scheduler now) trivial admitted fun _ _ => trivial).running
  forward _ _ admitted _ _ _ := admitted
  results {s now flight results folded} _ _ admitted _ _ _ spec := by
    intro seq member
    obtain ⟨source, found, left⟩ := spec.running_source member
    rcases left with ⟨-, rfl⟩ | ⟨token, -, rfl⟩
    · exact admitted _ found
    · exact admitted source found
  failed ok _ admitted inFlight _ := by
    intro seq member
    rw [failed_running ok inFlight] at member
    exact admitted seq (List.mem_of_mem_filter member)
  deviceLost _ _ admitted _ _ := admitted
  abortAll ok _ _ _ _ := by
    intro seq member
    rw [abortAll_running ok] at member
    cases member

theorem admitted_running {allocator : α} {start : ρ} {s : EngineState α ρ}
    (reachable : (loop runner scheduler allocator start).Reachable s) :
    ∀ seq ∈ s.running, Admitted seq :=
  admittedRule.reachable (fun _ _ => trivial) (List.forall_mem_nil _) reachable

/-! ## What is promised -/

def skipsOf (s : EngineState α ρ) (id : SeqId) : Nat :=
  (((s.running ++ s.waiting).find? (·.seqId = id)).map (·.admissionSkips)).getD 0

/-- `seq` has spent its skips, since `s` or, being among `promised`, while it waited before. -/
def Promised (s : EngineState α ρ) (promised : List SeqId) (seq : Sequence) : Prop :=
  Spent seq ∧ (seq.seqId ∈ promised ∨ skipsOf s seq.seqId < maxAdmissionSkips)

instance (s : EngineState α ρ) (promised : List SeqId) (seq : Sequence) :
    Decidable (Promised s promised seq) := inferInstanceAs (Decidable (_ ∧ _))

def promisedAfter (s : EngineState α ρ) (promised : List SeqId) (t : EngineState α ρ) :
    List SeqId :=
  (t.waiting.filter (Promised s promised ·)).map (·.seqId)

def promises (machine : Machine (EngineState α ρ) Event) :
    Machine (EngineState α ρ × List SeqId) Event := machine.recording [] promisedAfter

/-- No admission of the scheduler step of `s` leaves a sequence waiting in front of it that is
promised to be next. -/
def Frozen (scheduler : Scheduler) (now : Time) (s : EngineState α ρ) (promised : List SeqId) :
    Prop :=
  ∀ pair ∈ overtaking scheduler now s, ∀ seq ∈ pair.1, ¬Promised s promised seq

instance (scheduler : Scheduler) (now : Time) (s : EngineState α ρ) (promised : List SeqId) :
    Decidable (Frozen scheduler now s promised) := inferInstanceAs (Decidable (∀ _ ∈ _, _))

omit [KVAllocator α] in
theorem skipsOf_waiting {s : EngineState α ρ} (ok : Consistent runner s) {seq : Sequence}
    (member : seq ∈ s.running ++ s.waiting) : skipsOf s seq.seqId = seq.admissionSkips := by
  rw [skipsOf, Keyed.find?_of_mem ok.live_distinct member]
  rfl

structure PromisesOk (s : EngineState α ρ) (promised : List SeqId) : Prop where
  waits : ∀ id ∈ promised, ∃ seq ∈ s.waiting, seq.seqId = id ∧ Spent seq
  ordered : Ahead (·.seqId ∈ promised) s.waiting

omit [KVAllocator α] in
theorem mem_promisedAfter {s t : EngineState α ρ} {promised : List SeqId} {id : SeqId} :
    id ∈ promisedAfter s promised t ↔
      ∃ seq ∈ t.waiting, Promised s promised seq ∧ seq.seqId = id := by
  simp [promisedAfter, and_assoc]

omit [KVAllocator α] in
theorem PromisesOk.after {s t : EngineState α ρ} {promised : List SeqId} (ok : Consistent runner t)
    (ordered : Ahead (Promised s promised) t.waiting) :
    PromisesOk t (promisedAfter s promised t) := by
  refine ⟨fun id named => ?_, ordered.imp_of_mem fun _ member before named => ?_⟩
  · obtain ⟨seq, member, owed, rfl⟩ := mem_promisedAfter.mp named
    exact ⟨seq, member, rfl, owed.1⟩
  · obtain ⟨seq, found, owed, same⟩ := mem_promisedAfter.mp named
    have distinct := ok.live_distinct
    rw [List.map_append] at distinct
    obtain rfl := List.inj_on_of_nodup_map distinct.of_append_right found member same
    exact before owed

omit [KVAllocator α] in
theorem PromisesOk.waiting {s : EngineState α ρ} {promised : List SeqId} (ok : Consistent runner s)
    (holds : PromisesOk s promised) : Ahead (Promised s promised) s.waiting := by
  refine holds.ordered.imp_of_mem fun _ member before owed => before ?_
  rcases owed.2 with named | few
  · exact named
  · rw [skipsOf_waiting ok (List.mem_append_right _ member)] at few
    exact absurd owed.1 (Nat.not_le.mpr few)

theorem PromisesOk.planned {s : EngineState α ρ} {promised : List SeqId} {preempted : List Sequence}
    (ok : Consistent runner s) (holds : PromisesOk s promised)
    (decoded : (planDecodes ⟨s.running, s.waiting, s.allocator, {}⟩).waiting =
      preempted ++ s.waiting)
    (ran : ∀ seq ∈ preempted, ∃ source ∈ s.running,
      seq.seqId = source.seqId ∧ seq.admissionSkips = source.admissionSkips)
    (admitted : ∀ seq ∈ preempted, Admitted seq) :
    (∀ pair ∈ overtaking scheduler now s, ∀ seq ∈ pair.1, Promised s promised seq →
      ∃ head ∈ pair.1.head?, ¬Spent head ∧ Admitted head) ∧
      Ahead (Promised s promised) (planned scheduler now s).waiting := by
  have nobody : ∀ seq ∈ preempted, ¬Promised s promised seq := by
    rintro seq member ⟨spent, named | few⟩
    · obtain ⟨source, running, id, -⟩ := ran seq member
      obtain ⟨other, waiting, same, -⟩ := holds.waits _ named
      exact ok.running_not_waiting (List.mem_map_of_mem running)
        (id ▸ same ▸ List.mem_map_of_mem waiting)
    · obtain ⟨source, running, id, skips⟩ := ran seq member
      rw [id, skipsOf_waiting ok (List.mem_append_left _ running), ← skips] at few
      exact absurd spent (Nat.not_le.mpr few)
  have ordered : Ahead (Promised s promised)
      (planDecodes ⟨s.running, s.waiting, s.allocator, {}⟩).waiting := by
    rw [decoded]
    refine List.pairwise_append.mpr ⟨?_, holds.waiting ok, fun other member seq waits owed => ?_⟩
    · exact List.pairwise_of_forall_mem_list fun _ _ seq member owed =>
        absurd owed (nobody seq member)
    · exact .inr (admitted other member)
  exact overtakingFrom_head (fun _ owed => owed.1) scheduler now _ _ _ ordered

theorem applyOutcome_waiting (now : Time) (flight : InFlight) (outcome : Outcome)
    (s : EngineState α ρ) : (applyOutcome runner now flight outcome s).waiting = s.waiting := by
  cases outcome with
  | deviceLost => rfl
  | failed => rw [applyOutcome_failed, aborted]
  | results results =>
      simp only [applyOutcome]
      split
      · rfl
      · rw [endSequences_eq]

theorem waiting_forward {s t : EngineState α ρ} {outcome : Outcome}
    (step : Step runner scheduler s (.forward outcome) t) : t.waiting = s.waiting := by
  cases step with
  | forward _ _ _ => rfl

theorem waiting_apply {s t : EngineState α ρ} (step : Step runner scheduler s (.apply now) t) :
    t.waiting = s.waiting := by
  cases step with
  | apply _ _ => exact applyOutcome_waiting ..

theorem PromisesOk.quiet {s t : EngineState α ρ} {event : Event} {promised : List SeqId}
    (ok : Consistent runner s) (holds : PromisesOk s promised)
    (step : Step runner scheduler s event t) (quiet : ∀ now, event ≠ .schedule now) :
    Ahead (Promised s promised) t.waiting := by
  cases step with
  | @arrive req idle live fresh =>
      refine List.pairwise_append.mpr
        ⟨holds.waiting ok, List.pairwise_singleton _ _, fun other member seq new owed => ?_⟩
      rw [List.mem_singleton.mp new] at owed
      have unspent : ¬Spent (sequenceFromIngress req) := by
        show ¬maxAdmissionSkips ≤ 0
        decide
      exact absurd owed.1 unspent
  | schedule _ _ => exact absurd rfl (quiet _)
  | forward _ _ _ => exact holds.waiting ok
  | apply _ _ =>
      rw [applyOutcome_waiting]
      exact holds.waiting ok
  | abortAll _ => exact .nil

omit [KVAllocator α] in
theorem promised_kept {s t : EngineState α ρ} {promised : List SeqId} {seq : Sequence}
    (named : seq.seqId ∈ promised) (member : seq ∈ t.waiting) (spent : Spent seq) :
    seq.seqId ∈ promisedAfter s promised t :=
  mem_promisedAfter.mpr ⟨seq, member, ⟨spent, .inl named⟩, rfl⟩

theorem promises_iteration {allocator : α} {start : ρ} {s : EngineState α ρ}
    {promised : List SeqId} {tokens : List Token} {after : ρ}
    {meets : EngineState α ρ × List SeqId → Event → Prop} (others : AtSchedules meets)
    (reachable : ((promises (loop runner scheduler allocator start)).guarded meets).Reachable
      (s, promised))
    (met : meets (s, promised) (.schedule now)) (idle : s.inFlight = none) (serving : s.phase = .serving)
    (computed : ∀ flight, (schedule runner scheduler now s).inFlight = some flight →
      runner.forward flight.plan flight.seqs (schedule runner scheduler now s).runner
        (.results (sampled runner flight tokens)) after) :
    ∃ later,
      ((promises (loop runner scheduler allocator start)).guarded meets).Reachable
        (iteration runner scheduler now tokens after s, later) ∧
      ∀ seq ∈ (iteration runner scheduler now tokens after s).waiting,
        Promised s promised seq → seq.seqId ∈ later := by
  have first : ((promises (loop runner scheduler allocator start)).guarded meets).Reachable
      (schedule runner scheduler now s, promisedAfter s promised (schedule runner scheduler now s)) :=
    Machine.guarded_recording_next reachable met (.schedule idle serving)
  have scheduled (seq : Sequence) (waits : seq ∈ (schedule runner scheduler now s).waiting)
      (owed : Promised s promised seq) :
      seq.seqId ∈ promisedAfter s promised (schedule runner scheduler now s) :=
    mem_promisedAfter.mpr ⟨seq, waits, owed, rfl⟩
  rcases iteration_steps idle computed with same | ⟨outcome, middle, forward, apply⟩
  · rw [same]
    exact ⟨_, first, scheduled⟩
  · have second := Machine.guarded_recording_next first (others _ _ (by simp)) forward
    refine ⟨_, Machine.guarded_recording_next second (others _ _ (by simp)) apply,
      fun seq member owed => ?_⟩
    have middle_waits := waiting_apply apply ▸ member
    have waits := waiting_forward forward ▸ middle_waits
    exact promised_kept (promised_kept (scheduled seq waits owed) middle_waits owed.1) member owed.1

end LlmServing.Engine
