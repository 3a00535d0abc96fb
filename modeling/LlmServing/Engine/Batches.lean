import LlmServing.Engine.Plans
import LlmServing.Engine.Starvation

/-!
# Batches

Whom one scheduler step admits for the first time is a batch. Which batch the engine is at depends on
the run, so it is recorded beside the states.
-/

namespace LlmServing.Engine

open Scheduling Runner Lib

variable {α ρ : Type} {runner : ModelRunner ρ} {scheduler : Scheduler} {now : Time}

/-- Who is in `running` and has waited without ever having been admitted. -/
def newcomers (waiting running : List Sequence) : List SeqId :=
  (running.map (·.seqId)).filter (· ∈ (waiting.filter (¬Admitted ·)).map (·.seqId))

theorem mem_newcomers {waiting running : List Sequence} {id : SeqId} :
    id ∈ newcomers waiting running ↔
      id ∈ running.map (·.seqId) ∧ ∃ seq ∈ waiting, ¬Admitted seq ∧ seq.seqId = id := by
  simp [newcomers, and_assoc]

def batchAfter (s : EngineState α ρ) (batch : List SeqId) (t : EngineState α ρ) : List SeqId :=
  if newcomers s.waiting t.running = [] then batch else newcomers s.waiting t.running

def batches (machine : Machine (EngineState α ρ) Event) :
    Machine (EngineState α ρ × List SeqId) Event := machine.recording [] batchAfter

/-- Nobody is new in `t` before every request of `batch` has finished, been rejected or aborted. -/
def Unmixed (s : EngineState α ρ) (batch : List SeqId) (t : EngineState α ρ) : Prop :=
  newcomers s.waiting t.running ≠ [] → ∀ id ∈ batch, id ∈ t.ended.map (·.seqId)

instance (s : EngineState α ρ) (batch : List SeqId) (t : EngineState α ρ) :
    Decidable (Unmixed s batch t) := inferInstanceAs (Decidable (_ → _))

def brief (seq : Sequence) : SeqId × Option Time × Nat :=
  (seq.seqId, seq.metrics.admitTime, seq.numTokens)

theorem admitted_brief {seq source : Sequence} (same : brief source = brief seq) :
    Admitted source ↔ Admitted seq := by
  have stamped : source.metrics.admitTime = seq.metrics.admitTime := congrArg (·.2.1) same
  rw [Admitted, Admitted, stamped]

theorem seqId_brief {seq source : Sequence} (same : brief source = brief seq) :
    source.seqId = seq.seqId := congrArg (·.1) same

theorem numTokens_brief {seq source : Sequence} (same : brief source = brief seq) :
    source.numTokens = seq.numTokens := congrArg (·.2.2) same

def Ordered (waiting : List Sequence) : Prop :=
  waiting.Pairwise fun front seq => Admitted seq → Admitted front

theorem ordered_brief {waiting source : List Sequence} (ordered : Ordered source)
    (fewer : (waiting.map brief).Sublist (source.map brief)) : Ordered waiting := by
  have stamped : (source.map brief).Pairwise fun front seq => seq.2.1 ≠ none → front.2.1 ≠ none :=
    List.pairwise_map.mpr ordered
  exact List.pairwise_map.mp (stamped.sublist fewer)

variable [KVAllocator α]

/-! ## The passes before the admissions -/

def briefs (st : Planning α) : List (SeqId × Option Time × Nat) :=
  (st.running ++ st.waiting).map brief

theorem briefs_preemptTail (st : Planning α) : briefs (preemptTail st) = briefs st := by
  unfold preemptTail
  split
  · rfl
  · rename_i victim last
    have whole : st.running.dropLast ++ [victim] = st.running :=
      List.dropLast_append_getLast? victim last
    calc (st.running.dropLast ++ requeue victim _ :: st.waiting).map brief
      _ = (st.running.dropLast ++ [victim] ++ st.waiting).map brief := by
          simp only [List.map_append, List.map_cons, List.append_assoc, List.singleton_append]
          rfl
      _ = briefs st := by rw [whole, briefs]

theorem briefs_preemptUntilAllocated (i : Nat) (st : Planning α) :
    briefs (preemptUntilAllocated i st).2 = briefs st := by
  fun_induction preemptUntilAllocated i st with
  | case1 st inside seq a' table granted =>
      have same : (st.running.set i { seq with blockTable := table }).map brief =
          st.running.map brief := by
        have bound : i < (st.running.map brief).length := by simpa using inside
        have here : brief { seq with blockTable := table } = (st.running.map brief)[i] :=
          (List.getElem_map brief).symm
        rw [List.map_set, here, List.set_getElem_self]
      simp only [briefs, List.map_append, same]
  | case2 st inside seq refused last => exact briefs_preemptTail st
  | case3 st inside seq refused more ih => exact ih.trans (briefs_preemptTail st)
  | case4 => rfl

theorem briefs_planDecodesFrom (i : Nat) (st : Planning α) :
    briefs (planDecodesFrom i st) = briefs st := by
  fun_induction planDecodesFrom i st with
  | case1 i st inside seq status tried served ih =>
      exact ih.trans (briefs_preemptUntilAllocated i st)
  | case2 i st inside seq status tried refused ih =>
      exact ih.trans (briefs_preemptUntilAllocated i st)
  | case3 i st inside seq status ih => exact ih
  | case4 => rfl

theorem briefs_continuePrefills (scheduler : Scheduler) (budget : Nat) (a : α) (plan : BatchPlan)
    (todo : List Sequence) :
    (continuePrefills scheduler budget a plan todo).1.map brief = todo.map brief := by
  induction todo generalizing budget a plan with
  | nil => rfl
  | cons seq rest ih =>
      simp only [continuePrefills]
      split
      · rw [List.map_cons, ih, List.map_cons]
      · split
        · rfl
        · rw [List.map_cons, ih, List.map_cons]
          rfl

def continued (scheduler : Scheduler) (s : EngineState α ρ) : Planning α :=
  (planPrefillContinuations scheduler (planDecodes ⟨s.running, s.waiting, s.allocator, {}⟩)).1

theorem briefs_continued (scheduler : Scheduler) (s : EngineState α ρ) :
    briefs (continued scheduler s) = (s.running ++ s.waiting).map brief := by
  have decoded := briefs_planDecodesFrom 0 ⟨s.running, s.waiting, s.allocator, {}⟩
  rw [briefs, continued, planPrefillContinuations, List.map_append]
  simp only [briefs_continuePrefills]
  rw [← List.map_append]
  exact decoded

theorem continued_source (scheduler : Scheduler) (s : EngineState α ρ) {seq : Sequence}
    (member : seq ∈ (continued scheduler s).running ++ (continued scheduler s).waiting) :
    ∃ source ∈ s.running ++ s.waiting, brief source = brief seq := by
  have known : brief seq ∈ (s.running ++ s.waiting).map brief :=
    briefs_continued scheduler s ▸ List.mem_map_of_mem member
  exact List.mem_map.mp known

omit [KVAllocator α] in
theorem map_brief_takeAdmitted (waiting : List Sequence) (index : Nat) :
    (takeAdmitted waiting index).map brief = (waiting.eraseIdx index).map brief := by
  unfold takeAdmitted
  split
  · cases waiting.eraseIdx index <;> rfl
  · rfl

theorem planAdmissionsFrom_fewer (scheduler : Scheduler) (now : Time) (cap index budget : Nat)
    (st : Planning α) :
    ((planAdmissionsFrom scheduler now cap index budget st).waiting.map brief).Sublist
      (st.waiting.map brief) := by
  fun_induction planAdmissionsFrom scheduler now cap index budget st with
  | case1 | case5 | case6 => exact .refl _
  | case2 index budget st inside room frozen seq fits chunk refused ih => exact ih
  | case3 index budget st inside room frozen seq fits chunk a' table granted admitted ih =>
      rw [map_brief_takeAdmitted] at ih
      exact ih.trans ((List.eraseIdx_sublist ..).map brief)
  | case4 index budget st inside room frozen seq unfit ih =>
      exact ih.trans ((List.eraseIdx_sublist ..).map brief)

variable {s : EngineState α ρ} {batch : List SeqId}

section

variable {R : α → Prop} {P : Prop → Option BatchEntry → Sequence → Prop}
  {Q : Prop → Sequence → Prop} {fits : Nat → Prop}

theorem planAdmissionsFrom_admits (rule : PlanRule scheduler now R P Q)
    (fitting : ∀ a seq, R a → canEverFit a seq = true → fits seq.numTokens)
    (cap index budget : Nat) {st : Planning α} (allocator : R st.allocator) {seq : Sequence}
    (member : seq ∈ (planAdmissionsFrom scheduler now cap index budget st).running) :
    seq ∈ st.running ∨ ∃ source ∈ st.waiting, source.seqId = seq.seqId ∧ fits source.numTokens := by
  fun_induction planAdmissionsFrom scheduler now cap index budget st with
  | case1 | case5 | case6 => exact .inl member
  | case2 index budget st inside room frozen first able chunk refused ih => exact ih allocator member
  | case3 index budget st inside room frozen first able chunk a' table granted admitted ih =>
      rcases ih (rule.grant allocator granted) member with found | ⟨source, found, same, enough⟩
      · rcases List.mem_append.mp found with found | found
        · exact .inl found
        · rw [List.mem_singleton.mp found]
          exact .inr ⟨first, List.getElem_mem inside, rfl, fitting _ _ allocator able⟩
      · obtain ⟨other, waits, skips, rfl⟩ := mem_takeAdmitted found
        exact .inr ⟨other, waits, same, enough⟩
  | case4 index budget st inside room frozen first unfit ih =>
      rcases ih allocator member with found | ⟨source, found, same, enough⟩
      · exact .inl found
      · exact .inr ⟨source, List.mem_of_mem_eraseIdx found, same, enough⟩

theorem planAdmissionsFrom_clears
    (fitting : ∀ a seq, R a → canEverFit a seq = true → fits seq.numTokens)
    (cap index budget : Nat) {st : Planning α} (allocator : R st.allocator)
    (ordered : Ordered st.waiting)
    (unfit : ∀ seq ∈ st.waiting, Admitted seq → ¬fits seq.numTokens)
    (passed : ∀ seq ∈ st.waiting.take index, ¬Admitted seq) :
    (planAdmissionsFrom scheduler now cap index budget st).running = st.running ∨
      ∀ seq ∈ (planAdmissionsFrom scheduler now cap index budget st).waiting, ¬Admitted seq := by
  fun_induction planAdmissionsFrom scheduler now cap index budget st with
  | case1 | case5 | case6 => exact .inl rfl
  | case2 index budget st inside room frozen first able chunk refused ih =>
      refine ih allocator ordered unfit fun seq member => ?_
      rw [List.take_succ_eq_append_getElem inside] at member
      rcases List.mem_append.mp member with member | member
      · exact passed seq member
      · rw [List.mem_singleton.mp member]
        exact fun old => unfit first (List.getElem_mem inside) old (fitting _ _ allocator able)
  | case3 index budget st inside room frozen first able chunk a' table granted admitted ih =>
      right
      have new : ¬Admitted first := fun old =>
        unfit first (List.getElem_mem inside) old (fitting _ _ allocator able)
      have behind : ∀ seq ∈ st.waiting.drop index, ¬Admitted seq := by
        rw [List.drop_eq_getElem_cons inside]
        have later : Ordered (first :: st.waiting.drop (index + 1)) := by
          rw [← List.drop_eq_getElem_cons inside]
          exact ordered.sublist (List.drop_sublist ..)
        refine List.forall_mem_cons.mpr ⟨new, fun seq member old => new ?_⟩
        exact (List.pairwise_cons.mp later).1 seq member old
      have nobody : ∀ seq ∈ st.waiting, ¬Admitted seq := fun seq member => by
        rw [← List.take_append_drop index st.waiting] at member
        exact (List.mem_append.mp member).elim (passed seq) (behind seq)
      intro seq member
      have left := (planAdmissionsFrom_fewer scheduler now cap index (budget - chunk) _).subset
        (List.mem_map_of_mem member)
      rw [map_brief_takeAdmitted] at left
      obtain ⟨source, found, same⟩ := List.mem_map.mp left
      exact fun old => nobody source (List.mem_of_mem_eraseIdx found) ((admitted_brief same).mpr old)
  | case4 index budget st inside room frozen first refused ih =>
      refine ih allocator (ordered.sublist (List.eraseIdx_sublist ..))
        (fun seq member => unfit seq (List.mem_of_mem_eraseIdx member)) ?_
      rw [List.take_eraseIdx_eq_take_of_le _ _ _ (Nat.le_refl index)]
      exact passed

omit [KVAllocator α] in
theorem admissionCap_static (static : scheduler.kind = .staticBatched) {running : List Sequence}
    (some : running ≠ []) : scheduler.admissionCap running = 0 := by
  rw [Scheduler.admissionCap, static]
  cases running with
  | nil => exact absurd rfl some
  | cons seq rest => rfl

theorem planAdmissionsFrom_stop (scheduler : Scheduler) (now : Time) {cap budget : Nat}
    (index : Nat) {st : Planning α} (stop : ¬(0 < budget ∧ st.running.length < cap)) :
    planAdmissionsFrom scheduler now cap index budget st = st := by
  rw [planAdmissionsFrom]
  by_cases inside : index < st.waiting.length
  · rw [dif_pos inside, if_neg stop]
  · rw [dif_neg inside]

theorem planned_closed (static : scheduler.kind = .staticBatched)
    (some : (continued scheduler s).running ≠ []) :
    planned scheduler now s = continued scheduler s := by
  show planAdmissions scheduler now _ (continued scheduler s) = continued scheduler s
  rw [planAdmissions, admissionCap_static static some]
  exact planAdmissionsFrom_stop scheduler now 0 fun room => Nat.not_lt_zero _ room.2

theorem planned_fewer (scheduler : Scheduler) (now : Time) (s : EngineState α ρ) :
    ((planned scheduler now s).waiting.map brief).Sublist ((s.running ++ s.waiting).map brief) := by
  have before : ((continued scheduler s).waiting.map brief).Sublist
      ((s.running ++ s.waiting).map brief) := by
    rw [← briefs_continued scheduler s]
    exact (List.sublist_append_right ..).map brief
  exact (planAdmissionsFrom_fewer scheduler now _ 0 _ _).trans before

structure Batched (s : EngineState α ρ) (batch : List SeqId) : Prop where
  running : ∀ seq ∈ s.running, Admitted seq
  ordered : Ordered s.waiting
  members : ∀ seq ∈ s.running ++ s.waiting, Admitted seq ↔ seq.seqId ∈ batch
  known : ∀ id ∈ batch, id ∈ s.ids

def Cleared (fits : Nat → Prop) (scheduler : Scheduler) (now : Time) (s : EngineState α ρ) : Prop :=
  (continued scheduler s).running = [] →
  newcomers s.waiting (planned scheduler now s).running ≠ [] →
  (∃ seq ∈ s.waiting, ¬Admitted seq ∧ fits seq.numTokens) →
  ∀ seq ∈ s.running ++ s.waiting, Admitted seq → ¬fits seq.numTokens

omit [KVAllocator α] in
theorem Batched.live_ordered (holds : Batched s batch) : Ordered (s.running ++ s.waiting) :=
  List.pairwise_append.mpr
    ⟨List.pairwise_of_forall_mem_list fun front member _ _ _ => holds.running front member,
      holds.ordered, fun front member _ _ _ => holds.running front member⟩

theorem Batched.planned_ordered (holds : Batched s batch) :
    Ordered (planned scheduler now s).waiting :=
  ordered_brief holds.live_ordered (planned_fewer scheduler now s)

theorem Batched.planned_admitted (ok : Consistent runner s) (holds : Batched s batch) :
    ∀ seq ∈ (planned scheduler now s).running, Admitted seq :=
  (ok.holds (stamping scheduler now) trivial holds.running fun _ _ => trivial).running

omit [KVAllocator α] in
theorem live_eq (ok : Consistent runner s) {seq other : Sequence}
    (member : seq ∈ s.running ++ s.waiting) (found : other ∈ s.running ++ s.waiting)
    (same : seq.seqId = other.seqId) : seq = other :=
  List.inj_on_of_nodup_map ok.live_distinct member found same

theorem continued_nil (static : scheduler.kind = .staticBatched) (ok : Consistent runner s)
    (holds : Batched s batch)
    (new : newcomers s.waiting (planned scheduler now s).running ≠ []) :
    (continued scheduler s).running = [] := by
  by_contra some
  obtain ⟨id, named⟩ := List.exists_mem_of_ne_nil _ new
  obtain ⟨runs, seq, waits, never, rfl⟩ := mem_newcomers.mp named
  obtain ⟨other, member, id⟩ := List.mem_map.mp runs
  have old := holds.planned_admitted ok other member
  rw [planned_closed static some] at member
  obtain ⟨source, found, same⟩ := continued_source scheduler s (List.mem_append_left _ member)
  have sameId := seqId_brief same
  obtain rfl := live_eq ok found (List.mem_append_right _ waits) (sameId.trans id)
  exact never ((admitted_brief same).mpr old)

theorem planned_admits (rule : PlanRule scheduler now R P Q)
    (fitting : ∀ a seq, R a → canEverFit a seq = true → fits seq.numTokens)
    (allocator : R s.allocator) (ok : Consistent runner s)
    (nobody : (continued scheduler s).running = []) {seq : Sequence}
    (member : seq ∈ (planned scheduler now s).running) :
    ∃ source ∈ s.running ++ s.waiting, source.seqId = seq.seqId ∧ fits source.numTokens := by
  have reached : R (continued scheduler s).allocator :=
    rule.allocator (continued_steps scheduler now _ _ _ ok.live_distinct).1 allocator
  rcases planAdmissionsFrom_admits rule fitting _ 0 _ reached member with runs | waits
  · rw [nobody] at runs
    cases runs
  · obtain ⟨other, found, id, enough⟩ := waits
    obtain ⟨source, live, same⟩ := continued_source scheduler s (List.mem_append_right _ found)
    have sameId := seqId_brief same
    have sameTokens := numTokens_brief same
    exact ⟨source, live, sameId.trans id, sameTokens ▸ enough⟩

theorem Batched.renewed (static : scheduler.kind = .staticBatched)
    (rule : PlanRule scheduler now R P Q)
    (fitting : ∀ a seq, R a → canEverFit a seq = true → fits seq.numTokens)
    (allocator : R s.allocator) (ok : Consistent runner s) (holds : Batched s batch)
    (cleared : Cleared fits scheduler now s)
    (new : newcomers s.waiting (planned scheduler now s).running ≠ []) :
    (∀ seq ∈ (planned scheduler now s).running,
        ∃ source ∈ s.waiting, ¬Admitted source ∧ source.seqId = seq.seqId) ∧
      ∀ seq ∈ (planned scheduler now s).waiting, ¬Admitted seq := by
  have nobody := continued_nil static ok holds new
  have admits {seq : Sequence} (member : seq ∈ (planned scheduler now s).running) :=
    planned_admits rule fitting allocator ok nobody member
  have unfit : ∀ seq ∈ s.running ++ s.waiting, Admitted seq → ¬fits seq.numTokens := by
    refine cleared nobody new ?_
    obtain ⟨id, named⟩ := List.exists_mem_of_ne_nil _ new
    obtain ⟨runs, seq, waits, never, rfl⟩ := mem_newcomers.mp named
    obtain ⟨other, member, id⟩ := List.mem_map.mp runs
    obtain ⟨source, live, same, enough⟩ := admits member
    obtain rfl := live_eq ok live (List.mem_append_right _ waits) (same.trans id)
    exact ⟨source, waits, never, enough⟩
  refine ⟨fun seq member => ?_, ?_⟩
  · obtain ⟨source, live, same, enough⟩ := admits member
    have never : ¬Admitted source := fun old => unfit source live old enough
    rcases List.mem_append.mp live with runs | waits
    · exact absurd (holds.running source runs) never
    · exact ⟨source, waits, never, same⟩
  · have reached : R (continued scheduler s).allocator :=
      rule.allocator (continued_steps scheduler now _ _ _ ok.live_distinct).1 allocator
    have whole : (continued scheduler s).waiting.map brief = (s.running ++ s.waiting).map brief := by
      rw [← briefs_continued scheduler s, briefs, nobody, List.nil_append]
    have ordered : Ordered (continued scheduler s).waiting :=
      ordered_brief holds.live_ordered (whole ▸ .refl _)
    have refused : ∀ seq ∈ (continued scheduler s).waiting, Admitted seq → ¬fits seq.numTokens := by
      intro seq member old
      obtain ⟨source, live, same⟩ := continued_source scheduler s (List.mem_append_right _ member)
      have sameTokens := numTokens_brief same
      exact sameTokens ▸ unfit source live ((admitted_brief same).mpr old)
    rcases planAdmissionsFrom_clears fitting _ 0 _ reached ordered refused
      (List.forall_mem_nil _) with same | left
    · refine absurd ?_ new
      have none : (planned scheduler now s).running = [] := same.trans nobody
      rw [none]
      rfl
    · exact left

omit [KVAllocator α] in
theorem newcomers_eq_nil (ok : Consistent runner s) {running : List Sequence}
    (ran : ∀ seq ∈ running, ∃ source ∈ s.running, source.seqId = seq.seqId) :
    newcomers s.waiting running = [] := by
  refine List.eq_nil_iff_forall_not_mem.mpr fun id named => ?_
  obtain ⟨runs, seq, waits, -, rfl⟩ := mem_newcomers.mp named
  obtain ⟨other, member, id⟩ := List.mem_map.mp runs
  obtain ⟨source, found, same⟩ := ran other member
  exact ok.running_not_waiting (List.mem_map_of_mem found)
    (same.trans id ▸ List.mem_map_of_mem waits)

omit [KVAllocator α] in
theorem Batched.kept (holds : Batched s batch) {t : EngineState α ρ}
    (none : newcomers s.waiting t.running = []) (admitted : ∀ seq ∈ t.running, Admitted seq)
    (ordered : Ordered t.waiting)
    (running : ∀ seq ∈ t.running, ∃ source ∈ s.running ++ s.waiting, source.seqId = seq.seqId)
    (waiting : ∀ seq ∈ t.waiting, ∃ source ∈ s.running ++ s.waiting, brief source = brief seq)
    (ids : ∀ id ∈ s.ids, id ∈ t.ids) : Batched t batch := by
  refine ⟨admitted, ordered, fun seq member => ?_, fun id named => ids id (holds.known id named)⟩
  rcases List.mem_append.mp member with runs | waits
  · obtain ⟨source, live, same⟩ := running seq runs
    refine iff_of_true (admitted seq runs) (same ▸ (holds.members source live).mp ?_)
    rcases List.mem_append.mp live with ran | waited
    · exact holds.running source ran
    · by_contra never
      have named : seq.seqId ∈ newcomers s.waiting t.running :=
        mem_newcomers.mpr ⟨List.mem_map_of_mem runs, source, waited, never, same⟩
      rw [none] at named
      cases named
  · obtain ⟨source, live, same⟩ := waiting seq waits
    have sameId := seqId_brief same
    rw [← admitted_brief same, ← sameId]
    exact holds.members source live

omit [KVAllocator α] in
theorem Batched.renew {t : EngineState α ρ} (after : Consistent runner t)
    (holds : Batched s batch) (admitted : ∀ seq ∈ t.running, Admitted seq)
    (fresh : ∀ seq ∈ t.running, ∃ source ∈ s.waiting, ¬Admitted source ∧ source.seqId = seq.seqId)
    (left : ∀ seq ∈ t.waiting, ¬Admitted seq)
    (waiting : ∀ seq ∈ t.waiting, ∃ source ∈ s.running ++ s.waiting, brief source = brief seq)
    (ids : ∀ id ∈ s.ids, id ∈ t.ids) :
    (newcomers s.waiting t.running ≠ [] → ∀ id ∈ batch, id ∈ t.ended.map (·.seqId)) ∧
      Batched t (newcomers s.waiting t.running) := by
  refine ⟨fun _ id named => ?_, admitted, ?_, ?_, fun id named => ?_⟩
  · rcases mem_ids.mp (ids id (holds.known id named)) with runs | waits | ended
    · obtain ⟨seq, member, rfl⟩ := List.mem_map.mp runs
      obtain ⟨source, found, never, same⟩ := fresh seq member
      exact absurd ((holds.members source (List.mem_append_right _ found)).mpr (same ▸ named)) never
    · obtain ⟨seq, member, rfl⟩ := List.mem_map.mp waits
      obtain ⟨source, live, same⟩ := waiting seq member
      have sameId := seqId_brief same
      refine absurd ((admitted_brief same).mp ?_) (left seq member)
      exact (holds.members source live).mpr (sameId ▸ named)
    · exact ended
  · exact List.pairwise_of_forall_mem_list fun _ _ seq member old => absurd old (left seq member)
  · intro seq member
    rcases List.mem_append.mp member with runs | waits
    · refine iff_of_true (admitted seq runs) (mem_newcomers.mpr ⟨List.mem_map_of_mem runs, ?_⟩)
      exact fresh seq runs
    · refine iff_of_false (left seq waits) fun named => ?_
      exact after.running_not_waiting (mem_newcomers.mp named).1 (List.mem_map_of_mem waits)
  · exact mem_ids.mpr (.inl (mem_newcomers.mp named).1)

theorem applyOutcome_source (now : Time) (ok : Consistent runner s) {flight : InFlight}
    {outcome : Outcome} (inFlight : s.inFlight = some flight)
    (done : flight.outcome = some outcome) :
    ∀ seq ∈ (applyOutcome runner now flight outcome s).running, ∃ source ∈ s.running,
      source.seqId = seq.seqId ∧ source.metrics.admitTime = seq.metrics.admitTime := by
  intro seq member
  cases outcome with
  | deviceLost => exact ⟨seq, member, rfl, rfl⟩
  | failed =>
      rw [applyOutcome_failed, failed_running ok inFlight] at member
      exact ⟨seq, List.mem_of_mem_filter member, rfl, rfl⟩
  | results results =>
      obtain ⟨folded, -, spec, applied⟩ := applyOutcome_results now ok inFlight done
      rw [applied] at member
      obtain ⟨source, found, ⟨-, rfl⟩ | ⟨token, -, rfl⟩⟩ := spec.running_source member
      · exact ⟨_, found, rfl, rfl⟩
      · exact ⟨source, found, rfl, rfl⟩

theorem planned_source_id (ok : Consistent runner s) {seq : Sequence}
    (member : seq ∈ (planned scheduler now s).running) :
    ∃ source ∈ s.running ++ s.waiting, source.seqId = seq.seqId := by
  have perm := schedulerStep_ids_perm scheduler now s.running s.waiting s.allocator
    ok.live_distinct
  have live : seq ∈ (planned scheduler now s).live :=
    List.mem_append_left _ (List.mem_append_left _ member)
  exact List.mem_map.mp (perm.symm.subset (List.mem_map_of_mem live))

theorem planned_source_brief {seq : Sequence} (member : seq ∈ (planned scheduler now s).waiting) :
    ∃ source ∈ s.running ++ s.waiting, brief source = brief seq :=
  List.mem_map.mp ((planned_fewer scheduler now s).subset (List.mem_map_of_mem member))

theorem Batched.schedule (static : scheduler.kind = .staticBatched)
    (rule : PlanRule scheduler now R P Q)
    (fitting : ∀ a seq, R a → canEverFit a seq = true → fits seq.numTokens)
    (allocator : R s.allocator) (ok : Consistent runner s) (idle : s.inFlight = none)
    (serving : s.phase = .serving) (holds : Batched s batch)
    (cleared : Cleared fits scheduler now s) :
    Unmixed s batch (schedule runner scheduler now s) ∧
      Batched (schedule runner scheduler now s)
        (batchAfter s batch (schedule runner scheduler now s)) := by
  have running := schedule_running runner scheduler now ok.live_distinct
  have waiting := schedule_waiting runner scheduler now s
  have after : Consistent runner (Engine.schedule runner scheduler now s) :=
    ok.schedule now idle serving
  have ids (id : SeqId) (known : id ∈ s.ids) : id ∈ (Engine.schedule runner scheduler now s).ids :=
    (ids_schedule scheduler now ok).symm.subset known
  unfold Unmixed batchAfter
  rw [running]
  by_cases none : newcomers s.waiting (planned scheduler now s).running = []
  · rw [if_pos none]
    refine ⟨fun new => absurd none new, holds.kept ?_ ?_ ?_ ?_ ?_ ids⟩
    · rw [running]
      exact none
    · rw [running]
      exact holds.planned_admitted ok
    · rw [waiting]
      exact holds.planned_ordered
    · rw [running]
      exact fun seq member => planned_source_id ok member
    · rw [waiting]
      exact fun seq member => planned_source_brief member
  · rw [if_neg none]
    obtain ⟨fresh, left⟩ := holds.renewed static rule fitting allocator ok cleared none
    rw [← running] at fresh ⊢
    rw [← waiting] at left
    refine holds.renew after ?_ fresh left ?_ ids
    · rw [running]
      exact holds.planned_admitted ok
    · rw [waiting]
      exact fun seq member => planned_source_brief member

end

/-! ## Whole runs -/

theorem newcomers_quiet {t : EngineState α ρ} {event : Event} (ok : Consistent runner s)
    (step : Step runner scheduler s event t) (quiet : ∀ now, event ≠ .schedule now) :
    newcomers s.waiting t.running = [] := by
  have same : newcomers s.waiting s.running = [] :=
    newcomers_eq_nil ok fun seq member => ⟨seq, member, rfl⟩
  cases step with
  | arrive _ _ _ => exact same
  | schedule _ _ => exact absurd rfl (quiet _)
  | forward _ _ _ => exact same
  | @apply now flight outcome inFlight done =>
      refine newcomers_eq_nil ok fun seq member => ?_
      obtain ⟨source, found, id, -⟩ := applyOutcome_source now ok inFlight done seq member
      exact ⟨source, found, id⟩
  | abortAll failing =>
      rw [abortAll_eq (ok.serving (by simp [failing])), abortAll_running ok]
      rfl

theorem Batched.quiet {t : EngineState α ρ} {event : Event} (ok : Consistent runner s)
    (holds : Batched s batch) (step : Step runner scheduler s event t)
    (quiet : ∀ now, event ≠ .schedule now) : Batched t batch := by
  have none := newcomers_quiet ok step quiet
  have ids (arrives : ∀ req, event ≠ .arrive req) : ∀ id ∈ s.ids, id ∈ t.ids := fun id known =>
    (ids_step ok step arrives).symm.subset known
  cases step with
  | @arrive req idle live fresh =>
      refine ⟨holds.running, ?_, ?_, ?_⟩
      · refine List.pairwise_append.mpr ⟨holds.ordered, List.pairwise_singleton _ _, ?_⟩
        intro front member seq new old
        rw [List.mem_singleton.mp new] at old
        exact absurd rfl old
      · intro seq member
        rw [← List.append_assoc] at member
        rcases List.mem_append.mp member with member | member
        · exact holds.members seq member
        · rw [List.mem_singleton.mp member]
          exact iff_of_false (fun old => old rfl) fun named => fresh (holds.known _ named)
      · intro id named
        exact (ids_arrive req).symm.subset (List.mem_cons_of_mem _ (holds.known id named))
  | schedule _ _ => exact absurd rfl (quiet _)
  | forward _ _ _ =>
      refine holds.kept none holds.running holds.ordered ?_ ?_ (ids (by simp))
      · exact fun seq member => ⟨seq, List.mem_append_left _ member, rfl⟩
      · exact fun seq member => ⟨seq, List.mem_append_right _ member, rfl⟩
  | @apply now flight outcome inFlight done =>
      have waiting : (applyOutcome runner now flight outcome s).waiting = s.waiting :=
        applyOutcome_waiting now flight outcome s
      have sources := applyOutcome_source now ok inFlight done
      refine holds.kept none ?_ ?_ ?_ ?_ (ids (by simp))
      · intro seq member
        obtain ⟨source, found, -, stamp⟩ := sources seq member
        rw [Admitted, ← stamp]
        exact holds.running source found
      · rw [waiting]
        exact holds.ordered
      · intro seq member
        obtain ⟨source, found, id, -⟩ := sources seq member
        exact ⟨source, List.mem_append_left _ found, id⟩
      · rw [waiting]
        exact fun seq member => ⟨seq, List.mem_append_right _ member, rfl⟩
  | abortAll failing =>
      have empty : (abortAll runner s).running = [] := by
        rw [abortAll_eq (ok.serving (by simp [failing]))]
        exact abortAll_running ok
      refine holds.kept none ?_ .nil ?_ (List.forall_mem_nil _) (ids (by simp))
      · rw [empty]
        exact List.forall_mem_nil _
      · rw [empty]
        exact List.forall_mem_nil _

section

variable {R : α → Prop} {P : Prop → Option BatchEntry → Sequence → Prop}
  {Q : Prop → Sequence → Prop} {fits : Nat → Prop} {allocator : α} {start : ρ}
  {meets : EngineState α ρ × List SeqId → Event → Prop} {st st' : EngineState α ρ × List SeqId}

structure Clears (runner : ModelRunner ρ) (scheduler : Scheduler) (allocator : α) (start : ρ)
    (meets : EngineState α ρ × List SeqId → Event → Prop) (R : α → Prop) (fits : Nat → Prop) :
    Prop where
  static : scheduler.kind = .staticBatched
  fitting : ∀ a seq, R a → canEverFit a seq = true → fits seq.numTokens
  reached : ∀ s, (loop runner scheduler allocator start).Reachable s → R s.allocator
  cleared : ∀ s batch now, (loop runner scheduler allocator start).Reachable s → Batched s batch →
    meets (s, batch) (.schedule now) → Cleared fits scheduler now s

theorem Clears.step (clears : Clears runner scheduler allocator start meets R fits)
    (rule : ∀ now, PlanRule scheduler now R P Q) {event : Event}
    (reachable : (loop runner scheduler allocator start).Reachable st.1)
    (holds : Batched st.1 st.2)
    (step : ((batches (loop runner scheduler allocator start)).guarded meets).step st event st') :
    Unmixed st.1 st.2 st'.1 ∧ Batched st'.1 st'.2 := by
  obtain ⟨met, step, same⟩ := step
  have move : Step runner scheduler st.1 event st'.1 := step
  have ok : Consistent runner st.1 := consistent reachable
  have record : st'.2 = batchAfter st.1 st.2 st'.1 := same
  rw [record]
  cases event with
  | schedule now =>
      generalize st'.1 = t at move ⊢
      cases move with
      | schedule idle serving =>
          exact holds.schedule clears.static (rule now) clears.fitting
            (clears.reached _ reachable) ok idle serving
            (clears.cleared st.1 st.2 now reachable holds met)
  | arrive | forward | apply | abortAll =>
      have none := newcomers_quiet ok move (by simp)
      rw [batchAfter, if_pos none]
      exact ⟨fun new => absurd none new, holds.quiet ok move (by simp)⟩

theorem Clears.batched (clears : Clears runner scheduler allocator start meets R fits)
    (rule : ∀ now, PlanRule scheduler now R P Q)
    (reachable : ((batches (loop runner scheduler allocator start)).guarded meets).Reachable st) :
    Batched st.1 st.2 := by
  refine reachable.invariant (P := fun st => Batched st.1 st.2) ?_ ?_
  · rintro ⟨_, _⟩ ⟨rfl, rfl⟩
    exact ⟨List.forall_mem_nil _, .nil, List.forall_mem_nil _, List.forall_mem_nil _⟩
  · intro st event st' before holds step
    exact (clears.step rule (Machine.recording_reachable (Machine.guarded_reachable before)) holds
      step).2

theorem Clears.unmixed (clears : Clears runner scheduler allocator start meets R fits)
    (rule : ∀ now, PlanRule scheduler now R P Q) {event : Event}
    (reachable : ((batches (loop runner scheduler allocator start)).guarded meets).Reachable st)
    (step : ((batches (loop runner scheduler allocator start)).guarded meets).step st event st') :
    Unmixed st.1 st.2 st'.1 :=
  (clears.step rule (Machine.recording_reachable (Machine.guarded_reachable reachable))
    (clears.batched rule reachable) step).1

end

theorem batch_size {allocator : α} {start : ρ} {st : EngineState α ρ × List SeqId}
    (reachable : (batches (loop runner scheduler allocator start)).Reachable st) :
    st.2.length ≤ scheduler.maxRunning := by
  refine reachable.invariant (P := fun st => st.2.length ≤ scheduler.maxRunning) ?_ ?_
  · rintro ⟨_, _⟩ ⟨-, rfl⟩
    exact Nat.zero_le _
  · rintro ⟨s, batch⟩ event ⟨t, later⟩ before fits ⟨step, same⟩
    obtain rfl : later = batchAfter s batch t := same
    show (batchAfter s batch t).length ≤ scheduler.maxRunning
    unfold batchAfter
    split
    · exact fits
    · calc (newcomers s.waiting t.running).length
        _ ≤ (t.running.map (·.seqId)).length := List.length_filter_le _ _
        _ = t.running.length := List.length_map _
        _ ≤ scheduler.maxRunning := roomy ((Machine.recording_reachable before).next step)

theorem batches_quiet {allocator : α} {start : ρ} {t : EngineState α ρ} {event : Event}
    {meets : EngineState α ρ × List SeqId → Event → Prop}
    (reachable : ((batches (loop runner scheduler allocator start)).guarded meets).Reachable (s, batch))
    (met : meets (s, batch) event) (step : Step runner scheduler s event t)
    (quiet : ∀ now, event ≠ .schedule now) :
    ((batches (loop runner scheduler allocator start)).guarded meets).Reachable (t, batch) := by
  have next := Machine.guarded_recording_next reachable met step
  have ok := consistent (Machine.recording_reachable (Machine.guarded_reachable reachable))
  rwa [batchAfter, if_pos (newcomers_quiet ok step quiet)] at next

theorem batches_iteration {allocator : α} {start : ρ} {tokens : List Token} {after : ρ}
    {meets : EngineState α ρ × List SeqId → Event → Prop} (others : AtSchedules meets)
    (reachable : ((batches (loop runner scheduler allocator start)).guarded meets).Reachable (s, batch))
    (met : meets (s, batch) (.schedule now)) (idle : s.inFlight = none) (serving : s.phase = .serving)
    (computed : ∀ flight, (schedule runner scheduler now s).inFlight = some flight →
      runner.forward flight.plan flight.seqs (schedule runner scheduler now s).runner
        (.results (sampled runner flight tokens)) after) :
    ((batches (loop runner scheduler allocator start)).guarded meets).Reachable
      (iteration runner scheduler now tokens after s,
        batchAfter s batch (schedule runner scheduler now s)) := by
  have first : ((batches (loop runner scheduler allocator start)).guarded meets).Reachable
      (schedule runner scheduler now s, batchAfter s batch (schedule runner scheduler now s)) :=
    Machine.guarded_recording_next reachable met (.schedule idle serving)
  rcases iteration_steps idle computed with same | ⟨outcome, middle, forward, apply⟩
  · rw [same]
    exact first
  · have second := batches_quiet first (others _ _ (by simp)) forward (by simp)
    exact batches_quiet second (others _ _ (by simp)) apply (by simp)

end LlmServing.Engine
