import LlmServing.Contiguous.Batches
import LlmServing.Paged.Rejection

/-!
# Batches on the paged allocator

`admission_cap` of the static scheduler asks whether anybody is running. A request preempted from the
batch is not, so when the others have finished the next batch is admitted beside it.
-/

namespace LlmServing.Paged

open Scheduling Runner Engine Lib

variable {ρ : Type} {runner : ModelRunner ρ} {scheduler : Scheduler} {now : Time}
  {numBlocks blockSize : Nat} {s : EngineState BlockAllocator ρ} {batch : List SeqId}

/-- The decode pass keeps nobody, with room for two, while one who was admitted before and one who
never was wait for a pool that can hold either. -/
structure Mixing (scheduler : Scheduler) (numBlocks blockSize : Nat)
    (s : EngineState BlockAllocator ρ) : Prop where
  nobody : s.running.take (keptCount s.allocator s.running) = []
  room : 2 ≤ scheduler.maxRunning
  budget : 2 ≤ scheduler.tokenBudget
  old : ∃ seq ∈ s.running ++ s.waiting, Admitted seq ∧ ¬Unfit numBlocks blockSize seq.numTokens
  new : ∃ seq ∈ s.waiting, ¬Admitted seq ∧ ¬Unfit numBlocks blockSize seq.numTokens

def Parted (scheduler : Scheduler) (numBlocks blockSize : Nat)
    (st : EngineState BlockAllocator ρ × List SeqId) (event : Event) : Prop :=
  ∀ now, event = .schedule now → ¬Mixing scheduler numBlocks blockSize st.1

/-! ## Nobody kept -/

theorem drop_kept (nobody : s.running.take (keptCount s.allocator s.running) = []) :
    s.running.drop (keptCount s.allocator s.running) = s.running := by
  have split := List.take_append_drop (keptCount s.allocator s.running) s.running
  rwa [nobody, List.nil_append] at split

theorem continued_kept (scheduler : Scheduler) (owns : Ownership numBlocks blockSize s) :
    (continued scheduler s).running.length =
      (s.running.take (keptCount s.allocator s.running)).length := by
  have filled : ∀ seq ∈ s.running, TableFilled s.allocator.blockSize seq.blockTable :=
    owns.sized.blockSize.symm ▸ owns.filled
  obtain ⟨a, served, done, decoded⟩ := planDecodes_kept filled s.waiting
  simp only [continued, planPrefillContinuations, done]
  exact (length_continuePrefills ..).trans decoded.grown.length_eq.symm

theorem planned_alone (scheduler : Scheduler) (now : Time) (ok : Consistent runner s)
    (owns : Ownership numBlocks blockSize s)
    (nobody : s.running.take (keptCount s.allocator s.running) = []) :
    ∃ a plan, a.freeBlocks.length = a.numBlocks ∧ Sized numBlocks blockSize a ∧
      planned scheduler now s = planAdmissionsFrom scheduler now scheduler.maxRunning 0
        scheduler.tokenBudget ⟨[], considered s, a, plan⟩ := by
  have filled : ∀ seq ∈ s.running, TableFilled s.allocator.blockSize seq.blockTable :=
    owns.sized.blockSize.symm ▸ owns.filled
  obtain ⟨a, served, done, decoded⟩ := planDecodes_kept filled s.waiting
  have empty : served = [] := by
    rw [← List.length_eq_zero_iff, ← decoded.grown.length_eq, nobody]
    rfl
  have sized : Sized numBlocks blockSize a := by
    have rule : PlanRule scheduler now (Sized numBlocks blockSize) _ _ := filling scheduler now
    have reached := rule.allocator (continued_steps scheduler now _ _ _ ok.live_distinct).1 owns.sized
    simpa only [planPrefillContinuations, done, empty, continuePrefills] using reached
  refine ⟨a, (planDecodes ⟨s.running, s.waiting, s.allocator, {}⟩).plan, ?_, sized, ?_⟩
  · have count := decoded.freeBlocks
    have total := owns.owned.heldBy_eq
    rw [nobody, drop_kept nobody, decodeNeeds_nil] at count
    rw [sized.numBlocks]
    omega
  · simp only [planned, schedulerStep, planAdmissions, planPrefillContinuations, done, empty,
      continuePrefills, admissionCap_nil]
    rfl

theorem planAdmissionsFrom_alone {cap budget : Nat} (tight : cap ≤ 1 ∨ budget ≤ 1)
    {waiting : List Sequence} {a : BlockAllocator} {plan : BatchPlan}
    (grants : ∀ seq ∈ waiting, canEverFit a seq = true → ∀ n ≤ seq.numTokens,
      allocate a seq n 0 ≠ none)
    (ordered : Ordered waiting) (old : ∃ seq ∈ waiting, Admitted seq ∧ canEverFit a seq = true) :
    ∀ seq ∈ (planAdmissionsFrom scheduler now cap 0 budget ⟨[], waiting, a, plan⟩).running,
      ∃ source ∈ waiting, Admitted source ∧ source.seqId = seq.seqId := by
  induction waiting generalizing plan with
  | nil =>
      obtain ⟨seq, member, -⟩ := old
      cases member
  | cons first rest ih =>
      obtain ⟨seq, member, before, able⟩ := old
      rw [planAdmissionsFrom, dif_pos (by simp)]
      split
      · rename_i room
        rw [if_neg (by simp)]
        simp only [List.getElem_cons_zero]
        split
        · rename_i fits
          have chunk_le : min (min first.numTokens budget) scheduler.maxPrefillChunk ≤
              first.numTokens := by omega
          have stamped : Admitted first := by
            rcases List.mem_cons.mp member with rfl | member
            · exact before
            · exact (List.pairwise_cons.mp ordered).1 seq member before
          split
          · rename_i refused
            exact absurd refused (grants first (by simp) fits _ chunk_le)
          · -- The first that can ever fit takes the one place, or the one token.
            rename_i a' table granted
            have spent (st : Planning BlockAllocator) (one : st.running.length = 1) :
                ¬(0 < budget - min (min first.numTokens budget) scheduler.maxPrefillChunk ∧
                  st.running.length < cap) := by
              have some := first.numTokens_pos
              unfold Scheduler.maxPrefillChunk
              omega
            rw [planAdmissionsFrom_stop scheduler now 0 (spent _ rfl)]
            intro other member
            rw [List.nil_append, List.mem_singleton] at member
            exact ⟨first, by simp, stamped, by rw [member]; rfl⟩
        · rename_i unfit
          have later : ∃ seq ∈ rest, Admitted seq ∧ canEverFit a seq = true := by
            rcases List.mem_cons.mp member with rfl | member
            · exact absurd able unfit
            · exact ⟨seq, member, before, able⟩
          intro other runs
          obtain ⟨source, found, stamped, same⟩ :=
            ih (fun other member => grants other (by simp [member])) ordered.of_cons later other runs
          exact ⟨source, List.mem_cons_of_mem _ found, stamped, same⟩
      · exact List.forall_mem_nil _

theorem considered_brief (nobody : s.running.take (keptCount s.allocator s.running) = []) :
    (considered s).map brief = (s.running ++ s.waiting).map brief := by
  rw [considered, drop_kept nobody, List.map_append, List.map_map, List.map_append]
  rfl

theorem considered_released (owns : Ownership numBlocks blockSize s) :
    ∀ seq ∈ considered s, Released seq.blockTable := by
  intro seq member
  rcases List.mem_append.mp member with member | member
  · obtain ⟨source, -, rfl⟩ := List.mem_map.mp member
    exact ⟨rfl, rfl⟩
  · exact owns.waiting seq member

theorem planned_tight (ok : Consistent runner s) (owns : Ownership numBlocks blockSize s)
    (holds : Batched s batch)
    (nobody : s.running.take (keptCount s.allocator s.running) = [])
    (tight : scheduler.maxRunning ≤ 1 ∨ scheduler.tokenBudget ≤ 1)
    (old : ∃ seq ∈ s.running ++ s.waiting, Admitted seq ∧ ¬Unfit numBlocks blockSize seq.numTokens) :
    newcomers s.waiting (planned scheduler now s).running = [] := by
  obtain ⟨a, plan, whole, sized, same⟩ := planned_alone scheduler now ok owns nobody
  have briefs := considered_brief nobody
  have back : ∃ seq ∈ considered s, Admitted seq ∧ canEverFit a seq = true := by
    obtain ⟨seq, live, before, fits⟩ := old
    have member : brief seq ∈ (considered s).map brief := briefs ▸ List.mem_map_of_mem live
    obtain ⟨other, found, here⟩ := List.mem_map.mp member
    have tokens := numTokens_brief here
    refine ⟨other, found, (admitted_brief here).mpr before, ?_⟩
    rw [← Bool.not_eq_false, canEverFit_iff sized, tokens]
    exact fits
  rw [same]
  refine List.eq_nil_iff_forall_not_mem.mpr fun id named => ?_
  obtain ⟨runs, seq, waits, never, rfl⟩ := mem_newcomers.mp named
  obtain ⟨other, member, id⟩ := List.mem_map.mp runs
  obtain ⟨first, found, before, first_id⟩ := planAdmissionsFrom_alone tight
    (fun seq member fits _ le =>
      allocate_whole whole (considered_released owns seq member) fits le)
    (ordered_brief holds.live_ordered (briefs ▸ .refl _)) back other member
  have known : brief first ∈ (s.running ++ s.waiting).map brief := briefs ▸ List.mem_map_of_mem found
  obtain ⟨source, live, here⟩ := List.mem_map.mp known
  have source_id := seqId_brief here
  obtain rfl := live_eq ok live (List.mem_append_right _ waits)
    (source_id.trans (first_id.trans id))
  exact never ((admitted_brief here).mpr before)

theorem clears (static : scheduler.kind = .staticBatched) {positive : 0 < blockSize} {start : ρ} :
    Clears runner scheduler (BlockAllocator.fresh numBlocks blockSize positive) start
      (Parted scheduler numBlocks blockSize) (Sized numBlocks blockSize)
      (fun numTokens => ¬Unfit numBlocks blockSize numTokens) where
  static := static
  fitting a seq sized able unfit := by
    cases able.symm.trans ((canEverFit_iff sized).mpr unfit)
  reached s reachable := (ownership reachable).sized
  cleared s batch now reachable holds parted nobody new fresh seq live before fits := by
    have owns : Ownership numBlocks blockSize s := ownership reachable
    have kept : s.running.take (keptCount s.allocator s.running) = [] := by
      rw [← List.length_eq_zero_iff, ← continued_kept scheduler owns, nobody]
      rfl
    have ample (tight : scheduler.maxRunning ≤ 1 ∨ scheduler.tokenBudget ≤ 1) : False :=
      new (planned_tight (consistent reachable) owns holds kept tight ⟨seq, live, before, fits⟩)
    exact parted now rfl ⟨kept, by_contra fun few => ample (.inl (by omega)),
      by_contra fun few => ample (.inr (by omega)), ⟨seq, live, before, fits⟩, fresh⟩

/-- With the static scheduler no batch is larger than `max_running`, and none is admitted before every
request of the last has ended: on the contiguous allocator in any run, on the paged one in any run
that never schedules while a request of the batch waits that could be mixed with the next. -/
theorem static_batches (runner : ModelRunner ρ) (scheduler : Scheduler)
    (static : scheduler.kind = .staticBatched) (capacity : Nat) {numBlocks blockSize : Nat}
    (positive : 0 < blockSize) (start : ρ) :
    (∀ st event st',
      ((batches (loop runner scheduler (.fresh numBlocks blockSize positive) start)).guarded
        (Parted scheduler numBlocks blockSize)).Reachable st →
      ((batches (loop runner scheduler (.fresh numBlocks blockSize positive) start)).guarded
        (Parted scheduler numBlocks blockSize)).step st event st' →
      Unmixed st.1 st.2 st'.1) ∧
    (∀ st,
      (batches (loop runner scheduler (BlockAllocator.fresh numBlocks blockSize positive)
        start)).Reachable st → st.2.length ≤ scheduler.maxRunning) ∧
    (∀ st event st',
      (batches (loop runner scheduler ({ capacityTokens := capacity } : ContiguousAllocator)
        start)).Reachable st →
      (batches (loop runner scheduler ({ capacityTokens := capacity } : ContiguousAllocator)
        start)).step st event st' →
      Unmixed st.1 st.2 st'.1 ∧ st.2.length ≤ scheduler.maxRunning) := by
  refine ⟨fun st event st' reachable step => ?_, fun st reachable => batch_size reachable,
    fun st event st' reachable step => ⟨?_, batch_size reachable⟩⟩
  · exact (clears static).unmixed (fun now => filling scheduler now) reachable step
  · exact Contiguous.unmixed static reachable step

def pairScheduler : Scheduler := ⟨.staticBatched, 4, 2⟩

abbrev pairLoop : Machine (EngineState BlockAllocator Caches) Event :=
  loop (hfRunner [] List.length) pairScheduler (samplePool 5 0) fun _ => []

abbrev pairStart : EngineState BlockAllocator Caches :=
  { allocator := samplePool 5 0, runner := fun _ => [] }

def pairArrived : EngineState BlockAllocator Caches :=
  arrived [sampleRequest 0 1 [] 2, sampleRequest 1 1 [1] 5, sampleRequest 2 1 [] 5] pairStart

def pairTurn (s : EngineState BlockAllocator Caches) : EngineState BlockAllocator Caches :=
  iterationHf [] List.length pairScheduler 0 s

abbrev pairScheduled (s : EngineState BlockAllocator Caches) : EngineState BlockAllocator Caches :=
  schedule (hfRunner [] List.length) pairScheduler 0 s

def pairDrained : EngineState BlockAllocator Caches := pairTurn (pairTurn (pairTurn pairArrived))

section

variable {meets : EngineState BlockAllocator Caches × List SeqId → Event → Prop}
  {s : EngineState BlockAllocator Caches} {batch : List SeqId}

theorem pairTurn_guarded (others : AtSchedules meets)
    (reachable : ((batches pairLoop).guarded meets).Reachable (s, batch))
    (met : meets (s, batch) (.schedule 0)) (idle : s.inFlight = none) (serving : s.phase = .serving) :
    ((batches pairLoop).guarded meets).Reachable (pairTurn s, batchAfter s batch (pairScheduled s)) ∧
      (pairTurn s).inFlight = none ∧ (pairTurn s).phase = .serving := by
  have reached := Machine.recording_reachable (Machine.guarded_reachable reachable)
  exact ⟨batches_iteration others reachable met idle serving fun _ inFlight =>
      (forwardPlanned_computed [] List.length inFlight).2,
    (iterationHf_reachable 0 reached idle serving).2⟩

theorem pairTurn_reachable (reachable : (batches pairLoop).Reachable (s, batch))
    (idle : s.inFlight = none) (serving : s.phase = .serving) :
    (batches pairLoop).Reachable (pairTurn s, batchAfter s batch (pairScheduled s)) ∧
      (pairTurn s).inFlight = none ∧ (pairTurn s).phase = .serving := by
  have always : AtSchedules fun (_ : EngineState BlockAllocator Caches × List SeqId) _ => True :=
    fun _ _ _ => trivial
  have turned := pairTurn_guarded always (reachable.guarded fun _ _ => trivial) trivial idle serving
  exact ⟨Machine.guarded_reachable turned.1, turned.2⟩

end

theorem pairDrained_reachable :
    (batches pairLoop).Reachable (pairDrained, [0, 1]) ∧
      pairDrained.inFlight = none ∧ pairDrained.phase = .serving := by
  have reachable : pairLoop.Reachable pairArrived :=
    arrived_reachable _ (.initial rfl) rfl (by decide) (by decide) (by decide)
  obtain ⟨before, recorded⟩ := reachable.recording [] batchAfter
  obtain ⟨first, idle, serving⟩ := pairTurn_reachable recorded rfl rfl
  have new : newcomers pairArrived.waiting (pairScheduled pairArrived).running = [0, 1] := by
    decide +kernel
  rw [batchAfter, new, if_neg (List.cons_ne_nil _ _)] at first
  obtain ⟨second, idle, serving⟩ := pairTurn_reachable first idle serving
  have same : batchAfter (pairTurn pairArrived) [0, 1] (pairScheduled (pairTurn pairArrived)) =
      [0, 1] := by decide +kernel
  rw [same] at second
  obtain ⟨third, idle, serving⟩ := pairTurn_reachable second idle serving
  have last : batchAfter (pairTurn (pairTurn pairArrived)) [0, 1]
      (pairScheduled (pairTurn (pairTurn pairArrived))) = [0, 1] := by decide +kernel
  rw [last] at third
  exact ⟨third, idle, serving⟩

/-- The third request is admitted beside the second. -/
theorem static_batches_fails :
    ∃ st event st', (batches pairLoop).Reachable st ∧ (batches pairLoop).step st event st' ∧
      ¬Unmixed st.1 st.2 st'.1 := by
  obtain ⟨reachable, idle, serving⟩ := pairDrained_reachable
  have mixed : ¬Unmixed pairDrained [0, 1] (pairScheduled pairDrained) := by decide +kernel
  exact ⟨(pairDrained, [0, 1]), .schedule 0,
    (pairScheduled pairDrained, batchAfter pairDrained [0, 1] (pairScheduled pairDrained)),
    reachable, ⟨.schedule idle serving, rfl⟩, mixed⟩

def lineArrived : EngineState BlockAllocator Caches :=
  arrived [sampleRequest 0 1 [] 0, sampleRequest 1 1 [] 1, sampleRequest 2 1 [] 1] pairStart

def Unopposed (s : EngineState BlockAllocator Caches) : Prop :=
  s.running.take (keptCount s.allocator s.running) ≠ [] ∨ ∀ seq ∈ s.running ++ s.waiting, ¬Admitted seq

instance (s : EngineState BlockAllocator Caches) : Decidable (Unopposed s) :=
  inferInstanceAs (Decidable (_ ∨ _))

theorem Unopposed.parted {s : EngineState BlockAllocator Caches} {batch : List SeqId} {event : Event}
    (unopposed : Unopposed s) : Parted pairScheduler 5 1 (s, batch) event := by
  rintro _ - ⟨nobody, -, -, ⟨seq, member, old, -⟩, -⟩
  rcases unopposed with some | never
  · exact some nobody
  · exact never seq member old

theorem parted_others : AtSchedules (Parted (ρ := Caches) pairScheduler 5 1) :=
  fun _ _ others now same => absurd same (others now)

theorem lineArrived_reachable : ∃ batch,
    ((batches pairLoop).guarded (Parted pairScheduler 5 1)).Reachable (lineArrived, batch) := by
  have others : AtSchedules fun (_ : EngineState BlockAllocator Caches) event =>
      ∀ now, event ≠ .schedule now := fun _ _ others => others
  have arrives : (pairLoop.guarded fun _ event => ∀ now, event ≠ .schedule now).Reachable lineArrived :=
    arrived_guarded others _ (.initial rfl) rfl (by decide) (by decide) (by decide)
  exact arrives.guarded_recording [] batchAfter fun _ _ _ others now same => absurd same (others now)

theorem lineDrained_reachable :
    ((batches pairLoop).guarded (Parted pairScheduler 5 1)).Reachable (pairTurn lineArrived, [0, 1]) ∧
    ((batches pairLoop).guarded (Parted pairScheduler 5 1)).Reachable
      (pairTurn (pairTurn lineArrived), [0, 1]) ∧
    (pairTurn lineArrived).inFlight = none ∧ (pairTurn lineArrived).phase = .serving ∧
    (pairTurn (pairTurn lineArrived)).inFlight = none ∧
      (pairTurn (pairTurn lineArrived)).phase = .serving := by
  obtain ⟨before, reachable⟩ := lineArrived_reachable
  have first : Unopposed lineArrived := by decide +kernel
  obtain ⟨one, idle, serving⟩ := pairTurn_guarded parted_others reachable first.parted rfl rfl
  have new : newcomers lineArrived.waiting (pairScheduled lineArrived).running = [0, 1] := by
    decide +kernel
  rw [batchAfter, new, if_neg (List.cons_ne_nil _ _)] at one
  have second : Unopposed (pairTurn lineArrived) := by decide +kernel
  obtain ⟨two, idle', serving'⟩ := pairTurn_guarded parted_others one second.parted idle serving
  have same : batchAfter (pairTurn lineArrived) [0, 1] (pairScheduled (pairTurn lineArrived)) =
      [0, 1] := by decide +kernel
  rw [same] at two
  exact ⟨one, two, idle, serving, idle', serving'⟩

/-- The third request waits while the second runs, and is admitted once both have ended. -/
theorem static_batches_sample :
    ((pairTurn lineArrived).waiting.map (·.seqId) = [2] ∧
      Unmixed (pairTurn lineArrived) [0, 1] (pairScheduled (pairTurn lineArrived))) ∧
    newcomers (pairTurn (pairTurn lineArrived)).waiting
      (pairScheduled (pairTurn (pairTurn lineArrived))).running = [2] ∧
    ∀ id ∈ [0, 1], id ∈ (pairScheduled (pairTurn (pairTurn lineArrived))).ended.map (·.seqId) := by
  obtain ⟨one, two, idle, serving, idle', serving'⟩ := lineDrained_reachable
  have second : Unopposed (pairTurn lineArrived) := by decide +kernel
  have third : Unopposed (pairTurn (pairTurn lineArrived)) := by decide +kernel
  have new : newcomers (pairTurn (pairTurn lineArrived)).waiting
      (pairScheduled (pairTurn (pairTurn lineArrived))).running = [2] := by decide +kernel
  refine ⟨⟨by decide +kernel, ?_⟩, new, ?_⟩
  · exact (static_batches (hfRunner [] List.length) pairScheduler rfl 10 (by decide) fun _ => []).1
      (pairTurn lineArrived, [0, 1]) (.schedule 0)
      (pairScheduled (pairTurn lineArrived),
        batchAfter (pairTurn lineArrived) [0, 1] (pairScheduled (pairTurn lineArrived)))
      one ⟨second.parted, .schedule idle serving, rfl⟩
  · have unmixed := (static_batches (hfRunner [] List.length) pairScheduler rfl 10 (by decide)
      fun _ => []).1 (pairTurn (pairTurn lineArrived), [0, 1]) (.schedule 0)
      (pairScheduled (pairTurn (pairTurn lineArrived)),
        batchAfter (pairTurn (pairTurn lineArrived)) [0, 1]
          (pairScheduled (pairTurn (pairTurn lineArrived))))
      two ⟨third.parted, .schedule idle' serving', rfl⟩
    exact unmixed (by rw [new]; exact List.cons_ne_nil _ _)

end LlmServing.Paged
