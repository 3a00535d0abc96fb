import LlmServing.Engine.Iteration
import LlmServing.Paged.Preemption

/-!
# The reserve of an admission

An admission leaves a free block for every sequence running before it, and none for the sequence it
admits. So the next decode pass preempts at most the tail, and only where every running sequence has
just filled its last block.
-/

namespace LlmServing.Paged

open Scheduling Runner Engine Lib

/-- At least as many free blocks as sequences running before the last. -/
def Reserved (a : BlockAllocator) (running : List Sequence) : Prop :=
  running.length ≤ a.freeBlocks.length + 1

variable {a : BlockAllocator} {running : List Sequence}

theorem planAdmissionsFrom_reserved {scheduler : Scheduler} {now : Time} {cap index budget : Nat}
    {st : Planning BlockAllocator} (released : ∀ seq ∈ st.waiting, Released seq.blockTable) :
    (planAdmissionsFrom scheduler now cap index budget st).running = st.running ∨
      Reserved (planAdmissionsFrom scheduler now cap index budget st).allocator
        (planAdmissionsFrom scheduler now cap index budget st).running := by
  suffices kept : ∀ start : List Sequence,
      st.running = start ∨ Reserved st.allocator st.running →
      (planAdmissionsFrom scheduler now cap index budget st).running = start ∨
        Reserved (planAdmissionsFrom scheduler now cap index budget st).allocator
          (planAdmissionsFrom scheduler now cap index budget st).running from
    kept st.running (.inl rfl)
  intro start before
  fun_induction planAdmissionsFrom scheduler now cap index budget st with
  | case1 | case5 | case6 => exact before
  | case2 index budget st inside room frozen seq fits chunk refused ih => exact ih released before
  | case3 index budget st inside room frozen seq fits chunk a' table granted admitted ih =>
      refine ih (fun other member => ?_) (.inr ?_)
      · obtain ⟨source, found, skips, rfl⟩ := mem_takeAdmitted member
        exact released source found
      · obtain ⟨none, zero⟩ := released seq (List.getElem_mem inside)
        obtain ⟨fits, rfl, -⟩ := BlockAllocator.allocate_eq_some granted
        have positive : 0 ≤ st.allocator.neededBlocks seq.blockTable chunk := by
          simp only [BlockAllocator.neededBlocks, none, List.length_nil]
          omega
        simp only [Reserved, List.length_append, List.length_singleton, List.length_drop]
        omega
  | case4 index budget st inside room frozen seq unfit ih =>
      exact ih (fun other member => released other (List.mem_of_mem_eraseIdx member)) before

theorem reserved_results {now : Time} {results : IterationResults}
    {before after : Folding BlockAllocator} (distinct : (before.running.map (·.seqId)).Nodup)
    (once : (results.map (·.1)).Nodup)
    (present : ∀ id ∈ results.map (·.1), id ∈ before.running.map (·.seqId))
    (folded : results.foldlM (foldResult now) before = some after)
    (reserved : Reserved before.allocator before.running) :
    Reserved after.allocator after.running := by
  refine foldResults_keeps (I := fun st => Reserved st.allocator st.running)
    (fun front seq behind a finished token holds => by simpa [Reserved] using holds)
    (fun front seq behind a finished token holds => ?_) distinct once present folded reserved
  have freed := (freed_free a seq.blockTable).count
  simp only [Reserved, List.length_append, List.length_cons] at holds ⊢
  omega

structure Tight (a : BlockAllocator) (running : List Sequence) : Prop where
  short : a.freeBlocks.length < running.length
  full : ∀ seq ∈ running, seq.status = .decoding ∧ a.neededBlocks seq.blockTable 1 = 1

instance (a : BlockAllocator) (running : List Sequence) : Decidable (Tight a running) :=
  decidable_of_iff (a.freeBlocks.length < running.length ∧
      ∀ seq ∈ running, seq.status = .decoding ∧ a.neededBlocks seq.blockTable 1 = 1)
    ⟨fun tight => ⟨tight.1, tight.2⟩, fun tight => ⟨tight.short, tight.full⟩⟩

theorem decodeNeed_le_one {seq : Sequence} (filled : TableFilled a.blockSize seq.blockTable) :
    decodeNeed a seq ≤ 1 := by
  have covers : seq.blockTable.numTokens ≤
      a.blockSize * (seq.blockTable.numTokens ⌈/⌉ a.blockSize) :=
    le_smul_ceilDiv a.blockSize_pos
  have positive := a.blockSize_pos
  have grows : (seq.blockTable.numTokens + 1) ⌈/⌉ a.blockSize ≤
      seq.blockTable.numTokens ⌈/⌉ a.blockSize + 1 := by
    rw [ceilDiv_le_iff_le_mul positive, Nat.mul_add]
    omega
  rw [TableFilled] at filled
  unfold decodeNeed BlockAllocator.neededBlocks
  split <;> omega

theorem decodeNeed_eq_one {seq : Sequence} :
    decodeNeed a seq = 1 ↔ seq.status = .decoding ∧ a.neededBlocks seq.blockTable 1 = 1 := by
  unfold decodeNeed
  split <;> simp_all

theorem decodeNeeds_le {seqs : List Sequence}
    (filled : ∀ seq ∈ seqs, TableFilled a.blockSize seq.blockTable) :
    decodeNeeds a seqs ≤ seqs.length ∧
      (decodeNeeds a seqs = seqs.length ↔ ∀ seq ∈ seqs, decodeNeed a seq = 1) := by
  induction seqs with
  | nil => simp
  | cons seq rest ih =>
      obtain ⟨le, all⟩ := ih fun other member => filled other (by simp [member])
      have one := decodeNeed_le_one (filled seq (by simp))
      rw [decodeNeeds_cons, List.length_cons, List.forall_mem_cons, ← all]
      omega

theorem keptCount_reserved (filled : ∀ seq ∈ running, TableFilled a.blockSize seq.blockTable)
    (reserved : Reserved a running) :
    running.length ≤ keptCount a running + 1 ∧
      (keptCount a running < running.length ↔ Tight a running) := by
  have keeps := keptCount_keeps a running
  rw [Reserved] at reserved
  have front : Affordable a running (running.length - 1) := by
    have needs : decodeNeeds a (running.take (running.length - 1)) ≤
        (running.take (running.length - 1)).length :=
      (decodeNeeds_le fun seq member => filled seq (List.mem_of_mem_take member)).1
    rw [List.length_take] at needs
    rw [Affordable]
    omega
  have whole : Affordable a running running.length ↔
      decodeNeeds a running ≤ a.freeBlocks.length := by
    rw [Affordable, List.take_length, List.drop_length, heldBy_nil]
    omega
  obtain ⟨le, all⟩ := decodeNeeds_le filled
  have most := keeps.largest _ (Nat.sub_le _ _) front
  refine ⟨by omega, fun less => ?_, fun tight => ?_⟩
  · have costs : (a.freeBlocks.length : Int) < decodeNeeds a running := by
      by_contra affordable
      have every := keeps.largest _ (Nat.le_refl _) (whole.mpr (by omega))
      omega
    exact ⟨by omega, fun seq member => decodeNeed_eq_one.mp (all.mp (by omega) seq member)⟩
  · have costs := all.mpr fun seq member => decodeNeed_eq_one.mpr (tight.full seq member)
    have short := tight.short
    have le := keeps.le
    by_contra every
    have same : keptCount a running = running.length := by omega
    have affordable := keeps.affordable
    rw [same, whole] at affordable
    omega

theorem mem_preempted_reserved (filled : ∀ seq ∈ running, TableFilled a.blockSize seq.blockTable)
    (reserved : Reserved a running) (id : SeqId) :
    id ∈ (running.drop (keptCount a running)).map (·.seqId) ↔
      Tight a running ∧ running.getLast?.map (·.seqId) = some id := by
  obtain ⟨le, less⟩ := keptCount_reserved filled reserved
  have whole := (keptCount_keeps a running).le
  by_cases tight : Tight a running
  · have nonempty : running ≠ [] := List.ne_nil_of_length_pos (by have := tight.short; omega)
    have last : keptCount a running = running.length - 1 := by
      have := less.mpr tight
      omega
    rw [last, List.drop_length_sub_one nonempty, List.getLast?_eq_some_getLast nonempty]
    simp [tight, eq_comm]
  · have all : keptCount a running = running.length := by
      have := mt less.mp tight
      omega
    rw [all, List.drop_length]
    simp [tight]

/-! ## Two scheduler steps -/

variable {ρ : Type} {runner : ModelRunner ρ} {scheduler : Scheduler} {now later : Time}
  {tokens : List Token} {after : ρ} {numBlocks blockSize : Nat} {s : EngineState BlockAllocator ρ}

def admitted (scheduler : Scheduler) (now : Time) (s : EngineState BlockAllocator ρ) :
    List Sequence :=
  (planned scheduler now s).running.drop
    (planDecodes ⟨s.running, s.waiting, s.allocator, {}⟩).running.length

/-- No sequence that the scheduler step of `s` admits is preempted by the next one, which comes after
the results of `tokens` and the arrival of `reqs`. -/
def Headroom (runner : ModelRunner ρ) (scheduler : Scheduler) (now later : Time)
    (tokens : List Token) (after : ρ) (reqs : List IngressRequest)
    (s : EngineState BlockAllocator ρ) : Prop :=
  ∀ seq ∈ admitted scheduler now s, seq.seqId ∉
    (planned scheduler later
      (arrived reqs (iteration runner scheduler now tokens after s))).plan.preempted

theorem planned_reserved (owns : Ownership numBlocks blockSize s)
    (some : admitted scheduler now s ≠ []) :
    Reserved (planned scheduler now s).allocator (planned scheduler now s).running := by
  have filled : ∀ seq ∈ s.running, TableFilled s.allocator.blockSize seq.blockTable :=
    owns.sized.blockSize.symm ▸ owns.filled
  obtain ⟨a, served, done, -⟩ := planDecodes_kept filled s.waiting
  have released : ∀ seq ∈ (planDecodes ⟨s.running, s.waiting, s.allocator, {}⟩).waiting,
      Released seq.blockTable := by
    rw [done]
    intro seq member
    rcases List.mem_append.mp member with member | member
    · obtain ⟨source, -, rfl⟩ := List.mem_map.mp member
      exact ⟨rfl, rfl⟩
    · exact owns.waiting seq member
  unfold admitted planned at some
  unfold planned
  simp only [schedulerStep, planAdmissions, planPrefillContinuations] at some ⊢
  refine (planAdmissionsFrom_reserved (by exact released)).resolve_left fun same => some ?_
  rw [same]
  exact List.drop_eq_nil_of_le (length_continuePrefills _ _ _ _ _).le

theorem schedule_reserved (runner : ModelRunner ρ) (owns : Ownership numBlocks blockSize s)
    (some : admitted scheduler now s ≠ []) :
    Reserved (schedule runner scheduler now s).allocator (planned scheduler now s).running := by
  have reserved := planned_reserved owns some
  have more : (planned scheduler now s).allocator.freeBlocks.length ≤
      (schedule runner scheduler now s).allocator.freeBlocks.length := by
    rw [schedule_eq, handOff_allocator, abortAndEnd_eq]
    refine foldl_abortOne_allocator
      (R := fun a : BlockAllocator =>
        (planned scheduler now s).allocator.freeBlocks.length ≤ a.freeBlocks.length)
      (fun a table less => less.trans ?_) _ _ (Nat.le_refl _)
    rw [(freed_free a table).count]
    exact Nat.le_add_right _ _
  exact Nat.le_trans reserved (Nat.add_le_add_right more 1)

theorem iteration_reserved (after : ρ) (ok : Consistent runner s) (owns : Ownership numBlocks blockSize s)
    (idle : s.inFlight = none) (serving : s.phase = .serving)
    (samples : Samples tokens (schedule runner scheduler now s))
    (some : admitted scheduler now s ≠ []) :
    Reserved (iteration runner scheduler now tokens after s).allocator
      (iteration runner scheduler now tokens after s).running := by
  have reserved := schedule_reserved runner owns some
  have running := schedule_running runner scheduler now ok.live_distinct
  rcases iteration_cases after ok idle serving samples with
    ⟨-, same⟩ | ⟨flight, folded, -, computed, done, -, same⟩
  · rw [same, running]
    exact reserved
  · have flightOk := computed.flight _ rfl
    have distinct := computed.running_distinct
    have present := flightOk.results_present rfl
    simp only [running] at distinct present
    rw [same]
    exact reserved_results distinct (flightOk.results_once rfl) present done reserved

/-- An admitted sequence is preempted by the next scheduler step exactly when it is the tail of
`running` and `running` is tight. -/
theorem admission_headroom (runner : ModelRunner ρ) (scheduler : Scheduler)
    {numBlocks blockSize : Nat} (positive : 0 < blockSize) (start : ρ)
    {s : EngineState BlockAllocator ρ}
    (reachable : (loop runner scheduler (.fresh numBlocks blockSize positive) start).Reachable s)
    (idle : s.inFlight = none) (serving : s.phase = .serving) (now later : Time)
    {tokens : List Token} (samples : Samples tokens (schedule runner scheduler now s)) (after : ρ)
    (reqs : List IngressRequest) :
    Headroom runner scheduler now later tokens after reqs s ↔
      ¬(Tight (iteration runner scheduler now tokens after s).allocator
          (iteration runner scheduler now tokens after s).running ∧
        ∃ seq ∈ admitted scheduler now s,
          (iteration runner scheduler now tokens after s).running.getLast?.map (·.seqId) =
            some seq.seqId) := by
  have ok := consistent reachable
  have owns := ownership reachable
  have owns' : Ownership numBlocks blockSize (iteration runner scheduler now tokens after s) :=
    ownershipRule.iteration (fun _ _ _ owns => ⟨owns.sized, owns.owned, owns.filled, owns.waiting,
      owns.ended, owns.prefilling⟩) ok idle serving samples owns
  have headroom (some : admitted scheduler now s ≠ []) :=
    iteration_reserved after ok owns idle serving samples some
  unfold Headroom
  generalize iteration runner scheduler now tokens after s = next at owns' headroom ⊢
  have filled : ∀ seq ∈ next.running, TableFilled next.allocator.blockSize seq.blockTable :=
    owns'.sized.blockSize.symm ▸ owns'.filled
  obtain ⟨a, served, done, -⟩ := planDecodes_kept filled (arrived reqs next).waiting
  have preempted : (planned scheduler later (arrived reqs next)).plan.preempted =
      ((next.running.drop (keptCount next.allocator next.running)).map (·.seqId)).reverse := by
    rw [planned, schedulerStep_preempted]
    exact congrArg (·.plan.preempted) done
  have gone (seq : Sequence) (member : seq ∈ admitted scheduler now s) :=
    mem_preempted_reserved filled (headroom (List.ne_nil_of_mem member)) seq.seqId
  rw [preempted]
  simp only [List.mem_reverse]
  constructor
  · rintro spared ⟨tight, seq, member, tail⟩
    exact spared seq member ((gone seq member).mpr ⟨tight, tail⟩)
  · intro loose seq member preempted
    obtain ⟨tight, tail⟩ := (gone seq member).mp preempted
    exact loose ⟨tight, seq, member, tail⟩

abbrev exactLoop : Machine (EngineState BlockAllocator Caches) Event :=
  loop (hfRunner [] List.length) sampleScheduler (samplePool 3 3) fun _ => []

def exactArrived : EngineState BlockAllocator Caches :=
  arrived [sampleRequest 0 1 [2, 3, 4] 3, sampleRequest 1 1 [2, 3, 4] 3]
    { allocator := samplePool 3 3, runner := fun _ => [] }

theorem exactArrived_reachable : exactLoop.Reachable exactArrived :=
  arrived_reachable _ (.initial rfl) rfl (by decide) (by decide) (by decide)

def exactComputed : Caches × List Token :=
  forwardPlanned List.length (schedule (hfRunner [] List.length) sampleScheduler 0 exactArrived)

theorem exact_samples :
    Samples exactComputed.2 (schedule (hfRunner [] List.length) sampleScheduler 0 exactArrived) :=
  fun _ inFlight => (forwardPlanned_computed [] _ inFlight).1

/-- Both are admitted in one step, which leaves one block free; the second preempts itself in the
next. -/
theorem headroom_fails :
    exactLoop.Reachable exactArrived ∧ exactArrived.inFlight = none ∧
    exactArrived.phase = .serving ∧
    ¬Headroom (hfRunner [] List.length) sampleScheduler 0 0 exactComputed.2 exactComputed.1 []
      exactArrived := by
  refine ⟨exactArrived_reachable, rfl, rfl, fun spared => ?_⟩
  have preempted : ∃ seq ∈ admitted sampleScheduler 0 exactArrived,
      seq.seqId ∈ (planned sampleScheduler 0 (arrived [] (iterationHf [] List.length
        sampleScheduler 0 exactArrived))).plan.preempted := by decide +kernel
  obtain ⟨seq, member, gone⟩ := preempted
  exact spared seq member gone

theorem admission_headroom_exact :
    Headroom (hfRunner [] List.length) sampleScheduler 0 0 exactComputed.2 exactComputed.1 []
        exactArrived ↔
      ¬(Tight (iteration (hfRunner [] List.length) sampleScheduler 0 exactComputed.2
            exactComputed.1 exactArrived).allocator
          (iteration (hfRunner [] List.length) sampleScheduler 0 exactComputed.2
            exactComputed.1 exactArrived).running ∧
        ∃ seq ∈ admitted sampleScheduler 0 exactArrived,
          (iteration (hfRunner [] List.length) sampleScheduler 0 exactComputed.2
            exactComputed.1 exactArrived).running.getLast?.map (·.seqId) = some seq.seqId) :=
  admission_headroom (hfRunner [] List.length) sampleScheduler (by decide) _
    exactArrived_reachable rfl rfl 0 0 exact_samples _ []

end LlmServing.Paged
