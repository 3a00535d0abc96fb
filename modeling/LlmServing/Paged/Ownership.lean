import LlmServing.Engine.Iteration
import LlmServing.Lib.Pool

/-!
# Who owns which block

The free list and the tables of the running sequences partition the pool, and a table holds the
blocks its tokens fill.
-/

namespace LlmServing.Paged

open Scheduling Runner Engine Lib

def holdings (seqs : List Sequence) : List (List Nat) := seqs.map (·.blockTable.physicalBlocks)

@[simp] theorem holdings_append (first second : List Sequence) :
    holdings (first ++ second) = holdings first ++ holdings second := List.map_append

@[simp] theorem holdings_cons (seq : Sequence) (seqs : List Sequence) :
    holdings (seq :: seqs) = seq.blockTable.physicalBlocks :: holdings seqs := rfl

@[simp] theorem holdings_nil : holdings [] = [] := rfl

def TableFilled (blockSize : Nat) (table : BlockTable) : Prop :=
  table.physicalBlocks.length = table.numTokens ⌈/⌉ blockSize

instance (blockSize : Nat) (table : BlockTable) : Decidable (TableFilled blockSize table) :=
  inferInstanceAs (Decidable (_ = _))

def Released (table : BlockTable) : Prop := table.physicalBlocks = [] ∧ table.numTokens = 0

structure Sized (numBlocks blockSize : Nat) (a : BlockAllocator) : Prop where
  numBlocks : a.numBlocks = numBlocks
  blockSize : a.blockSize = blockSize

def Owned (numBlocks : Nat) (a : BlockAllocator) (running : List Sequence) : Prop :=
  Partitioned (List.range numBlocks) a.freeBlocks (holdings running)

variable {numBlocks blockSize : Nat}

theorem Released.filled {table : BlockTable} (released : Released table) :
    TableFilled blockSize table := by
  simp [TableFilled, released.1, released.2]

theorem Sized.grant {a a' : BlockAllocator} {seq : Sequence} {n reserve : Nat} {table : BlockTable}
    (sized : Sized numBlocks blockSize a) (granted : allocate a seq n reserve = some (a', table)) :
    Sized numBlocks blockSize a' := by
  rw [(BlockAllocator.allocate_eq_some granted).2.1]
  exact ⟨sized.numBlocks, sized.blockSize⟩

theorem Sized.free {a : BlockAllocator} (sized : Sized numBlocks blockSize a) (table : BlockTable) :
    Sized numBlocks blockSize (free a table).1 := ⟨sized.numBlocks, sized.blockSize⟩

theorem TableFilled.grant {a a' : BlockAllocator} {seq : Sequence} {n reserve : Nat}
    {table : BlockTable} (sized : Sized numBlocks blockSize a)
    (filled : TableFilled blockSize seq.blockTable)
    (granted : allocate a seq n reserve = some (a', table)) : TableFilled blockSize table := by
  obtain ⟨fits, -, rfl⟩ := BlockAllocator.allocate_eq_some granted
  have positive := a.blockSize_pos
  have grows : seq.blockTable.numTokens ⌈/⌉ a.blockSize ≤
      (seq.blockTable.numTokens + n) ⌈/⌉ a.blockSize :=
    (gc_mul_ceilDiv positive).monotone_l (Nat.le_add_right _ _)
  rw [TableFilled, ← sized.blockSize] at filled
  rw [TableFilled, ← sized.blockSize]
  simp only [BlockAllocator.neededBlocks, List.length_append, List.length_take] at fits ⊢
  omega

theorem filling (scheduler : Scheduler) (now : Time) :
    PlanRule scheduler now (Sized numBlocks blockSize)
      (fun _ _ seq => TableFilled blockSize seq.blockTable)
      (fun _ seq => Released seq.blockTable) where
  grant sized granted := sized.grant granted
  release sized := sized.free _
  decode sized _ filled granted := filled.grant sized granted
  preempt _ _ := ⟨rfl, rfl⟩
  «continue» sized _ filled _ granted := filled.grant sized granted
  admission sized released _ _ granted := released.filled.grant sized granted
  skip released := released

theorem Owned.grow {a a' : BlockAllocator} {front behind : List Sequence} {seq seq' : Sequence}
    {n reserve : Nat} {table : BlockTable} (owned : Owned numBlocks a (front ++ seq :: behind))
    (granted : allocate a seq n reserve = some (a', table)) (same : seq'.blockTable = table) :
    Owned numBlocks a' (front ++ seq' :: behind) := by
  obtain ⟨-, rfl, rfl⟩ := BlockAllocator.allocate_eq_some granted
  simp only [Owned, holdings_append, holdings_cons, same] at owned ⊢
  exact owned.take _

theorem Owned.join {a a' : BlockAllocator} {running : List Sequence} {seq seq' : Sequence}
    {n reserve : Nat} {table : BlockTable} (owned : Owned numBlocks a running)
    (released : Released seq.blockTable)
    (granted : allocate a seq n reserve = some (a', table)) (same : seq'.blockTable = table) :
    Owned numBlocks a' (running ++ [seq']) := by
  obtain ⟨-, rfl, rfl⟩ := BlockAllocator.allocate_eq_some granted
  simp only [Owned, holdings_append, holdings_cons, holdings_nil, same, released.1,
    List.nil_append] at owned ⊢
  exact Partitioned.join _ owned

theorem Owned.leave {a : BlockAllocator} {front behind : List Sequence} {seq : Sequence}
    (owned : Owned numBlocks a (front ++ seq :: behind)) :
    Owned numBlocks (free a seq.blockTable).1 (front ++ behind) := by
  simp only [Owned, holdings_append, holdings_cons] at owned ⊢
  exact Partitioned.leave owned

theorem owned_preempt {a : BlockAllocator} {front : List Sequence} {victim : Sequence}
    (owned : Owned numBlocks a (front ++ [victim])) :
    Owned numBlocks (free a victim.blockTable).1 front := by
  have left : Owned numBlocks (free a victim.blockTable).1 (front ++ []) := owned.leave
  rwa [List.append_nil] at left

theorem owned_planStep {scheduler : Scheduler} {now : Time} {st st' : Planning BlockAllocator}
    (step : PlanStep scheduler now st st')
    (waiting : ∀ seq ∈ st.waiting, Released seq.blockTable)
    (owned : Owned numBlocks st.allocator st.running) :
    Owned numBlocks st'.allocator st'.running := by
  cases step with
  | decode status unplanned granted => exact owned.grow granted rfl
  | preempt unplanned served status refused => exact owned_preempt owned
  | «continue» status unplanned positive chunk granted => exact owned.grow granted rfl
  | reject unfit => exact owned
  | admission fits positive room chunk granted =>
      exact owned.join (waiting _ (by simp)) granted rfl

theorem owned_results {now : Time} {results : IterationResults} {before after : Folding BlockAllocator}
    (distinct : (before.running.map (·.seqId)).Nodup) (once : (results.map (·.1)).Nodup)
    (present : ∀ id ∈ results.map (·.1), id ∈ before.running.map (·.seqId))
    (folded : results.foldlM (foldResult now) before = some after)
    (sized : Sized numBlocks blockSize before.allocator)
    (owned : Owned numBlocks before.allocator before.running) :
    Sized numBlocks blockSize after.allocator ∧ Owned numBlocks after.allocator after.running := by
  refine foldResults_keeps (I := fun st =>
      Sized numBlocks blockSize st.allocator ∧ Owned numBlocks st.allocator st.running)
    (fun front seq behind a finished token holds => ⟨holds.1, ?_⟩)
    (fun front seq behind a finished token holds => ⟨holds.1.free _, holds.2.leave⟩)
    distinct once present folded ⟨sized, owned⟩
  have owned := holds.2
  simpa [Owned, recordToken] using owned

theorem owned_aborts (seqs : List Sequence) (st : Folding BlockAllocator)
    (distinct : (st.running.map (·.seqId)).Nodup) (once : (seqs.map (·.seqId)).Nodup)
    (each : ∀ seq ∈ seqs, seq ∈ st.running ∨
      (Released seq.blockTable ∧ seq.seqId ∉ st.running.map (·.seqId)))
    (owned : Owned numBlocks st.allocator st.running) :
    Owned numBlocks (seqs.foldl abortOne st).allocator (seqs.foldl abortOne st).running := by
  refine foldl_abortOne_rule (I := fun st => Owned numBlocks st.allocator st.running)
    (fun front seq behind a finished owned => owned.leave)
    (fun seq running a finished released owned => ?_) seqs st distinct once each owned
  have nothing : (free a seq.blockTable).1 = a := by
    simp [KVAllocator.free, BlockAllocator.free, released.1]
  simp only [nothing]
  exact owned

variable {ρ : Type} {runner : ModelRunner ρ} {scheduler : Scheduler}

structure Ownership (numBlocks blockSize : Nat) (s : EngineState BlockAllocator ρ) : Prop where
  sized : Sized numBlocks blockSize s.allocator
  owned : Owned numBlocks s.allocator s.running
  filled : ∀ seq ∈ s.running, TableFilled blockSize seq.blockTable
  waiting : ∀ seq ∈ s.waiting, Released seq.blockTable
  ended : ∀ seq ∈ s.ended, Released seq.blockTable
  prefilling : ∀ seq ∈ s.running, seq.status = .prefilling →
    seq.blockTable.numTokens = seq.prefillProgress

theorem Ownership.planned (scheduler : Scheduler) (now : Time) {s : EngineState BlockAllocator ρ}
    (ok : Consistent runner s) (ownership : Ownership numBlocks blockSize s) :
    (planned scheduler now s).Holds (Sized numBlocks blockSize)
        (fun _ _ seq => TableFilled blockSize seq.blockTable) (fun _ seq => Released seq.blockTable) ∧
      Owned numBlocks (planned scheduler now s).allocator (planned scheduler now s).running :=
  (filling scheduler now).schedulerStep_keeps
    (I := fun st => Owned numBlocks st.allocator st.running)
    (fun _ _ step _ holds owned => owned_planStep step holds.waiting owned)
    ok.live_distinct ownership.sized ownership.filled ownership.waiting ownership.owned

theorem prefilling_planned (now : Time) {s : EngineState BlockAllocator ρ}
    (ok : Consistent runner s) (idle : s.inFlight = none) (serving : s.phase = .serving) :
    ∀ seq ∈ (planned scheduler now s).running, seq.status = .prefilling →
      seq.blockTable.numTokens = seq.prefillProgress := by
  intro seq member status
  have holds := ok.planned scheduler now idle serving
  exact (holds.running seq member).prefilling status

theorem Ownership.aborted {seqs : List Sequence} {s : EngineState BlockAllocator ρ}
    (ownership : Ownership numBlocks blockSize s) (distinct : (s.running.map (·.seqId)).Nodup)
    (once : (seqs.map (·.seqId)).Nodup)
    (each : ∀ seq ∈ seqs, seq ∈ s.running ∨
      (Released seq.blockTable ∧ seq.seqId ∉ s.running.map (·.seqId))) :
    Ownership numBlocks blockSize (aborted runner seqs s) := by
  refine ⟨?_, owned_aborts seqs _ distinct once each ownership.owned,
    fun seq member => ownership.filled seq (mem_released_running distinct member),
    ownership.waiting, ?_,
    fun seq member => ownership.prefilling seq (mem_released_running distinct member)⟩
  · exact foldl_abortOne_allocator (fun _ _ sized => sized.free _) seqs _ ownership.sized
  · intro seq member
    rcases List.mem_append.mp member with member | member
    · exact ownership.ended seq member
    · obtain ⟨source, -, a, rfl⟩ := released_finished member
      exact ⟨rfl, rfl⟩

theorem Ownership.handOff {plan : BatchPlan} {s : EngineState BlockAllocator ρ}
    (ownership : Ownership numBlocks blockSize s) :
    Ownership numBlocks blockSize (handOff plan s) := by
  unfold Engine.handOff
  split
  · exact ownership
  · exact ⟨ownership.sized, ownership.owned, ownership.filled, ownership.waiting, ownership.ended,
      ownership.prefilling⟩

theorem Ownership.afterStep (scheduler : Scheduler) (now : Time) {s : EngineState BlockAllocator ρ}
    (ok : Consistent runner s) (ownership : Ownership numBlocks blockSize s)
    (idle : s.inFlight = none) (serving : s.phase = .serving) :
    Ownership numBlocks blockSize (afterStep runner scheduler now s) := by
  obtain ⟨holds, owned⟩ := ownership.planned scheduler now ok
  exact ⟨holds.allocator, owned, holds.running, holds.waiting, ownership.ended,
    prefilling_planned now ok idle serving⟩

theorem ownershipRule :
    LoopRule runner scheduler (fun _ => True) (Ownership (ρ := ρ) numBlocks blockSize) where
  arrive _ _ ownership _ _ _ := ⟨ownership.sized, ownership.owned, ownership.filled, by
    intro seq member
    rcases List.mem_append.mp member with member | member
    · exact ownership.waiting seq member
    · rw [List.mem_singleton.mp member]
      exact ⟨rfl, rfl⟩, ownership.ended, ownership.prefilling⟩
  schedule {s now} ok _ ownership idle serving := by
    have apart := planned_distinct scheduler now ok.live_distinct
    have after := ownership.afterStep scheduler now ok idle serving
    rw [schedule_aborted now idle]
    refine (after.aborted apart.running_nodup apart.rejected_nodup fun seq member =>
      .inr ⟨?_, fun running => ?_⟩).handOff
    · exact (ownership.planned scheduler now ok).1.rejected seq member
    · exact apart.running_not_rejected running (List.mem_map_of_mem member)
  forward _ _ ownership _ _ _ := ⟨ownership.sized, ownership.owned, ownership.filled,
    ownership.waiting, ownership.ended, ownership.prefilling⟩
  results {s now flight results folded} ok _ ownership inFlight outcome computed spec := by
    have flightOk := ok.flight flight inFlight
    obtain ⟨sized, owned⟩ := owned_results ok.running_distinct (flightOk.results_once outcome)
      (flightOk.results_present outcome) computed ownership.sized ownership.owned
    refine ⟨sized, owned, spec.running_keeps ownership.filled fun _ _ filled => filled,
      ownership.waiting, fun seq member => ?_,
      spec.running_keeps ownership.prefilling fun _ _ prefilling => prefilling⟩
    rcases List.mem_append.mp member with member | member
    · exact ownership.ended seq member
    · rcases spec.finished seq member with member | ⟨source, -, token, a, -, rfl⟩
      · cases member
      · exact ⟨rfl, rfl⟩
  failed {s flight} ok _ ownership inFlight _ := by
    have flightOk := ok.flight flight inFlight
    exact ownership.aborted ok.running_distinct flightOk.failedBatch_nodup fun seq member =>
      .inl (mem_failedBatch flightOk member)
  deviceLost _ _ ownership _ _ := ⟨ownership.sized, ownership.owned, ownership.filled,
    ownership.waiting, ownership.ended, ownership.prefilling⟩
  abortAll {s} ok _ ownership _ _ := by
    have gone : Ownership numBlocks blockSize (Engine.aborted runner (s.running ++ s.waiting) s) :=
      ownership.aborted ok.running_distinct ok.live_distinct (by
        intro seq member
        rcases List.mem_append.mp member with member | member
        · exact .inl member
        · exact .inr ⟨ownership.waiting seq member, fun running =>
            ok.running_not_waiting running (List.mem_map_of_mem member)⟩)
    exact ⟨gone.sized, gone.owned, gone.filled, (List.forall_mem_nil _), gone.ended,
      gone.prefilling⟩

theorem ownership_start (positive : 0 < blockSize) (start : ρ) :
    Ownership numBlocks blockSize
      { allocator := BlockAllocator.fresh numBlocks blockSize positive, runner := start } :=
  ⟨⟨rfl, rfl⟩, Partitioned.start (List.range numBlocks), (List.forall_mem_nil _),
    (List.forall_mem_nil _), (List.forall_mem_nil _),
    List.forall_mem_nil _⟩

theorem ownership {positive : 0 < blockSize} {start : ρ} {s : EngineState BlockAllocator ρ}
    (reachable : (loop runner scheduler (.fresh numBlocks blockSize positive) start).Reachable s) :
    Ownership numBlocks blockSize s :=
  ownershipRule.reachable (fun _ _ => trivial) (ownership_start positive start) reachable

theorem Owned.same_owner {a : BlockAllocator} {running : List Sequence}
    (owned : Owned numBlocks a running) {seq other : Sequence} (member : seq ∈ running)
    (member' : other ∈ running) {block : Nat} (holds : block ∈ seq.blockTable.physicalBlocks)
    (holds' : block ∈ other.blockTable.physicalBlocks) : seq = other :=
  Partitioned.same_holder owned List.nodup_range member member' holds holds'

theorem Owned.nodup {a : BlockAllocator} {running : List Sequence}
    (owned : Owned numBlocks a running) {seq : Sequence} (member : seq ∈ running) :
    seq.blockTable.physicalBlocks.Nodup :=
  Partitioned.nodup_held owned List.nodup_range (List.mem_map_of_mem member)

theorem Owned.block_lt {a : BlockAllocator} {running : List Sequence}
    (owned : Owned numBlocks a running) {seq : Sequence} (member : seq ∈ running) {block : Nat}
    (holds : block ∈ seq.blockTable.physicalBlocks) : block < numBlocks :=
  List.mem_range.mp (Partitioned.mem_pool owned (List.mem_map_of_mem member) holds)

def sampleState (runner : ModelRunner ρ) (start : ρ) : EngineState BlockAllocator ρ :=
  schedule runner sampleScheduler 0
    { allocator := BlockAllocator.fresh 4 2 (by decide)
      runner := start
      waiting := [sequenceFromIngress (sampleRequest 0 5 [6, 7] 3)] }

theorem sampleState_arrive (runner : ModelRunner ρ) (start : ρ) :
    Step runner sampleScheduler
      { allocator := BlockAllocator.fresh 4 2 (by decide), runner := start }
      (.arrive (sampleRequest 0 5 [6, 7] 3))
      { allocator := BlockAllocator.fresh 4 2 (by decide)
        runner := start
        waiting := [sequenceFromIngress (sampleRequest 0 5 [6, 7] 3)] } :=
  .arrive rfl nofun nofun

theorem sampleState_reachable (runner : ModelRunner ρ) (start : ρ) :
    (loop runner sampleScheduler (BlockAllocator.fresh 4 2 (by decide)) start).Reachable
      (sampleState runner start) :=
  .next (.next (.initial rfl)
    (sampleState_arrive runner start))
    (Step.schedule rfl rfl)

/-- Free list and tables of `running` share out the pool, and every table fits its tokens. -/
structure BlocksOwned (numBlocks blockSize : Nat) (s : EngineState BlockAllocator ρ) : Prop where
  partition : (s.allocator.freeBlocks ++
    s.running.flatMap (·.blockTable.physicalBlocks)).Perm (List.range numBlocks)
  running : ∀ seq ∈ s.running,
    seq.blockTable.physicalBlocks.length = seq.blockTable.numTokens ⌈/⌉ blockSize
  others : ∀ seq ∈ s.waiting ++ s.ended,
    seq.blockTable.physicalBlocks = [] ∧ seq.blockTable.numTokens = 0
  prefilling : ∀ seq ∈ s.running, seq.status = .prefilling →
    seq.blockTable.numTokens = seq.prefillProgress

theorem Ownership.blocksOwned {s : EngineState BlockAllocator ρ}
    (owns : Ownership numBlocks blockSize s) : BlocksOwned numBlocks blockSize s where
  partition := by
    have owned := owns.owned
    simpa only [Owned, Partitioned, holdings, ← List.flatMap_def] using owned
  running := owns.filled
  others := by
    intro seq member
    rcases List.mem_append.mp member with member | member
    · exact owns.waiting seq member
    · exact owns.ended seq member
  prefilling := owns.prefilling

/-- No block is lost, shared or freed twice: in every reachable state, also between
`scheduler_step` and the aborts that follow it. -/
theorem blocks_owned (runner : ModelRunner ρ) (scheduler : Scheduler) {numBlocks blockSize : Nat}
    (positive : 0 < blockSize) (start : ρ) {s : EngineState BlockAllocator ρ}
    (reachable : (loop runner scheduler (.fresh numBlocks blockSize positive) start).Reachable s) :
    BlocksOwned numBlocks blockSize s ∧
      (s.inFlight = none → s.phase = .serving →
        (∀ now, BlocksOwned numBlocks blockSize (callScheduler scheduler now s).2) ∧
        ∀ seq ∈ s.running, seq.status = .decoding →
          seq.blockTable.numTokens + 1 = seq.numTokens) := by
  have ok := consistent reachable
  have owns := ownership reachable
  refine ⟨owns.blocksOwned, fun idle serving => ⟨fun now => ?_, fun seq member status => ?_⟩⟩
  · have after := (owns.afterStep scheduler now ok idle serving).blocksOwned
    exact ⟨after.partition, after.running, after.others, after.prefilling⟩
  · rcases ok.idle serving idle seq member with ⟨prefilling, -⟩ | ⟨-, table, -⟩
    · cases status.symm.trans prefilling
    · exact table

theorem blocks_owned_sample : BlocksOwned 4 2 (hfRun 4) ∧
    (hfRun 4).running.map (·.blockTable.physicalBlocks) = [[0, 3, 1]] ∧
    (hfRun 4).waiting.map (·.seqId) = [1] ∧
    BlocksOwned 4 2 (callScheduler sharedScheduler 5 (hfRun 4)).2 := by
  obtain ⟨reachable, idle, serving⟩ := hfRun_reachable 4
  obtain ⟨owned, after⟩ := blocks_owned (hfRunner [] List.length) sharedScheduler (by decide) _ reachable
  exact ⟨owned, by decide +kernel, by decide +kernel, (after idle serving).1 5⟩

end LlmServing.Paged
