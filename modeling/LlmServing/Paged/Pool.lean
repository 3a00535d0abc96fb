import LlmServing.Lib.Writes
import LlmServing.Paged.Rows

/-!
# What the pool holds

The paged pool as a map from slots to what was last written there, the model runner that owns it, and
the invariant that a sequence reads its own tokens back.
-/

namespace LlmServing.Paged

open Scheduling Runner Engine Lib

/-- From `(block, offset)` to the sequence, position and token whose key and value were written
there last. -/
abbrev Pool := Nat × Nat → Option (SeqId × Nat × Token)

def owners (plan : BatchPlan) : List SeqId :=
  plan.entries.flatMap fun entry => List.replicate entry.nTokens entry.seqId

/-- Flat row `i` writes the key and value of its token at its position into destination slot `i`. -/
def poolWrites (plan : BatchPlan) (flat : FlatRows) (rows : PagingRows) :
    List ((Nat × Nat) × Option (SeqId × Nat × Token)) :=
  (rows.destBlockId.zip rows.destWithin).zip
    (((owners plan).zip (flat.positions.zip flat.tokenIds)).map some)

/-- What the pool may be after one iteration. A failed forward pass may have left anything in the
slots it was to write; padding rows write to the scratch block `numBlocks`. -/
def poolAfter (numBlocks : Nat) (plan : BatchPlan) (flat : FlatRows) (rows : PagingRows)
    (before : Pool) (outcome : Outcome) (after : Pool) : Prop :=
  let writes := poolWrites plan flat rows
  ∀ slot : Nat × Nat, slot.1 ≠ numBlocks →
    match outcome with
    | .results _ => after slot = writeAll before writes slot
    | .failed | .deviceLost => slot ∉ writes.map Prod.fst → after slot = before slot

/-- The fused forward paths on a pool of `numBlocks` blocks of `blockSize` slots. The sampled tokens
are any. -/
def pagedRunner (numBlocks blockSize : Nat) (eosTokenIds : List Token) : ModelRunner Pool where
  eosTokenIds
  forward plan seqs before outcome after :=
    let flat := flatRows plan seqs
    (∀ results, outcome = .results results →
      ∃ tokens : List Token, tokens.length = (owed plan seqs).length ∧
        results = emitTokens eosTokenIds (owed plan seqs) tokens) ∧
    match pagingRows blockSize plan seqs flat.offsets with
    | none => (∀ results, outcome ≠ .results results) ∧ after = before
    | some rows => poolAfter numBlocks plan flat rows before outcome after
  free _ pool := pool
  emits computed := computed.1 _ rfl

variable {numBlocks blockSize : Nat} {eos : List Token}

theorem freeAll_pagedRunner (ids : List SeqId) (pool : Pool) :
    (pagedRunner numBlocks blockSize eos).freeAll ids pool = pool := by
  induction ids with
  | nil => rfl
  | cons id rest ih => exact ih

theorem owners_eq (blockSize : Nat) {plan : BatchPlan} {seqs : List Sequence}
    (present : ∀ id ∈ plan.ids, id ∈ seqs.map (·.seqId)) :
    owners plan = (planRows blockSize plan seqs).map (·.seqId) := by
  have entries := map_fst_batch present
  rw [owners, ← entries, planRows, List.flatMap_map, List.map_flatMap]
  refine List.flatMap_congr fun pair member => ?_
  have same := (lookup_some (mem_batch.mp member).2).2
  simp [entryRows, row, Function.comp_def, same, List.map_const']

def Row.write (row : Row) : (Nat × Nat) × Option (SeqId × Nat × Token) :=
  ((row.block, row.within), some (row.seqId, row.position, row.token))

theorem poolWrites_eq {plan : BatchPlan} {seqs : List Sequence}
    (ready : BatchReady blockSize plan seqs)
    (present : ∀ id ∈ plan.ids, id ∈ seqs.map (·.seqId)) :
    poolWrites plan (flatRows plan seqs) (pagingColumns blockSize plan seqs) =
      (planRows blockSize plan seqs).map Row.write := by
  rw [poolWrites, flatRows_eq ready, owners_eq blockSize present]
  simp only [pagingColumns, List.zip_map', List.map_map]
  rfl

theorem map_fst_write (rows : List Row) :
    (rows.map Row.write).map Prod.fst = rows.map fun row => (row.block, row.within) := by
  rw [List.map_map]
  rfl

variable {ρ : Type} {s : EngineState BlockAllocator ρ} {runner : ModelRunner ρ} {flight : InFlight}

theorem write_mem (ok : Consistent runner s) (inFlight : s.inFlight = some flight) {seq : Sequence}
    (member : seq ∈ s.running) {entry : BatchEntry}
    (found : entryFor flight.plan seq.seqId = some entry) {p : Nat}
    (new : cachedBefore entry seq ≤ p) (inside : p < cachedBefore entry seq + entry.nTokens) :
    (slot blockSize seq.blockTable p, some (seq.seqId, p, seq.tokens.getD p 0)) ∈
      (planRows blockSize flight.plan flight.seqs).map Row.write := by
  refine List.mem_map.mpr ⟨row blockSize seq p,
    List.mem_flatMap.mpr ⟨_, flight_batch_mem ok inFlight member found, ?_⟩, rfl⟩
  exact List.mem_map.mpr ⟨p, List.mem_range'_1.mpr ⟨new, inside⟩, rfl⟩

theorem slot_notMem (positive : 0 < blockSize) (ok : Consistent runner s)
    (owns : Ownership numBlocks blockSize s) (inFlight : s.inFlight = some flight)
    {seq : Sequence} (member : seq ∈ s.running) {p : Nat} (inside : p < seq.blockTable.numTokens)
    (old : ∀ entry, entryFor flight.plan seq.seqId = some entry → p < cachedBefore entry seq) :
    slot blockSize seq.blockTable p ∉
        ((planRows blockSize flight.plan flight.seqs).map Row.write).map Prod.fst := by
  have ready := batchReady positive ok owns inFlight
  rw [map_fst_write]
  intro written
  obtain ⟨row, inRows, same⟩ := List.mem_map.mp written
  obtain ⟨⟨entry, other⟩, inBatch, inEntry⟩ := List.mem_flatMap.mp inRows
  obtain ⟨q, range, rfl⟩ := List.mem_map.mp inEntry
  obtain ⟨running, -, found⟩ := mem_flight_batch ok inFlight inBatch
  have le : entry.nTokens ≤ other.blockTable.numTokens := (ready _ inBatch).nTokens_le
  rw [List.mem_range'_1, cachedBefore] at range
  obtain ⟨rfl, rfl⟩ := slot_inj positive owns.owned running member (owns.filled _ running)
    (owns.filled _ member) (by omega) inside same
  have before := old entry found
  rw [cachedBefore] at before
  omega

theorem slot_ne_scratch (positive : 0 < blockSize) (owns : Ownership numBlocks blockSize s)
    {seq : Sequence} (member : seq ∈ s.running) {p : Nat} (inside : p < seq.blockTable.numTokens) :
    (slot blockSize seq.blockTable p).1 ≠ numBlocks := by
  have bound := block_lt positive (owns.filled seq member) inside
  rw [slot_eq bound]
  exact Nat.ne_of_lt (owns.owned.block_lt member (List.getElem_mem bound))

structure Iterated (flight : InFlight) (running : List Sequence) (blockSize : Nat) (before : Pool)
    (outcome : Outcome) (after : Pool) : Prop where
  old : ∀ seq ∈ running, ∀ p < seq.blockTable.numTokens,
    (∀ entry, entryFor flight.plan seq.seqId = some entry → p < cachedBefore entry seq) →
    after (slot blockSize seq.blockTable p) = before (slot blockSize seq.blockTable p)
  new : ∀ results, outcome = .results results → ∀ seq ∈ running, ∀ p < seq.blockTable.numTokens,
    ∀ entry, entryFor flight.plan seq.seqId = some entry → cachedBefore entry seq ≤ p →
    after (slot blockSize seq.blockTable p) = some (seq.seqId, p, seq.tokens.getD p 0)

theorem iterated (positive : 0 < blockSize) (ok : Consistent runner s)
    (owns : Ownership numBlocks blockSize s) (inFlight : s.inFlight = some flight)
    {outcome : Outcome} {before after : Pool}
    (moved : poolAfter numBlocks flight.plan (flatRows flight.plan flight.seqs)
      (pagingColumns blockSize flight.plan flight.seqs) before outcome after) :
    Iterated flight s.running blockSize before outcome after := by
  have flightOk := ok.flight flight inFlight
  have ready := batchReady positive ok owns inFlight
  have distinct := slots_nodup positive ok owns inFlight
  rw [← map_fst_write] at distinct
  rw [poolAfter, poolWrites_eq ready (flightOk.seqs ▸ flightOk.present)] at moved
  constructor
  · intro seq member p inside old
    have untouched := slot_notMem positive ok owns inFlight member inside old
    have here := moved _ (slot_ne_scratch positive owns member inside)
    cases outcome with
    | results results => rw [here, writeAll_of_notMem untouched]
    | failed => exact here untouched
    | deviceLost => exact here untouched
  · rintro results rfl seq member p inside entry found new
    have here := moved _ (slot_ne_scratch positive owns member inside)
    have le := (ready _ (flight_batch_mem ok inFlight member found)).nTokens_le
    rw [here, writeAll_of_mem distinct (write_mem ok inFlight member found new (by
      rw [cachedBefore]
      dsimp only at le
      omega))]

/-! ## What a sequence reads back -/

def Stored (blockSize : Nat) (pool : Pool) (seq : Sequence) (n : Nat) : Prop :=
  ∀ p < n, pool (slot blockSize seq.blockTable p) = some (seq.seqId, p, seq.tokens.getD p 0)

def held (flight : Option InFlight) (seq : Sequence) : Nat :=
  match flight with
  | none => seq.blockTable.numTokens
  | some flight =>
      match flight.outcome with
      | none => cachedIn (entryFor flight.plan seq.seqId) seq
      | some (.results _) => seq.blockTable.numTokens
      | some _ => if seq.seqId ∈ flight.plan.ids then 0 else seq.blockTable.numTokens

def PoolOk (blockSize : Nat) (s : EngineState BlockAllocator Pool) : Prop :=
  s.phase = .serving → ∀ seq ∈ s.running, Stored blockSize s.runner seq (held s.inFlight seq)

theorem Stored.mono {pool : Pool} {seq : Sequence} {m n : Nat} (stored : Stored blockSize pool seq n)
    (le : m ≤ n) : Stored blockSize pool seq m :=
  fun p inside => stored p (inside.trans_le le)

theorem Iterated.stored {running : List Sequence} {before after : Pool} {results : IterationResults}
    (iteration : Iterated flight running blockSize before (.results results) after)
    {seq : Sequence} (member : seq ∈ running)
    (stored : Stored blockSize before seq (cachedIn (entryFor flight.plan seq.seqId) seq)) :
    Stored blockSize after seq seq.blockTable.numTokens := by
  intro p inside
  cases found : entryFor flight.plan seq.seqId with
  | none =>
      rw [iteration.old seq member p inside (by simp [found])]
      exact stored p (by simpa [cachedIn, found] using inside)
  | some entry =>
      by_cases cached : p < cachedBefore entry seq
      · rw [iteration.old seq member p inside (by simpa [found] using cached)]
        exact stored p (by simpa [cachedIn, found] using cached)
      · exact iteration.new results rfl seq member p inside entry found (Nat.le_of_not_lt cached)

theorem Stored.grant {pool : Pool} {a a' : BlockAllocator} {seq : Sequence} {n reserve m : Nat}
    {table : BlockTable} (stored : Stored blockSize pool seq m) (positive : 0 < blockSize)
    (filled : TableFilled blockSize seq.blockTable) (inside : m ≤ seq.blockTable.numTokens)
    (granted : allocate a seq n reserve = some (a', table)) :
    Stored blockSize pool { seq with blockTable := table } m := by
  obtain ⟨-, -, rfl⟩ := BlockAllocator.allocate_eq_some granted
  intro p before
  have bound := block_lt positive filled (before.trans_le inside)
  have here := stored p before
  rw [slot_eq bound] at here
  rw [slot_eq (by simp only [List.length_append]; omega)]
  simpa only [List.getElem_append_left bound] using here

theorem Stored.record {pool : Pool} {seq : Sequence} {n : Nat} (now : Time) (token : Token)
    (stored : Stored blockSize pool seq n) (inside : n ≤ seq.tokens.length) :
    Stored blockSize pool (recordToken now token false seq) n := by
  intro p before
  have here := stored p before
  rw [tokens_recordToken, List.getD_eq_getElem?_getD,
    List.getElem?_append_left (before.trans_le inside), ← List.getD_eq_getElem?_getD]
  exact here

theorem storing (positive : 0 < blockSize) (pool : Pool) (scheduler : Scheduler) (now : Time) :
    PlanRule scheduler now (Sized numBlocks blockSize)
      (fun _ entry seq => TableFilled blockSize seq.blockTable ∧
        Stored blockSize pool seq (cachedIn entry seq))
      (fun _ seq => Released seq.blockTable) where
  grant sized granted := sized.grant granted
  release sized := sized.free _
  decode sized _ ok granted := by
    refine ⟨ok.1.grant sized granted, ?_⟩
    have grown := allocate_numTokens granted
    have kept := ok.2.grant positive ok.1 (Nat.le_refl _) granted
    exact kept.mono (by simp only [cachedIn, cachedBefore, grown]; omega)
  preempt _ _ := ⟨rfl, rfl⟩
  «continue» sized _ ok _ granted := by
    refine ⟨ok.1.grant sized granted, ?_⟩
    have grown := allocate_numTokens granted
    have kept := ok.2.grant positive ok.1 (Nat.le_refl _) granted
    exact kept.mono (by simp only [cachedIn, cachedBefore, advancePrefill, grown]; omega)
  admission sized released _ _ granted := by
    refine ⟨released.filled.grant sized granted, ?_⟩
    have grown := allocate_numTokens granted
    intro p before
    simp only [cachedIn, cachedBefore, stampAdmission, advancePrefill, grown, released.2] at before
    omega
  skip released := released

variable {scheduler : Scheduler}

theorem held_schedule (runner : ModelRunner ρ) (now : Time) (idle : s.inFlight = none)
    (seq : Sequence) :
    held (schedule runner scheduler now s).inFlight seq =
      cachedIn (entryFor (planned scheduler now s).plan seq.seqId) seq := by
  have same := schedule_entryFor runner scheduler now idle seq.seqId
  rw [← same]
  cases inFlight : (schedule runner scheduler now s).inFlight with
  | none => simp [held, EngineState.plan, inFlight, entryFor, cachedIn]
  | some flight =>
      obtain ⟨-, pending⟩ := schedule_inFlight runner scheduler now idle inFlight
      simp [held, EngineState.plan, inFlight, pending]

theorem poolRule (positive : 0 < blockSize) :
    LoopRule (pagedRunner numBlocks blockSize eos) scheduler (Ownership numBlocks blockSize)
      (PoolOk blockSize) where
  arrive _ _ stored _ _ _ := stored
  schedule {s now} ok owns stored idle serving := by
    intro _ seq member
    have holds := ok.holds (storing positive s.runner scheduler now) owns.sized
      (fun seq member => ⟨owns.filled seq member, by
        have here := stored serving seq member
        rwa [idle] at here⟩) owns.waiting
    rw [schedule_running _ _ _ ok.live_distinct] at member
    rw [held_schedule _ _ idle, schedule_runner]
    rw [freeAll_pagedRunner, freeAll_pagedRunner]
    exact (holds.running seq member).2
  forward {s flight outcome after} ok owns stored inFlight pending computed := by
    intro serving seq member
    have ready := batchReady positive ok owns inFlight
    obtain ⟨-, moved⟩ := computed
    simp only [pagingRows_eq ready] at moved
    have iteration := iterated positive ok owns inFlight moved
    have before := stored serving seq member
    rw [inFlight] at before
    simp only [held, pending] at before
    cases outcome with
    | results results => exact iteration.stored member before
    | failed | deviceLost =>
        intro p inside
        simp only [held] at inside
        split at inside
        · cases inside
        · rename_i absent
          have none := entryFor_eq_none.mpr absent
          exact (iteration.old seq member p inside (by simp [none])).trans
            (before p (by simpa [cachedIn, none] using inside))
  results {s now flight results folded} ok owns stored inFlight outcome _ spec := by
    intro _ seq member
    have serving := ok.serving_of_flight inFlight
    rw [show (resultsApplied (pagedRunner numBlocks blockSize eos) results folded s).runner =
      s.runner from freeAll_pagedRunner _ _]
    obtain ⟨source, found, left⟩ := spec.running_source member
    have here := stored serving source found
    rw [inFlight] at here
    simp only [held, outcome] at here
    rcases left with ⟨-, rfl⟩ | ⟨token, -, rfl⟩
    · exact here
    · exact here.record now token (by
        rw [Sequence.length_tokens]
        exact (ok.running serving source found).numTokens_le)
  failed {s flight} ok owns stored inFlight outcome := by
    intro serving seq member
    rw [show (aborted (pagedRunner numBlocks blockSize eos) (failedBatch flight) s).runner =
      s.runner from freeAll_pagedRunner _ _]
    rw [failed_running ok inFlight] at member
    obtain ⟨found, absent⟩ := List.mem_filter.mp member
    have here := stored serving seq found
    rw [inFlight] at here
    simp only [held, outcome, if_neg (of_decide_eq_true absent)] at here
    exact here
  deviceLost _ _ _ _ _ serving := nomatch serving
  abortAll _ _ _ _ _ serving := nomatch serving

theorem poolOk {positive : 0 < blockSize} {start : Pool} {s : EngineState BlockAllocator Pool}
    (reachable : (loop (pagedRunner numBlocks blockSize eos) scheduler
      (.fresh numBlocks blockSize positive) start).Reachable s) : PoolOk blockSize s :=
  (poolRule positive).reachable (fun _ reachable => ownership reachable)
    (fun _ => List.forall_mem_nil _) reachable

/-! ## Reading through the rows -/

/-- The cells at logical positions `0 .. context - 1` of one row of the block table. -/
def readTable (blockSize : Nat) (pool : Pool) (table : List Nat) (context : Nat) :
    List (Option (SeqId × Nat × Token)) :=
  (List.range context).map fun position =>
    table[position / blockSize]?.bind fun block => pool (block, position % blockSize)

/-- With the tokens of `flight` written, every entry of its plan reads exactly its own sequence's
first tokens, each at its own position, and its rows stand where `_flat_rows` says. -/
def ReadsOwn (blockSize : Nat) (s : EngineState BlockAllocator Pool) (flight : InFlight) : Prop :=
  let flat := flatRows flight.plan flight.seqs
  ∃ rows, pagingRows blockSize flight.plan flight.seqs flat.offsets = some rows ∧
    ∀ (i : Nat) (entry : BatchEntry), flight.plan.entries[i]? = some entry →
      ∃ seq ∈ s.running, ∃ table context offset start,
        lookup flight.seqs entry.seqId = some seq ∧
        rows.blockTable[i]? = some table ∧ rows.contextLen[i]? = some context ∧
        rows.queryOffset[i]? = some offset ∧ rows.qStart[i]? = some start ∧
        rows.qLen[i]? = some entry.nTokens ∧ offset + entry.nTokens = context ∧
        context ≤ seq.tokens.length ∧
        readTable blockSize (writeAll s.runner (poolWrites flight.plan flat rows)) table context =
          (seq.tokens.take context).mapIdx
            (fun position token => some (seq.seqId, position, token)) ∧
        ∀ r < entry.nTokens, flat.positions[start + r]? = some (offset + r)

theorem readTable_eq {pool : Pool} {seq : Sequence} (positive : 0 < blockSize)
    (filled : TableFilled blockSize seq.blockTable)
    (inside : seq.blockTable.numTokens ≤ seq.tokens.length)
    (stored : Stored blockSize pool seq seq.blockTable.numTokens) (width : Nat) :
    readTable blockSize pool (paddedTable width seq.blockTable) seq.blockTable.numTokens =
      (seq.tokens.take seq.blockTable.numTokens).mapIdx
        fun position token => some (seq.seqId, position, token) := by
  apply List.ext_getElem
  · rw [List.length_mapIdx, List.length_take, Nat.min_eq_left inside]
    simp [readTable]
  · intro p here _
    simp only [readTable, List.length_map, List.length_range] at here
    have bound := block_lt positive filled here
    have cell := stored p here
    rw [slot_eq bound] at cell
    have token : seq.tokens.getD p 0 = seq.tokens.get ⟨p, here.trans_le inside⟩ := by
      rw [List.getD_eq_getElem?_getD, List.getElem?_eq_getElem (here.trans_le inside)]
      rfl
    simp only [readTable, paddedTable, List.getElem_map, List.getElem_range,
      List.getElem?_append_left bound, List.getElem?_eq_getElem bound, Option.bind_some,
      List.getElem_mapIdx, List.getElem_take, cell, token, List.get_eq_getElem]

theorem reads_own_tokens (eos : List Token) (scheduler : Scheduler) {numBlocks blockSize : Nat}
    (positive : 0 < blockSize) (start : Pool) {s : EngineState BlockAllocator Pool}
    (reachable : (loop (pagedRunner numBlocks blockSize eos) scheduler
      (.fresh numBlocks blockSize positive) start).Reachable s)
    {flight : InFlight} (inFlight : s.inFlight = some flight) (pending : flight.outcome = none) :
    ReadsOwn blockSize s flight := by
  have ok := consistent reachable
  have owns := ownership reachable
  have flightOk := ok.flight flight inFlight
  have ready := batchReady positive ok owns inFlight
  refine ⟨_, pagingRows_eq ready, fun i entry planned => ?_⟩
  obtain ⟨seq, here⟩ := flight_batch_at ok inFlight planned
  have inBatch := List.mem_of_getElem? here
  obtain ⟨running, -, found⟩ := mem_flight_batch ok inFlight inBatch
  have readyHere : Ready blockSize entry seq := ready _ inBatch
  have le := readyHere.nTokens_le
  obtain ⟨skip, span, rows⟩ := row_at blockSize 0 here
  have iteration : Iterated flight s.running blockSize s.runner (.results [])
      (writeAll s.runner (poolWrites flight.plan (flatRows flight.plan flight.seqs)
        (pagingColumns blockSize flight.plan flight.seqs))) :=
    iterated positive ok owns inFlight fun _ _ => rfl
  have stored := poolOk reachable (ok.serving_of_flight inFlight) seq running
  rw [inFlight] at stored
  simp only [held, pending] at stored
  refine ⟨seq, running,
    paddedTable (maxBlocks ((batch flight.plan flight.seqs).map (·.2.blockTable))) seq.blockTable,
    seq.blockTable.numTokens, cachedBefore entry seq, skip, (mem_batch.mp inBatch).2,
    by simp [pagingColumns, here], by simp [pagingColumns, here], by simp [pagingColumns, here],
    by simp [pagingColumns, span], by simp [pagingColumns, here], by rw [cachedBefore]; omega,
    readyHere.numTokens_le, ?_, fun r inside => ?_⟩
  · exact readTable_eq positive readyHere.filled readyHere.numTokens_le
      (iteration.stored running stored) _
  · rw [flatRows_eq ready]
    simp only [planRows, List.getElem?_map, rows r inside, Option.map_some]
    rfl

def poolComputed (s : EngineState BlockAllocator Pool) : Pool × List Token :=
  match s.inFlight with
  | none => (s.runner, [])
  | some flight =>
      (writeAll s.runner (poolWrites flight.plan (flatRows flight.plan flight.seqs)
        (pagingColumns 2 flight.plan flight.seqs)),
        List.replicate (owed flight.plan flight.seqs).length 9)

abbrev poolRun : Nat → EngineState BlockAllocator Pool :=
  sharedRun (pagedRunner 4 2 []) poolComputed (samplePool 4 1) fun _ => none

theorem poolRun_reachable (n : Nat) :
    (loop (pagedRunner 4 2 []) sharedScheduler (samplePool 4 1) fun _ => none).Reachable (poolRun n) ∧
      (poolRun n).inFlight = none ∧ (poolRun n).phase = .serving := by
  refine sharedRun_reachable (fun s flight reachable inFlight pending => ?_) n
  have ready : BatchReady 2 flight.plan flight.seqs :=
    batchReady (by decide) (consistent reachable) (ownership reachable) inFlight
  simp only [poolComputed, inFlight]
  refine ⟨List.length_replicate, fun results same =>
    ⟨List.replicate (owed flight.plan flight.seqs).length 9, List.length_replicate, ?_⟩, ?_⟩
  · exact (Outcome.results.inj same).symm
  · rw [pagingRows_eq ready]
    exact fun _ _ => rfl

theorem reads_own_tokens_sample :
    ∃ flight, (schedule (pagedRunner 4 2 []) sharedScheduler 2 (poolRun 1)).inFlight = some flight ∧
      flight.plan.entries = [⟨1, 1, false⟩, ⟨0, 1, true⟩] ∧
      ReadsOwn 2 (schedule (pagedRunner 4 2 []) sharedScheduler 2 (poolRun 1)) flight := by
  obtain ⟨reachable, idle, serving⟩ := poolRun_reachable 1
  have next := reachable.next
    (.schedule idle serving : Step (pagedRunner 4 2 []) sharedScheduler _ (.schedule 2) _)
  let s := schedule (pagedRunner 4 2 []) sharedScheduler 2 (poolRun 1)
  have inFlight : s.inFlight =
      some ⟨{ entries := [⟨1, 1, false⟩, ⟨0, 1, true⟩] }, s.running, none⟩ := by decide +kernel
  exact ⟨_, inFlight, rfl, reads_own_tokens [] _ (by decide) _ next inFlight rfl⟩

end LlmServing.Paged
