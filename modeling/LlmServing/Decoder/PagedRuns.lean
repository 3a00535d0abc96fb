import LlmServing.Decoder.Paged
import LlmServing.Paged.Pool

/-!
# Paged decoding over whole runs

Whatever is batched together, chunked, preempted, padded or replayed, every token comes from the logits
that the tokens of its own sequence have alone.
-/

namespace LlmServing.Decoder

open Scheduling Runner Engine Lib Kernels
open Paged (slot spans planRows BatchReady Ownership GraphsOk TableFilled Released Sized held)

section

variable {ρ : Type} {runner : ModelRunner ρ} {numBlocks blockSize : Nat}
  {s : EngineState BlockAllocator ρ} {flight : InFlight}

theorem unplanned_slot (positive : 0 < blockSize) (ok : Consistent runner s)
    (owns : Ownership numBlocks blockSize s) (inFlight : s.inFlight = some flight) {seq : Sequence}
    (member : seq ∈ s.running) {position : Nat} (inside : position < seq.blockTable.numTokens)
    (old : ∀ entry, entryFor flight.plan seq.seqId = some entry →
      position < cachedBefore entry seq) :
    slot blockSize seq.blockTable position ∉ rowSlots blockSize flight.plan flight.seqs := by
  rw [rowSlots, ← Paged.map_fst_write]
  exact Paged.slot_notMem positive ok owns inFlight member inside old

theorem apart_of_flight (positive : 0 < blockSize) (ok : Consistent runner s)
    (owns : Ownership numBlocks blockSize s) (inFlight : s.inFlight = some flight) :
    Apart blockSize numBlocks flight.plan flight.seqs where
  distinct := Paged.slots_nodup positive ok owns inFlight
  old {entry seq} member position cached := by
    obtain ⟨running, -, found⟩ := mem_flight_batch ok inFlight member
    refine unplanned_slot positive ok owns inFlight running
      (cached.trans_le (Nat.sub_le _ _)) fun other named => ?_
    rw [found] at named
    exact Option.some.inj named ▸ cached
  real member position inside :=
    Paged.slot_ne_scratch positive owns (mem_flight_batch ok inFlight member).1 inside

end

/-! ## One forward pass -/

variable {m : Modules} {loaded : Loaded m}

theorem map_copied {bucket : Nat} {list : List Nat} (size : list.length = bucket)
    (buffer : TokenRows Nat) :
    (List.range bucket).map (copied bucket (list.getD · 0) buffer) = list := by
  subst size
  apply List.ext_getElem
  · simp
  · intro i here there
    simp [copied, there]

theorem fill_batch {bucket : Nat} {input : DeviceBatch} (full : FillsBucket bucket input)
    (buffers : SegmentBuffers m) :
    (buffers.fill bucket input).batch bucket input.paging = input := by
  simp only [SegmentBuffers.batch, SegmentBuffers.fill, map_copied full.inputIds,
    map_copied full.positionIds, map_copied full.destBlockId, map_copied full.destWithin]

theorem path_decoder {path : ForwardPath} {input : DeviceBatch} {plan : BatchPlan}
    {seqs : List Sequence} {before after : PagedState m} {results : IterationResults}
    (full : ∀ bucket, path = .piecewise bucket → FillsBucket bucket input)
    (computes : PathComputes loaded path input plan seqs before results after) :
    ∃ hidden, m.DecoderHidden (m.PagedAttention loaded.blockSize input.dest input.paging)
        input.inputIds input.positionIds before.pools hidden after.pools ∧
      ∃ rows : TokenRows m.Hidden, (∀ i < input.inputIds.length, rows i = hidden i) ∧
        PathEmits loaded path rows plan seqs results := by
  cases path with
  | decodeGraph bucket =>
      obtain ⟨-, hidden, computed, emitted⟩ := computes
      exact ⟨hidden, computed, hidden, fun _ _ => rfl, emitted⟩
  | fused =>
      obtain ⟨-, hidden, computed, emitted⟩ := computes
      exact ⟨hidden, computed, hidden, fun _ _ => rfl, emitted⟩
  | piecewise bucket =>
      obtain ⟨run, emitted⟩ := computes
      have filled := full bucket rfl
      have whole := fill_batch filled before.buffers
      obtain ⟨last, layers, rows⟩ := hidden_of_run filled.within run
      unfold eagerLayers at layers
      rw [← SegmentBuffers.batch_dest _ _ input.paging, whole] at layers
      refine ⟨_, ⟨last, layers, rfl⟩, after.buffers.hidden, fun i inside => ?_, emitted⟩
      exact rows i (filled.inputIds ▸ inside)

variable {s : EngineState BlockAllocator (PagedState m)} {flight : InFlight}

structure PagedReady (loaded : Loaded m) (s : EngineState BlockAllocator (PagedState m)) : Prop where
  owns : Ownership loaded.numBlocks loaded.blockSize s
  viewed : Consistent (graphRunner loaded.blockSize loaded.numBlocks loaded.eosTokenIds)
    (s.viewed PagedState.graphs)
  graphs : GraphsOk (s.viewed PagedState.graphs)

theorem PagedReady.feeds (known : PagedReady loaded s) (inFlight : s.inFlight = some flight)
    (pending : flight.outcome = none) :
    let path := forwardPath s.runner.graphs loaded.piecewiseBuckets flight.plan
    ∃ input, pathBatch loaded.blockSize loaded.numBlocks s.runner.graphs flight.plan flight.seqs path =
        some input ∧
      Feeds loaded.blockSize loaded.numBlocks flight.plan flight.seqs input ∧
      ∀ bucket, path = .piecewise bucket → FillsBucket bucket input := by
  have owns : Ownership loaded.numBlocks loaded.blockSize (s.viewed PagedState.graphs) :=
    ⟨known.owns.sized, known.owns.owned, known.owns.filled, known.owns.waiting, known.owns.ended,
      known.owns.prefilling⟩
  exact exists_feeds loaded.blockSize_pos known.viewed owns known.graphs inFlight pending
    (forwardPath_fits _ _ _)

structure Iterated (loaded : Loaded m) (flight : InFlight) (running : List Sequence)
    (results : IterationResults) (after : m.Pools) : Prop where
  cached : ∀ seq ∈ running, Cached loaded.blockSize after seq seq.blockTable.numTokens
  drawn : ∀ result ∈ results, ∃ seq ∈ running, ∃ token,
    result = emitToken loaded.eosTokenIds seq token ∧
    Likely m.logits loaded.softmax loaded.sort seq.samplingParams seq.tokens token

theorem iterated (known : PagedReady loaded s) (ok : Consistent (pagedDecoder loaded) s)
    (inFlight : s.inFlight = some flight) (pending : flight.outcome = none)
    (cached : ∀ seq ∈ s.running, Cached loaded.blockSize s.runner.pools seq
      (cachedIn (entryFor flight.plan seq.seqId) seq))
    {results : IterationResults} {after : PagedState m}
    (computed : forwardPaged loaded flight.plan flight.seqs s.runner (.results results) after) :
    Iterated loaded flight s.running results after.pools := by
  have positive := loaded.blockSize_pos
  have ready := Paged.batchReady positive ok known.owns inFlight
  have apart := apart_of_flight positive ok known.owns inFlight
  obtain ⟨input, made, feeds, full⟩ := known.feeds inFlight pending
  obtain ⟨-, input', made', computes⟩ := computed
  obtain rfl : input = input' := Option.some.inj (made.symm.trans made')
  obtain ⟨hidden, decoded, rows, same, emitted⟩ := path_decoder full computes
  have before : ∀ pair ∈ batch flight.plan flight.seqs,
      Cached loaded.blockSize s.runner.pools pair.2 (cachedBefore pair.1 pair.2) := by
    rintro ⟨entry, seq⟩ member
    obtain ⟨running, -, found⟩ := mem_flight_batch ok inFlight member
    have here := cached seq running
    rwa [found] at here
  obtain ⟨states, cells, untouched⟩ := decoderHidden_rows feeds apart ready before decoded
  have computedRows : RowsComputed m (batch flight.plan flight.seqs) rows := by
    intro i entry seq position here
    rw [same i (List.getElem?_eq_some_iff.mp (feeds.row here).1).1]
    exact states i entry seq position here
  refine ⟨fun seq member => ?_, fun result named => ?_⟩
  · cases found : entryFor flight.plan seq.seqId with
    | some entry => exact cells _ (flight_batch_mem ok inFlight member found)
    | none =>
        have here := cached seq member
        rw [found] at here
        intro layer below position inside
        have unplanned := unplanned_slot positive ok known.owns inFlight member inside
          (by simp [found])
        have real := Paged.slot_ne_scratch positive known.owns member inside
        refine Eq.trans ?_ (here layer below position inside)
        exact untouched _ (feeds.notMem_dest unplanned real) layer
  · have from_batch : ∃ pair ∈ batch flight.plan flight.seqs, ∃ token,
        result = emitToken loaded.eosTokenIds pair.2 token ∧
        Likely m.logits loaded.softmax loaded.sort pair.2.samplingParams pair.2.tokens token := by
      have offsets : (flatRows flight.plan flight.seqs).offsets =
          spans 0 (batch flight.plan flight.seqs) := by
        rw [Paged.flatRows_eq ready]
      have fits := forwardPath_fits s.runner.graphs loaded.piecewiseBuckets flight.plan
      cases path : forwardPath s.runner.graphs loaded.piecewiseBuckets flight.plan with
      | decodeGraph bucket =>
          rw [path] at emitted fits
          refine Emitted.decodes ready (fun pair inBatch => ?_) computedRows emitted result named
          have here := List.all_eq_true.mp fits.1 pair.1 (mem_batch.mp inBatch).1
          simpa using here
      | piecewise bucket =>
          rw [path, PathEmits, offsets] at emitted
          exact EmitOwed.likely (fun pair member => (ready pair member).bookkept) computedRows emitted result named
      | fused =>
          rw [path, PathEmits, offsets] at emitted
          exact EmitOwed.likely (fun pair member => (ready pair member).bookkept) computedRows emitted result named
    obtain ⟨pair, inBatch, token, law⟩ := from_batch
    exact ⟨pair.2, (mem_flight_batch ok inFlight inBatch).1, token, law⟩

theorem spared (known : PagedReady loaded s) (ok : Consistent (pagedDecoder loaded) s)
    (inFlight : s.inFlight = some flight) (pending : flight.outcome = none) {after : m.Pools}
    (left : Spared (pathBatch loaded.blockSize loaded.numBlocks s.runner.graphs flight.plan
      flight.seqs (forwardPath s.runner.graphs loaded.piecewiseBuckets flight.plan))
      s.runner.pools after) {seq : Sequence} (member : seq ∈ s.running)
    (absent : seq.seqId ∉ flight.plan.ids) {n : Nat} (inside : n ≤ seq.blockTable.numTokens)
    (cached : Cached loaded.blockSize s.runner.pools seq n) :
    Cached loaded.blockSize after seq n := by
  have positive := loaded.blockSize_pos
  obtain ⟨input, made, feeds, -⟩ := known.feeds inFlight pending
  intro layer below position within
  have held := within.trans_le inside
  have unplanned := unplanned_slot positive ok known.owns inFlight member held
    (by simp [entryFor_eq_none.mpr absent])
  have real := Paged.slot_ne_scratch positive known.owns member held
  refine Eq.trans ?_ (cached layer below position within)
  refine left _ (fun batch planned => ?_) layer
  obtain rfl : input = batch := Option.some.inj (made.symm.trans planned)
  exact feeds.notMem_dest unplanned real

/-! ## Cached cells -/

section

variable {blockSize n : Nat} {pools : m.Pools} {seq : Sequence}

theorem Cached.mono {n' : Nat} (cached : Cached blockSize pools seq n) (le : n' ≤ n) :
    Cached blockSize pools seq n' :=
  fun layer below position inside => cached layer below position (inside.trans_le le)

theorem cellAt_append (tokens more : List Token) (layer : Nat) {position : Nat}
    (inside : position < tokens.length) :
    m.cellAt (tokens ++ more) layer position = m.cellAt tokens layer position := by
  refine CausalStack.cellAt_congr (n := tokens.length) (fun earlier within => ?_) layer position inside
  rw [Modules.embedded, Modules.embedded, List.getD_eq_getElem?_getD,
    List.getElem?_append_left within, ← List.getD_eq_getElem?_getD]

theorem Cached.record (cached : Cached blockSize pools seq n) (inside : n ≤ seq.tokens.length)
    (now : Time) (token : Token) (finished : Bool) :
    Cached blockSize pools (recordToken now token finished seq) n := by
  intro layer below position within
  rw [tokens_recordToken, cellAt_append _ _ _ (within.trans_le inside)]
  exact cached layer below position within

theorem Cached.grant {a a' : BlockAllocator} {more reserve : Nat} {table : BlockTable}
    (cached : Cached blockSize pools seq n) (positive : 0 < blockSize)
    (filled : TableFilled blockSize seq.blockTable) (inside : n ≤ seq.blockTable.numTokens)
    (granted : allocate a seq more reserve = some (a', table)) :
    Cached blockSize pools { seq with blockTable := table } n := by
  obtain ⟨-, -, rfl⟩ := BlockAllocator.allocate_eq_some granted
  intro layer below position within
  have bound := Paged.block_lt positive filled (within.trans_le inside)
  have here := cached layer below position within
  rw [poolCells, Paged.slot_eq bound] at here
  rw [poolCells, Paged.slot_eq (by simp only [List.length_append]; omega)]
  simpa only [List.getElem_append_left bound] using here

theorem caching {numBlocks : Nat} (positive : 0 < blockSize) (pools : m.Pools)
    (scheduler : Scheduler) (now : Time) :
    PlanRule scheduler now (Sized numBlocks blockSize)
      (fun _ entry seq => TableFilled blockSize seq.blockTable ∧
        Cached blockSize pools seq (cachedIn entry seq))
      (fun _ seq => Released seq.blockTable) where
  grant sized granted := sized.grant granted
  release sized := sized.free _
  decode sized _ ok granted := by
    refine ⟨ok.1.grant sized granted, ?_⟩
    have grown := allocate_numTokens granted
    have kept := ok.2.grant positive ok.1 (Nat.le_refl _) granted
    exact kept.mono (by simp only [cachedIn, cachedBefore, grown]; omega)
  preempt _ _ := ⟨rfl, rfl⟩
  «continue» sized _ ok _ granted := by
    refine ⟨ok.1.grant sized granted, ?_⟩
    have grown := allocate_numTokens granted
    have kept := ok.2.grant positive ok.1 (Nat.le_refl _) granted
    exact kept.mono (by simp only [cachedIn, cachedBefore, advancePrefill, grown]; omega)
  admission sized released _ _ granted := by
    refine ⟨released.filled.grant sized granted, ?_⟩
    have grown := allocate_numTokens granted
    intro layer below position before
    simp only [cachedIn, cachedBefore, stampAdmission, advancePrefill, grown, released.2] at before
    omega
  skip released := released

end

def PoolsHold (loaded : Loaded m) (s : EngineState BlockAllocator (PagedState m)) : Prop :=
  s.phase = .serving → ∀ seq ∈ s.running,
    Cached loaded.blockSize s.runner.pools seq (held s.inFlight seq)

theorem PoolsHold.before (hold : PoolsHold loaded s) (ok : Consistent (pagedDecoder loaded) s)
    (inFlight : s.inFlight = some flight) (pending : flight.outcome = none) :
    ∀ seq ∈ s.running, Cached loaded.blockSize s.runner.pools seq
      (cachedIn (entryFor flight.plan seq.seqId) seq) := by
  intro seq member
  have here := hold (ok.serving_of_flight inFlight) seq member
  rw [inFlight] at here
  simpa only [held, pending] using here

theorem free_pools (ids : List SeqId) (state : PagedState m) :
    ((pagedDecoder loaded).freeAll ids state).pools = state.pools := by
  induction ids generalizing state with
  | nil => rfl
  | cons id rest ih => exact ih _

theorem poolsHoldRule (scheduler : Scheduler) :
    LoopRule (pagedDecoder loaded) scheduler (PagedReady loaded) (PoolsHold loaded) where
  arrive _ _ hold _ _ _ := hold
  schedule {s now} ok known hold idle serving := by
    have holds := ok.holds (caching loaded.blockSize_pos s.runner.pools scheduler now)
      known.owns.sized (fun seq member => ⟨known.owns.filled seq member, by
        have here := hold serving seq member
        rwa [idle] at here⟩) known.owns.waiting
    intro _ seq member
    rw [schedule_running _ _ _ ok.live_distinct] at member
    rw [Paged.held_schedule _ _ idle, schedule_runner, free_pools, free_pools]
    exact (holds.running seq member).2
  forward {s flight outcome after} ok known hold inFlight pending computed := by
    have before := hold.before ok inFlight pending
    intro _ seq member
    cases outcome with
    | results results =>
        exact (iterated known ok inFlight pending before computed).cached seq member
    | failed | deviceLost =>
        simp only [held]
        split
        · intro _ _ position inside
          cases inside
        · rename_i absent
          have here := before seq member
          rw [entryFor_eq_none.mpr absent] at here
          exact spared known ok inFlight pending computed.2 member absent (Nat.le_refl _) here
  results {s now flight results folded} ok known hold inFlight outcome _ spec := by
    intro _ seq member
    have serving := ok.serving_of_flight inFlight
    rw [show (resultsApplied (pagedDecoder loaded) results folded s).runner.pools = s.runner.pools from
      free_pools _ _]
    obtain ⟨source, found, left⟩ := spec.running_source member
    have here := hold serving source found
    rw [inFlight] at here
    simp only [held, outcome] at here
    rcases left with ⟨-, rfl⟩ | ⟨token, -, rfl⟩
    · exact here
    · refine here.record ?_ now token false
      rw [Sequence.length_tokens]
      exact (ok.running serving source found).numTokens_le
  failed {s flight} ok known hold inFlight outcome := by
    intro serving seq member
    rw [show (aborted (pagedDecoder loaded) (failedBatch flight) s).runner.pools = s.runner.pools from
      free_pools _ _]
    rw [failed_running ok inFlight] at member
    obtain ⟨found, absent⟩ := List.mem_filter.mp member
    have here := hold serving seq found
    rw [inFlight] at here
    simp only [held, outcome, if_neg (of_decide_eq_true absent)] at here
    exact here
  deviceLost _ _ _ _ _ serving := nomatch serving
  abortAll _ _ _ _ _ serving := nomatch serving

theorem draws_paged : Draws loaded.eosTokenIds (Likely m.logits loaded.softmax loaded.sort) (pagedDecoder loaded)
    fun s => PagedReady loaded s ∧ PoolsHold loaded s := by
  intro s flight results after ok known inFlight pending computed
  exact (iterated known.1 ok inFlight pending (known.2.before ok inFlight pending) computed).drawn

def pagedEngine (loaded : Loaded m) (scheduler : Scheduler) (decodeBuckets : List Nat)
    (pools : m.Pools) (buffers : SegmentBuffers m) :
    Machine (EngineState BlockAllocator (PagedState m)) Event :=
  loop (pagedDecoder loaded) scheduler
    (.fresh loaded.numBlocks loaded.blockSize loaded.blockSize_pos)
    { pools, graphs := capture loaded.numBlocks decodeBuckets, buffers }

variable {scheduler : Scheduler} {decodeBuckets : List Nat} {pools : m.Pools}
  {buffers : SegmentBuffers m}

theorem pagedReady
    (reachable : (pagedEngine loaded scheduler decodeBuckets pools buffers).Reachable s) :
    PagedReady loaded s := by
  obtain ⟨viewed, -⟩ := ((graphsView loaded).refines _ _).reachable reachable
  exact ⟨Paged.ownership reachable, consistent viewed, Paged.graphsOk viewed⟩

theorem poolsHold
    (reachable : (pagedEngine loaded scheduler decodeBuckets pools buffers).Reachable s) :
    PoolsHold loaded s :=
  (poolsHoldRule scheduler).reachable (fun _ reachable => pagedReady reachable)
    (fun _ => List.forall_mem_nil _) reachable

theorem genuine
    (reachable : (pagedEngine loaded scheduler decodeBuckets pools buffers).Reachable s) :
    Genuine loaded.eosTokenIds (Likely m.logits loaded.softmax loaded.sort) s :=
  genuine_reachable draws_paged (fun _ reachable => ⟨pagedReady reachable, poolsHold reachable⟩) reachable

end LlmServing.Decoder
