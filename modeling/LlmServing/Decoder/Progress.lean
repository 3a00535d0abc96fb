import LlmServing.Decoder.PagedRuns

/-!
# Every iteration can be computed

From any reachable state the batch in flight has results on the path `forward` takes: no index is out of
range, entries have rows of their own, and every owed token has a row of logits to be drawn from.
-/

namespace LlmServing.Decoder

open Scheduling Runner Engine Lib Kernels
open Paged (spans BatchReady)

variable {m : Modules} {blockSize scratch : Nat} {plan : BatchPlan} {seqs : List Sequence}
  {input : DeviceBatch}

theorem Feeds.rows_apart (feeds : Feeds blockSize scratch plan seqs input) :
    RowsApart input.paging := by
  intro e inside r row e' inside' r' row' same
  have place {e r : Nat} (inside : e < input.paging.entries)
      (row : r < min (input.paging.qLen e) input.paging.maxQLen) :
      ∃ n, (spans 0 (batch plan seqs))[e]? =
        some (input.paging.qStart e, input.paging.qStart e + n) ∧ r < n := by
    have asked : r < input.paging.qLen e := row.trans_le (Nat.min_le_left _ _)
    obtain ⟨entry, seq, start, -, span, pages⟩ := feeds.real inside (Nat.zero_lt_of_lt asked)
    exact ⟨_, pages.qStart ▸ span, asked.trans_eq pages.qLen⟩
  obtain ⟨n, span, bound⟩ := place inside row
  obtain ⟨n', span', bound'⟩ := place inside' row'
  rcases Nat.lt_trichotomy e e' with before | rfl | behind
  · have apart := spans_ordered before span span'
    dsimp only at apart
    omega
  · exact ⟨rfl, Nat.add_left_cancel same⟩
  · have apart := spans_ordered behind span' span
    dsimp only at apart
    omega

/-- What one iteration indexes is there. The index rows have one length; every row is written to a slot
of the pool or of its scratch block; an entry's queries are rows of the batch that no other entry has; its
cached positions are read through its own sequence's blocks; and an owed token has a row of its own. -/
structure InRange (numBlocks blockSize : Nat) (plan : BatchPlan) (seqs : List Sequence)
    (input : DeviceBatch) : Prop where
  positionIds : input.positionIds.length = input.inputIds.length
  destBlockId : input.destBlockId.length = input.inputIds.length
  destWithin : input.destWithin.length = input.inputIds.length
  slots : ∀ written ∈ input.dest, written.1 ≤ numBlocks ∧ written.2 < blockSize
  queries : ∀ e < input.paging.entries, ∀ r < input.paging.qLen e,
    input.paging.qStart e + r < input.inputIds.length
  apart : RowsApart input.paging
  tables : ∀ e < input.paging.entries, 0 < input.paging.qLen e →
    ∃ entry seq, (batch plan seqs)[e]? = some (entry, seq) ∧
      ∀ p < input.paging.contextLen e, p / blockSize < numBlocks ∧
        seq.blockTable.physicalBlocks[p / blockSize]? =
          some (input.paging.blockTable e (p / blockSize)) ∧
        input.paging.blockTable e (p / blockSize) < numBlocks
  owed : ∀ owing ∈ owedRows plan seqs (flatRows plan seqs).offsets,
    owing.2 < input.inputIds.length

theorem Feeds.inputIds_lt (feeds : Feeds blockSize scratch plan seqs input) {i position : Nat}
    {entry : BatchEntry} {seq : Sequence} (here : RowAt (batch plan seqs) i entry seq position) :
    i < input.inputIds.length :=
  (List.getElem?_eq_some_iff.mp (feeds.row here).1).1

theorem Feeds.inRange {numBlocks : Nat} (feeds : Feeds blockSize numBlocks plan seqs input)
    (positive : 0 < blockSize) (ready : BatchReady blockSize plan seqs)
    (owned : ∀ pair ∈ batch plan seqs, pair.2.blockTable.physicalBlocks.length ≤ numBlocks ∧
      ∀ block ∈ pair.2.blockTable.physicalBlocks, block < numBlocks) :
    InRange numBlocks blockSize plan seqs input where
  positionIds := feeds.positionIds
  destBlockId := feeds.destBlockId
  destWithin := feeds.destWithin
  slots written member := by
    obtain ⟨i, here⟩ := List.mem_iff_getElem?.mp member
    rcases feeds.slots here with planned | rfl
    · obtain ⟨row, placed, rfl⟩ := List.mem_map.mp (List.mem_of_getElem? planned)
      obtain ⟨⟨entry, seq⟩, inBatch, fed⟩ := List.mem_flatMap.mp placed
      obtain ⟨position, new, rfl⟩ := List.mem_map.mp fed
      have le := (ready _ inBatch).nTokens_le
      have inside : position < seq.blockTable.numTokens := by
        rw [List.mem_range'_1, cachedBefore] at new
        dsimp only at le
        omega
      have bound := Paged.block_lt positive (ready _ inBatch).filled inside
      rw [Paged.row, Paged.slot_eq bound]
      exact ⟨((owned _ inBatch).2 _ (List.getElem_mem bound)).le, Nat.mod_lt _ positive⟩
    · exact ⟨Nat.le_refl _, positive⟩
  queries e inside r asked := by
    obtain ⟨entry, seq, start, here, span, pages⟩ := feeds.real inside (Nat.zero_lt_of_lt asked)
    rw [pages.qStart]
    exact feeds.inputIds_lt ⟨e, start, r, here, span, asked.trans_eq pages.qLen, rfl, rfl⟩
  apart := feeds.rows_apart
  tables e inside asked := by
    obtain ⟨entry, seq, start, here, span, pages⟩ := feeds.real inside asked
    refine ⟨entry, seq, here, fun p cached => ?_⟩
    rw [pages.contextLen] at cached
    have inBatch := List.mem_of_getElem? here
    have bound := Paged.block_lt positive (ready _ inBatch).filled cached
    obtain ⟨length, blocks⟩ := owned _ inBatch
    have own : seq.blockTable.physicalBlocks.getD (p / blockSize) 0 =
        seq.blockTable.physicalBlocks[p / blockSize] := by
      rw [List.getD_eq_getElem?_getD, List.getElem?_eq_getElem bound, Option.getD_some]
    rw [pages.blocks _ bound, own]
    exact ⟨bound.trans_le length, List.getElem?_eq_getElem bound, blocks _ (List.getElem_mem bound)⟩
  owed owing member := by
    rw [Paged.flatRows_eq ready] at member
    obtain ⟨e, entry, start, here, span, owes, row⟩ := mem_owedRows member
    have inBatch := List.mem_of_getElem? here
    rw [row]
    exact feeds.inputIds_lt (rowAt_owed (ready _ inBatch).bookkept here span owes)

variable {loaded : Loaded m}

theorem exists_pathEmits (loaded : Loaded m) {path : ForwardPath} {graphs : Graphs} (fits : path.Fits graphs plan)
    (present : (batch plan seqs).length = plan.entries.length) (hidden : TokenRows m.Hidden) :
    ∃ results, PathEmits loaded path hidden plan seqs results := by
  have emits := exists_emitOwed m loaded.softmax loaded.sort loaded.eosTokenIds hidden plan seqs
    (flatRows plan seqs).offsets
  cases path with
  | decodeGraph bucket =>
      refine exists_emitted _ _ _ _ _ ?_
      rw [List.length_map, present]
      exact fits.2.2
  | piecewise bucket => exact emits
  | fused => exact emits

theorem exists_graphsAfter {path : ForwardPath} {graphs : Graphs}
    (made : pathBatch loaded.blockSize loaded.numBlocks graphs plan seqs path = some input) :
    ∃ after, ∀ results, GraphsAfter loaded path plan seqs graphs (.results results) after := by
  cases path with
  | piecewise bucket => exact ⟨graphs, fun _ => rfl⟩
  | fused => exact ⟨graphs, fun _ => rfl⟩
  | decodeGraph bucket =>
      simp only [pathBatch, Option.bind_eq_bind, Option.bind_eq_some_iff] at made
      obtain ⟨⟨size, dg⟩, found, dg', filled, -⟩ := made
      obtain ⟨member, rfl⟩ := Keyed.find?_some found
      exact ⟨_, fun _ => ⟨dg, dg', member, filled, rfl⟩⟩

theorem exists_pathComputes {path : ForwardPath} {graphs : Graphs} (fits : path.Fits graphs plan)
    (present : (batch plan seqs).length = plan.entries.length)
    (feeds : Feeds loaded.blockSize scratch plan seqs input)
    (full : ∀ bucket, path = .piecewise bucket → FillsBucket bucket input)
    (before : PagedState m) (after : Graphs) :
    ∃ results pools buffers,
      PathComputes loaded path input plan seqs before results ⟨pools, after, buffers⟩ := by
  obtain ⟨last, pools, layers⟩ := Modules.exists_decoderLayers feeds.rows_apart
    input.dest (m.rotaryRows input.positionIds) (m.embedRows input.inputIds) before.pools m.layers
  have eager : ∃ results pools buffers, buffers = before.buffers ∧ ∃ hidden,
      m.DecoderHidden (m.PagedAttention loaded.blockSize input.dest input.paging) input.inputIds
        input.positionIds before.pools hidden pools ∧
      PathEmits loaded path hidden plan seqs results := by
    obtain ⟨results, emitted⟩ := exists_pathEmits loaded fits present
      fun i => m.norm (last i)
    exact ⟨results, pools, _, rfl, _, ⟨last, layers, rfl⟩, emitted⟩
  cases path with
  | decodeGraph bucket => exact eager
  | fused => exact eager
  | piecewise bucket =>
      have filled := full bucket rfl
      have whole := fill_batch filled before.buffers
      have eager : eagerLayers loaded.blockSize bucket input.paging
          (before.buffers.fill bucket input, before.pools) m.layers last pools := by
        unfold eagerLayers
        rw [← SegmentBuffers.batch_dest _ _ input.paging, whole]
        exact layers
      obtain ⟨buffers, run, -⟩ := exists_run filled.within eager
      obtain ⟨results, emitted⟩ := exists_pathEmits loaded fits present
        buffers.hidden
      exact ⟨results, pools, buffers, run, emitted⟩

theorem PagedReady.inRange {s : EngineState BlockAllocator (PagedState m)} {flight : InFlight}
    (known : PagedReady loaded s) (ok : Consistent (pagedDecoder loaded) s)
    (inFlight : s.inFlight = some flight)
    (feeds : Feeds loaded.blockSize loaded.numBlocks flight.plan flight.seqs input) :
    InRange loaded.numBlocks loaded.blockSize flight.plan flight.seqs input := by
  refine feeds.inRange loaded.blockSize_pos (Paged.batchReady loaded.blockSize_pos ok known.owns inFlight) ?_
  rintro ⟨entry, seq⟩ member
  have running := (mem_flight_batch ok inFlight member).1
  exact ⟨known.owns.owned.length_le running, fun block holds => known.owns.owned.block_lt running holds⟩

theorem exists_forward {s : EngineState BlockAllocator (PagedState m)} {flight : InFlight}
    (known : PagedReady loaded s) (ok : Consistent (pagedDecoder loaded) s)
    (inFlight : s.inFlight = some flight) (pending : flight.outcome = none) :
    ∃ results after, forwardPaged loaded flight.plan flight.seqs s.runner (.results results) after := by
  obtain ⟨input, made, feeds, full⟩ := known.feeds inFlight pending
  have fits := forwardPath_fits s.runner.graphs loaded.piecewiseBuckets flight.plan
  have flightOk := ok.flight flight inFlight
  have present : (batch flight.plan flight.seqs).length = flight.plan.entries.length := by
    simpa using congrArg List.length (map_fst_batch (flightOk.seqs ▸ flightOk.present))
  obtain ⟨graphs, moved⟩ := exists_graphsAfter made
  obtain ⟨results, pools, buffers, computed⟩ :=
    exists_pathComputes fits present feeds full s.runner graphs
  exact ⟨results, _, moved results, input, made, computed⟩

end LlmServing.Decoder
