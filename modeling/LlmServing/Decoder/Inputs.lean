import LlmServing.Decoder.Rows
import LlmServing.Decoder.Segments
import LlmServing.Paged.Attention
import LlmServing.Paged.Paths

/-!
# What each path hands to the device

The input of the fused path, of a piecewise bucket and of a decode graph, and that all three feed the
rows of the plan: each row its token, position and slot, each entry its span and its own blocks, and
padding the scratch block alone.
-/

namespace LlmServing.Decoder

open Scheduling Runner Engine Lib Kernels
open Paged (slot spans planRows BatchReady pagingColumns iterationColumns Pads toDevice)

def onDevice (iteration : Iteration) (blockTable : Nat → Nat → Nat) (maxQLen : Nat) :
    DeviceBatch where
  inputIds := iteration.inputIds
  positionIds := iteration.positionIds
  destBlockId := iteration.destBlockId
  destWithin := iteration.destWithin
  paging :=
    { entries := iteration.qLen.length
      blockTable
      contextLen := fun e => iteration.contextLen.getD e 0
      queryOffset := fun e => iteration.queryOffset.getD e 0
      qStart := fun e => iteration.qStart.getD e 0
      qLen := fun e => iteration.qLen.getD e 0
      maxQLen }

/-- `rows.to_device`, beside the index rows of `iteration`. -/
def rowsOnDevice (rows : PagingRows) (iteration : Iteration) : DeviceBatch :=
  onDevice iteration (toDevice rows).blockTable (toDevice rows).maxQLen

def graphOnDevice (dg : DecodeGraph) : DeviceBatch :=
  onDevice dg.iteration (fun row col => dg.blockTable (row, col)) 1

def pathBatch (blockSize numBlocks : Nat) (graphs : Graphs) (plan : BatchPlan)
    (seqs : List Sequence) : ForwardPath → Option DeviceBatch
  | .decodeGraph bucket => do
      let graph ← graphs.find? (·.1 = bucket)
      let dg ← graph.2.fillReal blockSize numBlocks ((batch plan seqs).map (·.2))
      pure (graphOnDevice dg)
  | .piecewise bucket => do
      let rows ← pagingRows blockSize plan seqs (flatRows plan seqs).offsets
      let iteration ← piecewiseIteration blockSize numBlocks bucket plan seqs
      pure (rowsOnDevice rows iteration)
  | .fused => do
      let rows ← pagingRows blockSize plan seqs (flatRows plan seqs).offsets
      let iteration ← fusedIteration blockSize plan seqs
      pure (rowsOnDevice rows iteration)

structure PagesEntry (paging : PagedBatch) (e start : Nat) (entry : BatchEntry) (seq : Sequence) :
    Prop where
  inside : e < paging.entries
  contextLen : paging.contextLen e = seq.blockTable.numTokens
  queryOffset : paging.queryOffset e = cachedBefore entry seq
  qStart : paging.qStart e = start
  qLen : paging.qLen e = entry.nTokens
  maxQLen : entry.nTokens ≤ paging.maxQLen
  blocks : ∀ col < seq.blockTable.physicalBlocks.length,
    paging.blockTable e col = seq.blockTable.physicalBlocks.getD col 0

/-- The input of an iteration holds the rows of its plan, and beside them only padding. -/
structure Feeds (blockSize scratch : Nat) (plan : BatchPlan) (seqs : List Sequence)
    (input : DeviceBatch) : Prop where
  positionIds : input.positionIds.length = input.inputIds.length
  destBlockId : input.destBlockId.length = input.inputIds.length
  destWithin : input.destWithin.length = input.inputIds.length
  row {i : Nat} {entry : BatchEntry} {seq : Sequence} {position : Nat} :
    RowAt (batch plan seqs) i entry seq position →
    input.inputIds[i]? = some (seq.tokens.getD position 0) ∧ input.positionIds[i]? = some position ∧
      input.dest[i]? = some (slot blockSize seq.blockTable position)
  slots {i : Nat} {written : Nat × Nat} : input.dest[i]? = some written →
    ((planRows blockSize plan seqs).map fun row => (row.block, row.within))[i]? = some written ∨
      written = (scratch, 0)
  entry {e : Nat} {entry : BatchEntry} {seq : Sequence} {start : Nat} :
    (batch plan seqs)[e]? = some (entry, seq) →
    (spans 0 (batch plan seqs))[e]? = some (start, start + entry.nTokens) →
    PagesEntry input.paging e start entry seq
  padding : ∀ e < input.paging.entries, (batch plan seqs).length ≤ e → input.paging.qLen e = 0

variable {blockSize numBlocks : Nat} {plan : BatchPlan} {seqs : List Sequence}

theorem Feeds.real {scratch : Nat} {input : DeviceBatch}
    (feeds : Feeds blockSize scratch plan seqs input) {e : Nat} (inside : e < input.paging.entries)
    (queries : 0 < input.paging.qLen e) :
    ∃ entry seq start, (batch plan seqs)[e]? = some (entry, seq) ∧
      (spans 0 (batch plan seqs))[e]? = some (start, start + entry.nTokens) ∧
      PagesEntry input.paging e start entry seq := by
  have real : e < (batch plan seqs).length := by
    by_contra beyond
    have none := feeds.padding e inside (Nat.le_of_not_lt beyond)
    omega
  have here := List.getElem?_eq_getElem real
  obtain ⟨skip, span, -⟩ := Paged.row_at 1 0 here
  exact ⟨_, _, _, here, span, feeds.entry here span⟩

theorem getElem?_of_take {α : Type} {list front : List α} {n i : Nat} {x : α}
    (prefixed : list.take n = front) (here : front[i]? = some x) : list[i]? = some x := by
  rw [← prefixed, List.getElem?_take] at here
  split at here
  · exact here
  · cases here

theorem getD_of_take {list front : List Nat} {n i x : Nat} (prefixed : list.take n = front)
    (here : front[i]? = some x) : list.getD i 0 = x := by
  rw [List.getD_eq_getElem?_getD, getElem?_of_take prefixed here, Option.getD_some]

structure Level (tokens : Nat) (padded : Iteration) : Prop where
  positionIds : padded.positionIds.length = padded.inputIds.length
  destBlockId : padded.destBlockId.length = padded.inputIds.length
  destWithin : padded.destWithin.length = padded.inputIds.length
  offsets : ∀ within ∈ padded.destWithin.drop tokens, within = 0

theorem mem_drop_of_getElem? {list : List Nat} {n i x : Nat} (beyond : n ≤ i)
    (here : list[i]? = some x) : x ∈ list.drop n := by
  refine List.mem_iff_getElem?.mpr ⟨i - n, ?_⟩
  rw [List.getElem?_drop, Nat.add_sub_cancel' beyond]
  exact here

theorem feeds_of_pads {padded : Iteration} (level : Level (planRows blockSize plan seqs).length padded)
    (pads : Pads numBlocks (planRows blockSize plan seqs).length (batch plan seqs).length
      (iterationColumns blockSize plan seqs) padded)
    {blockTable : Nat → Nat → Nat} {maxQLen : Nat}
    (blocks : ∀ (e : Nat) (entry : BatchEntry) (seq : Sequence),
      (batch plan seqs)[e]? = some (entry, seq) → entry.nTokens ≤ maxQLen ∧
        ∀ col < seq.blockTable.physicalBlocks.length,
          blockTable e col = seq.blockTable.physicalBlocks.getD col 0) :
    Feeds blockSize numBlocks plan seqs (onDevice padded blockTable maxQLen) where
  positionIds := level.positionIds
  destBlockId := level.destBlockId
  destWithin := level.destWithin
  row {i entry seq position} here := by
    have at_row := here.row blockSize
    rw [← planRows] at at_row
    have column {α : Type} (field : Paged.Row → α) :
        ((planRows blockSize plan seqs).map field)[i]? =
          some (field (Paged.row blockSize seq position)) := by
      rw [List.getElem?_map, at_row, Option.map_some]
    refine ⟨getElem?_of_take pads.inputIds (column _), getElem?_of_take pads.positionIds (column _),
      ?_⟩
    have block := getElem?_of_take pads.destBlockId (column _)
    have within := getElem?_of_take pads.destWithin (column _)
    exact List.getElem?_zip_eq_some.mpr ⟨block, within⟩
  slots {i written} here := by
    obtain ⟨block, within⟩ := List.getElem?_zip_eq_some.mp here
    by_cases real : i < (planRows blockSize plan seqs).length
    · left
      have blocks := congrArg (·[i]?) pads.destBlockId
      have offsets := congrArg (·[i]?) pads.destWithin
      simp only [List.getElem?_take, if_pos real, iterationColumns, List.getElem?_map] at blocks offsets
      rw [show (onDevice padded blockTable maxQLen).destBlockId = padded.destBlockId from rfl,
        blocks] at block
      rw [show (onDevice padded blockTable maxQLen).destWithin = padded.destWithin from rfl,
        offsets] at within
      rw [List.getElem?_eq_getElem real, Option.map_some, Option.some.injEq] at block within
      rw [List.getElem?_map, List.getElem?_eq_getElem real, Option.map_some, block, within]
    · right
      have beyond := Nat.le_of_not_lt real
      exact Prod.ext (pads.blocks _ (mem_drop_of_getElem? beyond block))
        (level.offsets _ (mem_drop_of_getElem? beyond within))
  entry {e entry seq start} here span := by
    have column {α : Type} (field : BatchEntry × Sequence → α) :
        ((batch plan seqs).map field)[e]? = some (field (entry, seq)) := by
      rw [List.getElem?_map, here, Option.map_some]
    have starts : ((spans 0 (batch plan seqs)).map (·.1))[e]? = some start := by
      rw [List.getElem?_map, span, Option.map_some]
    have length := getElem?_of_take pads.qLen (column fun pair => pair.1.nTokens)
    obtain ⟨longest, table⟩ := blocks e entry seq here
    exact ⟨(List.getElem?_eq_some_iff.mp length).1, getD_of_take pads.contextLen (column _),
      getD_of_take pads.queryOffset (column _), getD_of_take pads.qStart starts,
      getD_of_take pads.qLen (column _), longest, table⟩
  padding e inside beyond := by
    have here := List.getElem?_eq_getElem inside
    have zero := pads.queries _ (mem_drop_of_getElem? beyond here)
    simp only [onDevice, List.getD_eq_getElem?_getD, here, Option.getD_some, zero]

theorem pagingColumns_blocks {e : Nat} {entry : BatchEntry} {seq : Sequence}
    (here : (batch plan seqs)[e]? = some (entry, seq)) :
    entry.nTokens ≤ (toDevice (pagingColumns blockSize plan seqs)).maxQLen ∧
      ∀ col < seq.blockTable.physicalBlocks.length,
        (toDevice (pagingColumns blockSize plan seqs)).blockTable e col =
          seq.blockTable.physicalBlocks.getD col 0 := by
  constructor
  · have longest := Paged.le_foldl_max (pagingColumns blockSize plan seqs).qLen 0 e
    simpa [toDevice, pagingColumns, here] using longest
  · intro col inside
    simp only [toDevice, pagingColumns, List.getD_eq_getElem?_getD, List.getElem?_map, here,
      Option.map_some, Option.getD_some, Paged.paddedTable]
    rw [List.getElem?_append_left inside]

theorem feeds_rows {padded : Iteration} (level : Level (planRows blockSize plan seqs).length padded)
    (pads : Pads numBlocks (planRows blockSize plan seqs).length (batch plan seqs).length
      (iterationColumns blockSize plan seqs) padded) :
    Feeds blockSize numBlocks plan seqs (rowsOnDevice (pagingColumns blockSize plan seqs) padded) :=
  feeds_of_pads level pads fun _ _ _ here => pagingColumns_blocks here

structure FillsBucket (bucket : Nat) (input : DeviceBatch) : Prop where
  inputIds : input.inputIds.length = bucket
  positionIds : input.positionIds.length = bucket
  destBlockId : input.destBlockId.length = bucket
  destWithin : input.destWithin.length = bucket
  within : ∀ e < input.paging.entries, ∀ r < min (input.paging.qLen e) input.paging.maxQLen,
    input.paging.qStart e + r < bucket

theorem length_planRows (plan : BatchPlan) (seqs : List Sequence) :
    (planRows blockSize plan seqs).length = ((batch plan seqs).map (·.1.nTokens)).sum := by
  rw [planRows, List.length_flatMap]
  congr 1
  exact List.map_congr_left fun pair _ => Paged.length_entryRows pair.1 pair.2

theorem level_fused (plan : BatchPlan) (seqs : List Sequence) :
    Level (planRows blockSize plan seqs).length (iterationColumns blockSize plan seqs) := by
  constructor <;> simp [iterationColumns, List.drop_eq_nil_of_le]

theorem level_piecewise (ready : BatchReady blockSize plan seqs) {bucket : Nat} {padded : Iteration}
    (made : piecewiseIteration blockSize numBlocks bucket plan seqs = some padded) :
    Level (planRows blockSize plan seqs).length padded := by
  rw [piecewiseIteration, Paged.pagingRows_eq ready, Paged.flatRows_eq ready] at made
  obtain rfl := Option.some.inj made
  constructor <;> simp [pagingColumns]

theorem level_decodes {dg : DecodeGraph} (ready : BatchReady blockSize plan seqs)
    (decodes : ∀ pair ∈ batch plan seqs, pair.1.isPrefillChunk = false)
    (room : (batch plan seqs).length ≤ dg.bucket) :
    Level (planRows blockSize plan seqs).length
      (Paged.replayed blockSize numBlocks dg ((batch plan seqs).map (·.2))).iteration := by
  have column {values : List Nat} (each : values.length = (batch plan seqs).length) (fill : Nat) :
      (overlay values (List.replicate dg.bucket fill)).length = dg.bucket := by
    rw [length_overlay, List.length_replicate]
    rwa [List.length_replicate, each]
  have inputIds : (Paged.replayed blockSize numBlocks dg ((batch plan seqs).map (·.2))).inputIds.length =
      dg.bucket := column (by simp) 0
  refine ⟨?_, ?_, ?_, ?_⟩
  · exact (column (by simp) 0).trans inputIds.symm
  · exact (column (by simp) numBlocks).trans inputIds.symm
  · exact (column (by simp) 0).trans inputIds.symm
  · have padding : (Paged.replayed blockSize numBlocks dg ((batch plan seqs).map (·.2))).destWithin.drop
        (planRows blockSize plan seqs).length =
        (List.replicate dg.bucket 0).drop (planRows blockSize plan seqs).length :=
      drop_overlay (by simp [Paged.planRows_decodes ready decodes])
    intro within member
    rw [DecodeGraph.iteration, padding] at member
    exact List.eq_of_mem_replicate (List.mem_of_mem_drop member)

theorem feeds_fused (numBlocks : Nat) (ready : BatchReady blockSize plan seqs) (graphs : Graphs) :
    ∃ input, pathBatch blockSize numBlocks graphs plan seqs .fused = some input ∧
      Feeds blockSize numBlocks plan seqs input := by
  refine ⟨_, ?_, feeds_rows (level_fused plan seqs) (Paged.pads_fused plan seqs)⟩
  rw [pathBatch, Paged.pagingRows_eq ready, Paged.fusedIteration_eq ready]
  rfl

theorem feeds_piecewise (numBlocks : Nat) (ready : BatchReady blockSize plan seqs) (graphs : Graphs) {bucket : Nat}
    (fits : ((batch plan seqs).map (·.1.nTokens)).sum ≤ bucket) :
    ∃ input, pathBatch blockSize numBlocks graphs plan seqs (.piecewise bucket) = some input ∧
      Feeds blockSize numBlocks plan seqs input ∧ FillsBucket bucket input := by
  have padded : ∃ padded, piecewiseIteration blockSize numBlocks bucket plan seqs = some padded ∧
      Pads numBlocks (planRows blockSize plan seqs).length (batch plan seqs).length
        (iterationColumns blockSize plan seqs) padded := Paged.pads_piecewise ready bucket
  obtain ⟨padded, made, pads⟩ := padded
  have feeds := feeds_rows (level_piecewise ready made) pads
  refine ⟨rowsOnDevice (pagingColumns blockSize plan seqs) padded, ?_, feeds, ?_⟩
  · rw [pathBatch, Paged.pagingRows_eq ready, made]
    rfl
  · rw [piecewiseIteration, Paged.pagingRows_eq ready, Paged.flatRows_eq ready] at made
    obtain rfl := Option.some.inj made
    have real : (planRows blockSize plan seqs).length ≤ bucket :=
      (length_planRows plan seqs).trans_le fits
    refine ⟨?_, ?_, ?_, ?_, fun e inside r row => ?_⟩
    iterate 4 simp [rowsOnDevice, onDevice, pagingColumns, Nat.add_sub_cancel' real]
    have entries : e < (batch plan seqs).length := by
      simpa [rowsOnDevice, onDevice, pagingColumns] using inside
    have here := List.getElem?_eq_getElem entries
    obtain ⟨skip, span, -⟩ := Paged.row_at blockSize 0 here
    have pages := feeds.entry here span
    rw [pages.qLen] at row
    have at_row : RowAt (batch plan seqs) (0 + skip + r) _ _ _ :=
      ⟨e, 0 + skip, r, here, span, row.trans_le (Nat.min_le_left _ _), rfl, rfl⟩
    rw [pages.qStart]
    exact (List.getElem?_eq_some_iff.mp (at_row.row blockSize)).1.trans_le real

theorem feeds_decodeGraph {dg : DecodeGraph} (ready : BatchReady blockSize plan seqs)
    (decodes : ∀ pair ∈ batch plan seqs, pair.1.isPrefillChunk = false)
    (rows : ∀ seq ∈ (batch plan seqs).map (·.2), Paged.RowOk dg seq)
    (room : (batch plan seqs).length ≤ dg.bucket) :
    Feeds blockSize numBlocks plan seqs
      (graphOnDevice (Paged.replayed blockSize numBlocks dg ((batch plan seqs).map (·.2)))) := by
  refine feeds_of_pads (level_decodes ready decodes room) (Paged.pads_decodes ready decodes room) fun e entry seq here => ?_
  have member := List.mem_of_getElem? here
  have occupant : ((batch plan seqs).map (·.2))[e]? = some seq := by
    rw [List.getElem?_map, here, Option.map_some]
  have single := (Paged.entryRows_decode (ready _ member) (decodes _ member)).1
  exact ⟨single.le, fun col inside =>
    Paged.replayed_row (rows seq (List.mem_of_getElem? occupant)) occupant inside⟩

theorem exists_feeds {eos : List Token} {s : EngineState BlockAllocator Graphs} {flight : InFlight}
    (positive : 0 < blockSize) (ok : Consistent (graphRunner blockSize numBlocks eos) s)
    (owns : Paged.Ownership numBlocks blockSize s) (graphs : Paged.GraphsOk s)
    (inFlight : s.inFlight = some flight) (pending : flight.outcome = none) {path : ForwardPath}
    (fits : path.Fits s.runner flight.plan) :
    ∃ input, pathBatch blockSize numBlocks s.runner flight.plan flight.seqs path = some input ∧
      Feeds blockSize numBlocks flight.plan flight.seqs input ∧
      ∀ bucket, path = .piecewise bucket → FillsBucket bucket input := by
  have flightOk := ok.flight flight inFlight
  have ready := Paged.batchReady positive ok owns inFlight
  have entries : (batch flight.plan flight.seqs).map (·.1) = flight.plan.entries :=
    map_fst_batch (flightOk.seqs ▸ flightOk.present)
  cases path with
  | fused =>
      obtain ⟨input, made, feeds⟩ := feeds_fused numBlocks ready s.runner
      exact ⟨input, made, feeds, by rintro bucket ⟨⟩⟩
  | piecewise bucket =>
      have total : ((batch flight.plan flight.seqs).map (·.1.nTokens)).sum ≤ bucket := by
        have tokens := congrArg (fun entries : List BatchEntry => (entries.map (·.nTokens)).sum) entries
        simp only [List.map_map] at tokens
        exact tokens.trans_le fits
      obtain ⟨input, made, feeds, full⟩ :=
        feeds_piecewise numBlocks ready s.runner total
      refine ⟨input, made, feeds, ?_⟩
      rintro _ ⟨rfl⟩
      exact full
  | decodeGraph bucket =>
      obtain ⟨decodes, captured, room⟩ := fits
      obtain ⟨⟨_, dg⟩, found⟩ := Keyed.exists_find? captured
      obtain ⟨member, same⟩ := Keyed.find?_some found
      obtain ⟨size, even⟩ := graphs.shape _ member
      have length : (batch flight.plan flight.seqs).length = flight.plan.entries.length := by
        simpa using congrArg List.length entries
      have within : (batch flight.plan flight.seqs).length ≤ dg.bucket := by
        simp only at size same
        omega
      have filled := Paged.fillReal_flight positive ok owns graphs inFlight decodes member (room.trans_eq same.symm)
      have rows : ∀ seq ∈ (batch flight.plan flight.seqs).map (·.2), Paged.RowOk dg seq := by
        intro seq planned
        exact graphs.rows (ok.serving_of_flight inFlight) seq (mem_failedBatch flightOk planned)
          (by simp [Paged.Intact, inFlight, pending]) _ member
      refine ⟨_, ?_, feeds_decodeGraph ready (fun pair inBatch => ?_) rows within,
        by rintro bucket ⟨⟩⟩
      · rw [pathBatch, found, Option.bind_eq_bind, Option.bind_some]
        exact congrArg (· >>= _) filled
      · have here := List.all_eq_true.mp decodes pair.1 (mem_batch.mp inBatch).1
        simpa using here

end LlmServing.Decoder
