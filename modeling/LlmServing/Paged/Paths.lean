import LlmServing.Paged.DecodeGraphs

/-!
# The three paged paths

The decode graphs, the piecewise graphs and the fused path feed the model the same rows, padding
apart, and padding writes to the scratch block alone.
-/

namespace LlmServing.Paged

open Scheduling Runner Engine Lib DecodeGraph

variable {blockSize numBlocks : Nat}

def iterationColumns (blockSize : Nat) (plan : BatchPlan) (seqs : List Sequence) : Iteration where
  inputIds := (planRows blockSize plan seqs).map (·.token)
  positionIds := (planRows blockSize plan seqs).map (·.position)
  destBlockId := (planRows blockSize plan seqs).map (·.block)
  destWithin := (planRows blockSize plan seqs).map (·.within)
  contextLen := (batch plan seqs).map (·.2.blockTable.numTokens)
  queryOffset := (batch plan seqs).map fun pair => cachedBefore pair.1 pair.2
  qStart := (spans 0 (batch plan seqs)).map (·.1)
  qLen := (batch plan seqs).map (·.1.nTokens)

theorem fusedIteration_eq {plan : BatchPlan} {seqs : List Sequence}
    (ready : BatchReady blockSize plan seqs) :
    fusedIteration blockSize plan seqs = some (iterationColumns blockSize plan seqs) := by
  rw [fusedIteration, pagingRows_eq ready, flatRows_eq ready]
  rfl

/-- `padded` is `real` with padding behind its real rows: `tokens` columns hold a token, `entries` an
entry, and the others write to block `scratch` at offset 0 and have no query. -/
structure Pads (scratch tokens entries : Nat) (real padded : Iteration) : Prop where
  inputIds : padded.inputIds.take tokens = real.inputIds
  positionIds : padded.positionIds.take tokens = real.positionIds
  destBlockId : padded.destBlockId.take tokens = real.destBlockId
  destWithin : padded.destWithin.take tokens = real.destWithin
  contextLen : padded.contextLen.take entries = real.contextLen
  queryOffset : padded.queryOffset.take entries = real.queryOffset
  qStart : padded.qStart.take entries = real.qStart
  qLen : padded.qLen.take entries = real.qLen
  blocks : ∀ block ∈ padded.destBlockId.drop tokens, block = scratch
  queries : ∀ n ∈ padded.qLen.drop entries, n = 0

theorem pads_self {tokens entries scratch : Nat} {real : Iteration}
    (inputIds : real.inputIds.length ≤ tokens) (positionIds : real.positionIds.length ≤ tokens)
    (destBlockId : real.destBlockId.length ≤ tokens) (destWithin : real.destWithin.length ≤ tokens)
    (contextLen : real.contextLen.length ≤ entries) (queryOffset : real.queryOffset.length ≤ entries)
    (qStart : real.qStart.length ≤ entries) (qLen : real.qLen.length ≤ entries) :
    Pads scratch tokens entries real real where
  inputIds := List.take_of_length_le inputIds
  positionIds := List.take_of_length_le positionIds
  destBlockId := List.take_of_length_le destBlockId
  destWithin := List.take_of_length_le destWithin
  contextLen := List.take_of_length_le contextLen
  queryOffset := List.take_of_length_le queryOffset
  qStart := List.take_of_length_le qStart
  qLen := List.take_of_length_le qLen
  blocks := by simp [List.drop_eq_nil_of_le destBlockId]
  queries := by simp [List.drop_eq_nil_of_le qLen]

theorem pads_fused (plan : BatchPlan) (seqs : List Sequence) :
    Pads numBlocks (planRows blockSize plan seqs).length (batch plan seqs).length
      (iterationColumns blockSize plan seqs) (iterationColumns blockSize plan seqs) := by
  apply pads_self <;> simp [iterationColumns, length_spans]

theorem pads_piecewise {plan : BatchPlan} {seqs : List Sequence}
    (ready : BatchReady blockSize plan seqs) (bucket : Nat) :
    ∃ padded, piecewiseIteration blockSize numBlocks bucket plan seqs = some padded ∧
      Pads numBlocks (planRows blockSize plan seqs).length (batch plan seqs).length
        (iterationColumns blockSize plan seqs) padded := by
  have entries := @pads_fused blockSize numBlocks plan seqs
  rw [piecewiseIteration, pagingRows_eq ready, flatRows_eq ready]
  refine ⟨_, rfl, ?_, ?_, ?_, ?_, entries.contextLen, entries.queryOffset, entries.qStart,
    entries.qLen, ?_, entries.queries⟩ <;> simp [iterationColumns, pagingColumns]

theorem entryRows_decode {entry : BatchEntry} {seq : Sequence} (ready : Ready blockSize entry seq)
    (decodes : entry.isPrefillChunk = false) :
    entry.nTokens = 1 ∧ 0 < seq.blockTable.numTokens ∧
      cachedBefore entry seq = seq.blockTable.numTokens - 1 := by
  have ok := ready.bookkept
  have le := ready.nTokens_le
  simp only [RunningOk, decodes, Bool.false_eq_true, if_false] at ok
  rw [cachedBefore, ok.1]
  omega

theorem planRows_decodes {plan : BatchPlan} {seqs : List Sequence}
    (ready : BatchReady blockSize plan seqs)
    (decodes : ∀ pair ∈ batch plan seqs, pair.1.isPrefillChunk = false) :
    planRows blockSize plan seqs = ((batch plan seqs).map (·.2)).map (decodeRow blockSize) := by
  rw [planRows, List.map_map, List.map_eq_flatMap]
  refine List.flatMap_congr fun pair member => ?_
  obtain ⟨single, -, cached⟩ := entryRows_decode (ready pair member) (decodes pair member)
  rw [entryRows, cached, single]
  rfl

theorem spans_decodes (start : Nat) {pairs : List (BatchEntry × Sequence)}
    (single : ∀ pair ∈ pairs, pair.1.nTokens = 1) :
    (spans start pairs).map (·.1) = List.range' start pairs.length := by
  induction pairs generalizing start with
  | nil => rfl
  | cons pair rest ih =>
      obtain ⟨entry, seq⟩ := pair
      have one : entry.nTokens = 1 := single (entry, seq) (by simp)
      rw [spans, List.map_cons, ih _ fun other member => single other (by simp [member]), one]
      rfl

theorem pads_decodes {plan : BatchPlan} {seqs : List Sequence} {dg : DecodeGraph}
    (ready : BatchReady blockSize plan seqs)
    (decodes : ∀ pair ∈ batch plan seqs, pair.1.isPrefillChunk = false)
    (room : (batch plan seqs).length ≤ dg.bucket) :
    Pads numBlocks (planRows blockSize plan seqs).length (batch plan seqs).length
      (iterationColumns blockSize plan seqs)
      (replayed blockSize numBlocks dg ((batch plan seqs).map (·.2))).iteration := by
  have rows := planRows_decodes ready decodes
  have each := fun pair member => entryRows_decode (ready pair member) (decodes pair member)
  have size : (planRows blockSize plan seqs).length = (batch plan seqs).length := by simp [rows]
  have bucket : (replayed blockSize numBlocks dg ((batch plan seqs).map (·.2))).bucket =
      dg.bucket := length_overlay (by rw [List.length_map, List.length_map]; exact room)
  rw [size]
  simp only [iterationColumns, rows]
  constructor
  · exact take_overlay (by simp)
  · exact take_overlay (by simp)
  · exact take_overlay (by simp)
  · exact take_overlay (by simp)
  · refine (take_overlay (by simp)).trans ?_
    rw [List.map_map, List.map_map]
    refine List.map_congr_left fun pair member => ?_
    obtain ⟨-, some, -⟩ := each pair member
    exact Nat.sub_add_cancel some
  · refine (take_overlay (by simp)).trans ?_
    rw [List.map_map, List.map_map]
    exact List.map_congr_left fun pair member => (each pair member).2.2.symm
  · rw [spans_decodes 0 fun pair member => (each pair member).1, ← List.range_eq_range']
    simp only [DecodeGraph.iteration, DecodeGraph.qStart, bucket, List.take_range,
      Nat.min_eq_left room]
  · refine (take_overlay (by simp)).trans ?_
    rw [List.map_map, List.map_map]
    exact List.map_congr_left fun pair member => (each pair member).1.symm
  · have padding : (replayed blockSize numBlocks dg ((batch plan seqs).map (·.2))).destBlockId.drop
        (batch plan seqs).length = (List.replicate dg.bucket numBlocks).drop (batch plan seqs).length :=
      drop_overlay (by simp)
    intro block member
    rw [DecodeGraph.iteration, padding] at member
    exact List.eq_of_mem_replicate (List.mem_of_mem_drop member)
  · have padding : (replayed blockSize numBlocks dg ((batch plan seqs).map (·.2))).qLen.drop
        (batch plan seqs).length = (List.replicate dg.bucket 0).drop (batch plan seqs).length :=
      drop_overlay (by simp)
    intro n member
    rw [DecodeGraph.iteration, padding] at member
    exact List.eq_of_mem_replicate (List.mem_of_mem_drop member)

def OwnSlots (plan : BatchPlan) (running : List Sequence) (real : Iteration) : Prop :=
  ∀ (i : Nat) (entry : BatchEntry), plan.entries[i]? = some entry →
    ∃ seq ∈ running, seq.seqId = entry.seqId ∧ ∃ start, real.qStart[i]? = some start ∧
      ∀ r < entry.nTokens, ∃ block ∈ seq.blockTable.physicalBlocks,
        real.destBlockId[start + r]? = some block

structure PathsAgree (blockSize numBlocks : Nat) (graphs : Graphs) (running : List Sequence)
    (plan : BatchPlan) (seqs : List Sequence) (real : Iteration) : Prop where
  fused : fusedIteration blockSize plan seqs = some real
  paths : ∀ path : ForwardPath, path.Fits graphs plan →
    ∃ padded, pathIteration blockSize numBlocks graphs plan seqs path = some padded ∧
      Pads numBlocks real.inputIds.length plan.entries.length real padded
  distinct : (real.destBlockId.zip real.destWithin).Nodup
  own : OwnSlots plan running real

variable {eos : List Token} {s : EngineState BlockAllocator Graphs} {flight : InFlight}

theorem ownSlots (positive : 0 < blockSize) {runner : ModelRunner Graphs}
    (ok : Consistent runner s) (owns : Ownership numBlocks blockSize s)
    (inFlight : s.inFlight = some flight) :
    OwnSlots flight.plan s.running (iterationColumns blockSize flight.plan flight.seqs) := by
  intro i entry planned
  obtain ⟨seq, here⟩ := flight_batch_at ok inFlight planned
  have inBatch := List.mem_of_getElem? here
  obtain ⟨running, same, -⟩ := mem_flight_batch ok inFlight inBatch
  have ready := batchReady positive ok owns inFlight _ inBatch
  have le : entry.nTokens ≤ seq.blockTable.numTokens := ready.nTokens_le
  obtain ⟨skip, span, rows⟩ := row_at blockSize 0 here
  refine ⟨seq, running, same.symm, 0 + skip, by simp [iterationColumns, span], fun r inside => ?_⟩
  have bound := block_lt positive ready.filled (show cachedBefore entry seq + r <
    seq.blockTable.numTokens by rw [cachedBefore]; omega)
  refine ⟨_, List.getElem_mem bound, ?_⟩
  have at_row := rows r inside
  rw [← planRows] at at_row
  rw [Nat.zero_add, iterationColumns, List.getElem?_map, at_row, Option.map_some, row, slot_eq bound]

theorem fits_padded (positive : 0 < blockSize)
    (ok : Consistent (graphRunner blockSize numBlocks eos) s)
    (owns : Ownership numBlocks blockSize s) (graphs : GraphsOk s)
    (inFlight : s.inFlight = some flight) {path : ForwardPath}
    (fits : path.Fits s.runner flight.plan) :
    ∃ padded,
      pathIteration blockSize numBlocks s.runner flight.plan flight.seqs path = some padded ∧
      Pads numBlocks (planRows blockSize flight.plan flight.seqs).length
        (batch flight.plan flight.seqs).length
        (iterationColumns blockSize flight.plan flight.seqs) padded := by
  have flightOk := ok.flight flight inFlight
  have ready := batchReady positive ok owns inFlight
  cases path with
  | fused => exact ⟨_, fusedIteration_eq ready, pads_fused _ _⟩
  | piecewise bucket => exact pads_piecewise ready bucket
  | decodeGraph bucket =>
      obtain ⟨decodes, captured, room⟩ := fits
      obtain ⟨⟨_, dg⟩, found⟩ := Keyed.exists_find? captured
      obtain ⟨member, same⟩ := Keyed.find?_some found
      obtain ⟨size, even⟩ := graphs.shape _ member
      have length : (batch flight.plan flight.seqs).length = flight.plan.entries.length := by
        simpa using congrArg List.length (map_fst_batch (flightOk.seqs ▸ flightOk.present))
      have within : (batch flight.plan flight.seqs).length ≤ dg.bucket := by
        simp only at size same
        omega
      have filled := fillReal_flight positive ok owns graphs inFlight decodes member (room.trans_eq same.symm)
      refine ⟨_, ?_, pads_decodes ready (fun pair inBatch => ?_) within⟩
      · rw [pathIteration, found, Option.bind_eq_bind, Option.bind_some]
        exact congrArg (· >>= _) filled
      · have here := List.all_eq_true.mp decodes pair.1 (mem_batch.mp inBatch).1
        simpa using here

theorem paths_agree (eos : List Token) (scheduler : Scheduler) {numBlocks blockSize : Nat}
    (positive : 0 < blockSize) (buckets : List Nat) {s : EngineState BlockAllocator Graphs}
    (reachable : (loop (graphRunner blockSize numBlocks eos) scheduler
      (.fresh numBlocks blockSize positive) (capture numBlocks buckets)).Reachable s) :
    (∀ flight, s.inFlight = some flight → flight.outcome = none → ∃ real,
      PathsAgree blockSize numBlocks s.runner s.running flight.plan flight.seqs real) ∧
    ∀ seq ∈ s.running ++ s.waiting ++ s.ended, numBlocks ∉ seq.blockTable.physicalBlocks := by
  have ok := consistent reachable
  have owns := ownership reachable
  refine ⟨fun flight inFlight _ => ⟨iterationColumns blockSize flight.plan flight.seqs, ?_⟩,
    fun seq member scratch => ?_⟩
  · have flightOk := ok.flight flight inFlight
    have length : (batch flight.plan flight.seqs).length = flight.plan.entries.length := by
      simpa using congrArg List.length (map_fst_batch (flightOk.seqs ▸ flightOk.present))
    refine ⟨fusedIteration_eq (batchReady positive ok owns inFlight), fun path fits => ?_, ?_,
      ownSlots positive ok owns inFlight⟩
    · rw [← length]
      simpa [iterationColumns] using
        fits_padded positive ok owns (graphsOk reachable) inFlight fits
    · rw [iterationColumns, List.zip_map']
      exact slots_nodup positive ok owns inFlight
  · simp only [List.append_assoc, List.mem_append] at member
    rcases member with member | member | member
    · exact absurd (owns.owned.block_lt member scratch) (Nat.lt_irrefl _)
    · simp [(owns.waiting seq member).1] at scratch
    · simp [(owns.ended seq member).1] at scratch

theorem paths_agree_sample :
    ∃ real, PathsAgree 2 4 (schedule (graphRunner 2 4 []) sharedScheduler 3 (graphRun 2)).runner
      (schedule (graphRunner 2 4 []) sharedScheduler 3 (graphRun 2)).running
      { entries := [⟨0, 1, false⟩, ⟨1, 1, false⟩] }
      (schedule (graphRunner 2 4 []) sharedScheduler 3 (graphRun 2)).running real := by
  obtain ⟨reachable, idle, serving⟩ := graphRun_reachable 2
  have next := reachable.next
    (.schedule idle serving : Step (graphRunner 2 4 []) sharedScheduler _ (.schedule 3) _)
  exact (paths_agree [] _ (by decide) [1, 2] next).1
    ⟨{ entries := [⟨0, 1, false⟩, ⟨1, 1, false⟩] }, _, none⟩ (by decide +kernel) rfl

end LlmServing.Paged
