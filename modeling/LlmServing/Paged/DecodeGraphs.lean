import LlmServing.Paged.DecodeRows

/-!
# The decode graphs over whole runs

Whatever the buckets, and whoever joined, left or came back with other blocks, a replay reads the
tables its sequences have now.
-/

namespace LlmServing.Paged

open Scheduling Runner Engine Lib DecodeGraph

variable {numBlocks blockSize : Nat} {eos : List Token} {scheduler : Scheduler}
  {s : EngineState BlockAllocator Graphs}

def Intact (flight : Option InFlight) (seq : Sequence) : Prop :=
  ∀ failed, flight = some failed →
    failed.outcome = some .failed ∨ failed.outcome = some .deviceLost → seq.seqId ∉ failed.plan.ids

structure GraphsOk (s : EngineState BlockAllocator Graphs) : Prop where
  shape : ∀ graph ∈ s.runner, graph.2.bucket = graph.1 ∧ Even graph.2
  recorded : ∀ id, Recorded s.runner id → id ∈ s.running.map (·.seqId)
  rows : s.phase = .serving → ∀ seq ∈ s.running, Intact s.inFlight seq → RowsOk s.runner seq

theorem recording (graphs : Graphs) (scheduler : Scheduler) (now : Time) :
    PlanRule (α := BlockAllocator) scheduler now (fun _ => True)
      (fun freed _ seq => ¬freed → RowsOk graphs seq)
      (fun freed seq => ¬freed → ¬Recorded graphs seq.seqId) where
  grant _ _ := trivial
  release _ := trivial
  decode _ _ ok granted kept graph member := (ok kept graph member).grant granted
  preempt _ _ kept := absurd trivial kept
  «continue» _ _ ok _ granted kept graph member := (ok kept graph member).grant granted
  admission _ ok _ _ _ kept graph member i occupant := absurd ⟨graph, member, i, occupant⟩ (ok kept)
  skip ok := ok

theorem recorded_freed {ids : List SeqId} {graphs : Graphs} {id : SeqId}
    (recorded : Recorded ((graphRunner blockSize numBlocks eos).freeAll ids graphs) id) :
    Recorded graphs id ∧ id ∉ ids := by
  rw [freeAll_graphRunner] at recorded
  obtain ⟨_, member, i, occupant⟩ := recorded
  obtain ⟨graph, found, rfl⟩ := List.mem_map.mp member
  obtain ⟨before, kept⟩ := forgetAll_occupant.mp occupant
  exact ⟨⟨graph, found, i, before⟩, kept⟩

theorem rowsOk_freed {ids : List SeqId} {graphs : Graphs} {seq : Sequence}
    (ok : seq.seqId ∉ ids → RowsOk graphs seq) :
    RowsOk ((graphRunner blockSize numBlocks eos).freeAll ids graphs) seq := by
  rw [freeAll_graphRunner]
  intro _ member
  obtain ⟨graph, found, rfl⟩ := List.mem_map.mp member
  exact RowOk.forgetAll fun kept => ok kept graph found

theorem shape_freed {ids : List SeqId} {graphs : Graphs}
    (shape : ∀ graph ∈ graphs, graph.2.bucket = graph.1 ∧ Even graph.2) :
    ∀ graph ∈ (graphRunner blockSize numBlocks eos).freeAll ids graphs,
      graph.2.bucket = graph.1 ∧ Even graph.2 := by
  rw [freeAll_graphRunner]
  intro _ member
  obtain ⟨graph, found, rfl⟩ := List.mem_map.mp member
  obtain ⟨counts, -, bucket⟩ := forgetAll_fields ids graph.2
  obtain ⟨same, even⟩ := shape graph found
  exact ⟨bucket.trans same, by rw [Even, counts, bucket]; exact even⟩

/-! ## One forward pass -/

variable {flight : InFlight}

theorem fillable_of_decode {entry : BatchEntry} {seq : Sequence}
    (ready : Ready blockSize entry seq) (decodes : entry.isPrefillChunk = false) :
    Fillable blockSize seq := by
  have ok := ready.bookkept
  simp only [RunningOk, decodes, Bool.false_eq_true, if_false] at ok
  obtain ⟨-, -, table, generated⟩ := ok
  have total := seq.numTokens_pos
  have bound := block_lt ready.positive ready.filled
    (show seq.blockTable.numTokens - 1 < seq.blockTable.numTokens by omega)
  refine ⟨?_, ?_⟩
  · have last := Sequence.getLast?_toList seq generated
    rw [← table] at last
    cases some : seq.generatedTokens.getLast? with
    | none => simp [some] at last
    | some token => simpa [some, decodeRow, row] using last
  · rw [List.getElem?_eq_getElem bound]
    simp only [decodeRow, row, slot_eq bound]

theorem fillable_failedBatch (positive : 0 < blockSize) {runner : ModelRunner Graphs}
    (ok : Consistent runner s) (owns : Ownership numBlocks blockSize s)
    (inFlight : s.inFlight = some flight) (decodes : decodeOnly flight.plan = true) :
    ∀ seq ∈ failedBatch flight, Fillable blockSize seq := by
  intro seq member
  obtain ⟨⟨entry, _⟩, inBatch, rfl⟩ := List.mem_map.mp member
  refine fillable_of_decode (batchReady positive ok owns inFlight _ inBatch) ?_
  have here := List.all_eq_true.mp decodes entry (mem_batch.mp inBatch).1
  simpa using here

theorem Owned.length_le {a : BlockAllocator} {running : List Sequence}
    (owned : Owned numBlocks a running) {seq : Sequence} (member : seq ∈ running) :
    seq.blockTable.physicalBlocks.length ≤ numBlocks := by
  have sub : seq.blockTable.physicalBlocks ⊆ List.range numBlocks :=
    fun block holds => List.mem_range.mpr (owned.block_lt member holds)
  simpa using (List.Nodup.subperm (owned.nodup member) sub).length_le

structure Replayed (flight : InFlight) (running : List Sequence) (outcome : Outcome)
    (dg dg' : DecodeGraph) : Prop where
  bucket : dg'.bucket = dg.bucket
  even : Even dg'
  recorded : ∀ (i : Nat) (id : SeqId), dg'.rowSeqIds[i]? = some (some id) →
    id ∈ flight.plan.ids ∨ dg.rowSeqIds[i]? = some (some id)
  rows : (∀ seq ∈ running, RowOk dg seq) →
    ∀ seq ∈ running, Intact (some { flight with outcome := some outcome }) seq → RowOk dg' seq

theorem replayed_of_replay (positive : 0 < blockSize) {runner : ModelRunner Graphs}
    (ok : Consistent runner s) (owns : Ownership numBlocks blockSize s)
    (inFlight : s.inFlight = some flight) (decodes : decodeOnly flight.plan = true)
    {dg dg' : DecodeGraph} (even : Even dg) (room : flight.plan.entries.length ≤ dg.bucket)
    {outcome : Outcome}
    (replay : Replay blockSize numBlocks dg (failedBatch flight) outcome dg') :
    Replayed flight s.running outcome dg dg' := by
  have flightOk := ok.flight flight inFlight
  have fillable := fillable_failedBatch positive ok owns inFlight decodes
  have ids := flightOk.failedBatch_ids
  have length : (failedBatch flight).length = flight.plan.entries.length := by
    simpa [BatchPlan.ids] using congrArg List.length ids
  have within (k : Nat) : ((failedBatch flight).take k).length ≤ dg.bucket := by
    rw [List.length_take]
    omega
  have sized {seqs : List Sequence} (fit : seqs.length ≤ dg.bucket) :
      (filled blockSize numBlocks dg seqs).rowSeqIds.length = dg.bucket :=
    length_overlay (by rw [List.length_map]; exact fit)
  have counted {seqs : List Sequence} (fit : seqs.length ≤ dg.bucket) :
      (filled blockSize numBlocks dg seqs).rowBlocksWritten.length = dg.bucket :=
    (length_overlay (by rw [List.length_map, even]; exact fit)).trans even
  cases outcome with
  | results results =>
      have fits : ∀ seq ∈ failedBatch flight, seq.blockTable.physicalBlocks.length ≤ numBlocks :=
        fun seq member => owns.owned.length_le (mem_failedBatch flightOk member)
      simp only [Replay, fillReal_eq fillable fits even (by omega), Option.some.injEq] at replay
      subst replay
      have whole : (failedBatch flight).length ≤ dg.bucket := by omega
      refine ⟨sized whole, (counted whole).trans (sized whole).symm, fun i id occupant => ?_,
        fun rows seq member _ => ?_⟩
      · have occupied : (filled blockSize numBlocks dg (failedBatch flight)).rowSeqIds[i]? =
            some (some id) := occupant
        exact ids ▸ filled_recorded occupied
      · exact replayed_rowOk (fun _ => mem_failedBatch flightOk) ok.running_distinct rows seq member
  | failed | deviceLost =>
      obtain ⟨k, -, raised⟩ := replay
      have started := fillRows_start numBlocks
        (fun seq member => fillable seq (List.mem_of_mem_take member)) even (within k)
      have occupants := raised.rowSeqIds
      have counts := raised.rowBlocksWritten
      rw [started] at occupants counts
      have bucket : dg'.bucket = dg.bucket := by rw [DecodeGraph.bucket, occupants, sized (within k)]
      have named : ∀ id ∈ ((failedBatch flight).take k).map (·.seqId), id ∈ flight.plan.ids := by
        rw [← ids]
        exact fun id member => List.map_subset _ (List.take_subset k _) member
      refine ⟨bucket, by rw [Even, counts, counted (within k), bucket], fun i id occupant => ?_,
        fun rows seq member intact => ?_⟩
      · rw [occupants] at occupant
        exact (filled_recorded occupant).imp_left (named id)
      · have outside := intact _ rfl (by simp)
        exact raised_rowOk (fun seq member => fillable seq (List.mem_of_mem_take member)) even
          (within k) raised (fun inside => outside (named _ inside)) (rows seq member)

theorem GraphsOk.schedule {now : Time} (ok : Consistent (graphRunner blockSize numBlocks eos) s)
    (graphs : GraphsOk s) (idle : s.inFlight = none) (serving : s.phase = .serving) :
    GraphsOk (schedule (graphRunner blockSize numBlocks eos) scheduler now s) := by
  have holds := ok.holds (recording s.runner scheduler now) trivial
    (fun seq member _ => graphs.rows serving seq member (by simp [Intact, idle]))
    (fun seq member _ recorded => ok.running_not_waiting (graphs.recorded _ recorded)
      (List.mem_map_of_mem member))
  refine ⟨?_, fun id recorded => ?_, fun _ seq member _ => ?_⟩
  · rw [schedule_runner]
    exact shape_freed (shape_freed graphs.shape)
  · rw [schedule_runner] at recorded
    obtain ⟨before, notRejected⟩ := recorded_freed recorded
    obtain ⟨before, notPreempted⟩ := recorded_freed before
    have moved := (schedulerStep_ids_perm scheduler now s.running s.waiting s.allocator
      ok.live_distinct).mem_iff.mp (by
        rw [List.map_append]
        exact List.mem_append_left _ (graphs.recorded id before))
    rw [schedule_running _ _ _ ok.live_distinct]
    simp only [Planning.live, List.map_append, List.mem_append] at moved
    rcases moved with (running | waiting) | rejected
    · exact running
    · obtain ⟨seq, member, rfl⟩ := List.mem_map.mp waiting
      exact absurd before (holds.waiting seq member notPreempted)
    · exact absurd rejected notRejected
  · rw [schedule_running _ _ _ ok.live_distinct] at member
    rw [schedule_runner]
    exact rowsOk_freed fun _ => rowsOk_freed fun kept => holds.running seq member kept

theorem GraphsOk.replace {flight : InFlight} {outcome : Outcome} {bucket : Nat}
    {dg dg' : DecodeGraph} (graphs : GraphsOk s) (serving : s.phase = .serving)
    (inFlight : s.inFlight = some flight) (pending : flight.outcome = none)
    (present : ∀ id ∈ flight.plan.ids, id ∈ s.running.map (·.seqId))
    (member : (bucket, dg) ∈ s.runner) (replayed : Replayed flight s.running outcome dg dg') :
    GraphsOk
      { s with
        runner := s.runner.map fun graph => if graph.1 = bucket then (bucket, dg') else graph
        inFlight := some { flight with outcome := some outcome } } := by
  have each {graph : Nat × DecodeGraph} (replaced : graph ∈ s.runner.map
      fun graph => if graph.1 = bucket then (bucket, dg') else graph) :
      graph = (bucket, dg') ∨ graph ∈ s.runner := by
    obtain ⟨old, found, rfl⟩ := List.mem_map.mp replaced
    split
    · exact .inl rfl
    · exact .inr found
  have before : ∀ seq ∈ s.running, RowsOk s.runner seq := fun seq inRunning =>
    graphs.rows serving seq inRunning (by simp [Intact, inFlight, pending])
  refine ⟨fun graph replaced => ?_, ?_, fun _ seq inRunning intact graph replaced => ?_⟩
  · rcases each replaced with rfl | found
    · exact ⟨replayed.bucket.trans (graphs.shape _ member).1, replayed.even⟩
    · exact graphs.shape graph found
  · rintro id ⟨graph, replaced, i, occupant⟩
    rcases each replaced with rfl | found
    · rcases replayed.recorded i id occupant with planned | old
      · exact present id planned
      · exact graphs.recorded id ⟨_, member, i, old⟩
    · exact graphs.recorded id ⟨graph, found, i, occupant⟩
  · rcases each replaced with rfl | found
    · exact replayed.rows (fun other inRunning => before other inRunning _ member) seq inRunning
        intact
    · exact before seq inRunning graph found

theorem graphsRule (positive : 0 < blockSize) :
    LoopRule (graphRunner blockSize numBlocks eos) scheduler (Ownership numBlocks blockSize)
      GraphsOk where
  arrive _ _ graphs _ _ _ := ⟨graphs.shape, graphs.recorded, graphs.rows⟩
  schedule ok _ graphs idle serving := graphs.schedule ok idle serving
  forward {s flight outcome after} ok owns graphs inFlight pending computed := by
    have flightOk := ok.flight flight inFlight
    have serving := ok.serving_of_flight inFlight
    obtain ⟨-, rfl | ⟨decodes, bucket, dg, dg', member, room, replay, rfl⟩⟩ := computed
    · exact ⟨graphs.shape, graphs.recorded, fun _ seq inRunning _ =>
        graphs.rows serving seq inRunning (by simp [Intact, inFlight, pending])⟩
    · obtain ⟨same, even⟩ := graphs.shape _ member
      exact graphs.replace serving inFlight pending flightOk.present member
        (replayed_of_replay positive ok owns inFlight decodes even (by rw [same]; exact room) replay)
  results {s now flight results folded} ok owns graphs inFlight outcome _ spec := by
    have serving := ok.serving_of_flight inFlight
    refine ⟨shape_freed graphs.shape, fun id recorded => ?_, fun _ seq member _ => ?_⟩
    · obtain ⟨before, kept⟩ := recorded_freed recorded
      have moved := spec.perm.mem_iff.mpr (by
        rw [List.append_nil]
        exact graphs.recorded id before)
      rw [List.map_append] at moved
      exact (List.mem_append.mp moved).resolve_right kept
    · obtain ⟨source, found, left⟩ := spec.running_source member
      have here := graphs.rows serving source found (by simp [Intact, inFlight, outcome])
      refine rowsOk_freed fun _ => ?_
      rcases left with ⟨-, rfl⟩ | ⟨token, -, rfl⟩
      · exact here
      · exact here
  failed {s flight} ok owns graphs inFlight outcome := by
    have flightOk := ok.flight flight inFlight
    have serving := ok.serving_of_flight inFlight
    refine ⟨shape_freed graphs.shape, fun id recorded => ?_, fun _ seq member _ => ?_⟩
    · obtain ⟨before, kept⟩ := recorded_freed recorded
      obtain ⟨seq, member, rfl⟩ := List.mem_map.mp (graphs.recorded id before)
      rw [failed_running ok inFlight]
      rw [flightOk.failedBatch_ids] at kept
      exact List.mem_map_of_mem (List.mem_filter.mpr ⟨member, decide_eq_true kept⟩)
    · rw [failed_running ok inFlight] at member
      obtain ⟨found, absent⟩ := List.mem_filter.mp member
      refine rowsOk_freed fun _ => graphs.rows serving seq found ?_
      rintro _ failed -
      obtain rfl := Option.some.inj (inFlight.symm.trans failed)
      exact of_decide_eq_true absent
  deviceLost _ _ graphs _ _ := ⟨graphs.shape, graphs.recorded, fun serving => by cases serving⟩
  abortAll {s} _ _ graphs _ _ := by
    refine ⟨shape_freed graphs.shape, fun id recorded => ?_, fun serving => by cases serving⟩
    obtain ⟨before, kept⟩ := recorded_freed recorded
    rw [List.map_append] at kept
    exact absurd (List.mem_append_left _ (graphs.recorded id before)) kept

theorem graphsOk_capture (buckets : List Nat) (allocator : BlockAllocator) :
    GraphsOk { allocator, runner := capture numBlocks buckets } := by
  refine ⟨fun graph member => ?_, ?_, fun _ => List.forall_mem_nil _⟩
  · obtain ⟨bucket, -, rfl⟩ := List.mem_map.mp member
    simp [fillDummy, alloc, DecodeGraph.bucket, Even]
  · rintro id ⟨graph, member, i, occupant⟩
    obtain ⟨bucket, -, rfl⟩ := List.mem_map.mp member
    obtain ⟨bound, here⟩ := List.getElem?_eq_some_iff.mp occupant
    simp [fillDummy] at here

theorem graphsOk {positive : 0 < blockSize} {buckets : List Nat}
    (reachable : (loop (graphRunner blockSize numBlocks eos) scheduler
      (.fresh numBlocks blockSize positive) (capture numBlocks buckets)).Reachable s) :
    GraphsOk s :=
  (graphsRule positive).reachable (fun _ reachable => ownership reachable)
    (graphsOk_capture buckets _) reachable

/-! ## Every real row is exact -/

def unrecorded (dg : DecodeGraph) : DecodeGraph :=
  { dg with rowSeqIds := List.replicate dg.bucket none }

/-- `_fill_real` on `dg` succeeds, and leaves row `i` with the blocks of `seqs[i]`, as a full rewrite
of the row would. -/
def RowsExact (blockSize numBlocks : Nat) (dg : DecodeGraph) (seqs : List Sequence) : Prop :=
  ∃ after rewritten, dg.fillReal blockSize numBlocks seqs = some after ∧
    (unrecorded dg).fillReal blockSize numBlocks seqs = some rewritten ∧
    ∀ (i : Nat) (seq : Sequence), seqs[i]? = some seq →
      ∀ (col block : Nat), seq.blockTable.physicalBlocks[col]? = some block →
        after.blockTable (i, col) = block ∧ rewritten.blockTable (i, col) = block

theorem rowsExact {dg : DecodeGraph} {seqs : List Sequence}
    (fillable : ∀ seq ∈ seqs, Fillable blockSize seq)
    (fits : ∀ seq ∈ seqs, seq.blockTable.physicalBlocks.length ≤ numBlocks) (even : Even dg)
    (room : seqs.length ≤ dg.bucket) (ok : ∀ seq ∈ seqs, RowOk dg seq) :
    RowsExact blockSize numBlocks dg seqs := by
  have bucket : (unrecorded dg).bucket = dg.bucket := List.length_replicate
  have fresh : ∀ seq, RowOk (unrecorded dg) seq := by
    intro seq i occupant
    obtain ⟨_, here⟩ := List.getElem?_eq_some_iff.mp occupant
    simp [unrecorded] at here
  refine ⟨_, _, fillReal_eq fillable fits even room, fillReal_eq fillable fits
    (show (unrecorded dg).rowBlocksWritten.length = _ from even.trans bucket.symm)
    (by rw [bucket]; exact room), fun i seq here col block holds => ?_⟩
  obtain ⟨inside, rfl⟩ := List.getElem?_eq_some_iff.mp holds
  have read : seq.blockTable.physicalBlocks.getD col 0 = seq.blockTable.physicalBlocks[col] := by
    rw [List.getD_eq_getElem?_getD, holds, Option.getD_some]
  exact ⟨(replayed_row (ok seq (List.mem_of_getElem? here)) here inside).trans read,
    (replayed_row (fresh seq) here inside).trans read⟩

theorem fillReal_flight (positive : 0 < blockSize) {runner : ModelRunner Graphs} (ok : Consistent runner s)
    (owns : Ownership numBlocks blockSize s) (graphs : GraphsOk s) (inFlight : s.inFlight = some flight)
    (decodes : decodeOnly flight.plan = true) {bucket : Nat} {dg : DecodeGraph}
    (member : (bucket, dg) ∈ s.runner) (room : flight.plan.entries.length ≤ bucket) :
    dg.fillReal blockSize numBlocks (failedBatch flight) =
      some (replayed blockSize numBlocks dg (failedBatch flight)) := by
  have flightOk := ok.flight flight inFlight
  obtain ⟨same, even⟩ := graphs.shape _ member
  exact fillReal_eq (fillable_failedBatch positive ok owns inFlight decodes)
    (fun seq planned => owns.owned.length_le (mem_failedBatch flightOk planned)) even
    (flightOk.length_failedBatch.trans_le (room.trans_eq same.symm))

theorem decode_rows_exact (eos : List Token) (scheduler : Scheduler) {numBlocks blockSize : Nat}
    (positive : 0 < blockSize) (buckets : List Nat) {s : EngineState BlockAllocator Graphs}
    (reachable : (loop (graphRunner blockSize numBlocks eos) scheduler
      (.fresh numBlocks blockSize positive) (capture numBlocks buckets)).Reachable s)
    {flight : InFlight} (inFlight : s.inFlight = some flight) (pending : flight.outcome = none)
    (decodes : decodeOnly flight.plan = true) {bucket : Nat} {dg : DecodeGraph}
    (member : (bucket, dg) ∈ s.runner) (room : flight.plan.entries.length ≤ bucket) :
    RowsExact blockSize numBlocks dg ((batch flight.plan flight.seqs).map (·.2)) := by
  have ok := consistent reachable
  have owns := ownership reachable
  have graphs := graphsOk reachable
  have flightOk := ok.flight flight inFlight
  obtain ⟨same, even⟩ := graphs.shape _ member
  have present : ∀ seq ∈ failedBatch flight, seq ∈ s.running :=
    fun _ => mem_failedBatch flightOk
  refine rowsExact (fillable_failedBatch positive ok owns inFlight decodes)
    (fun seq planned => owns.owned.length_le (present seq planned)) even
    (flightOk.length_failedBatch.trans_le (room.trans_eq same.symm)) fun seq planned => ?_
  exact graphs.rows (ok.serving_of_flight inFlight) seq (present seq planned)
    (by simp [Intact, inFlight, pending]) _ member

def replayOnTwo (plan : BatchPlan) (seqs : List Sequence) (graphs : Graphs) : Graphs :=
  match graphs.find? (·.1 = 2) with
  | none => graphs
  | some (_, dg) =>
      if decodeOnly plan ∧ plan.entries.length ≤ 2 then
        graphs.map fun graph =>
          if graph.1 = 2 then (2, replayed 2 4 dg ((batch plan seqs).map (·.2))) else graph
      else graphs

def graphComputed (s : EngineState BlockAllocator Graphs) : Graphs × List Token :=
  match s.inFlight with
  | none => (s.runner, [])
  | some flight => (replayOnTwo flight.plan flight.seqs s.runner,
      List.replicate (owed flight.plan flight.seqs).length 9)

abbrev graphRun : Nat → EngineState BlockAllocator Graphs :=
  sharedRun (graphRunner 2 4 []) graphComputed (samplePool 4 1) (capture 4 [1, 2])

theorem graphRun_reachable (n : Nat) :
    (loop (graphRunner 2 4 []) sharedScheduler (samplePool 4 1) (capture 4 [1, 2])).Reachable
        (graphRun n) ∧ (graphRun n).inFlight = none ∧ (graphRun n).phase = .serving := by
  refine sharedRun_reachable (fun s flight reachable inFlight pending => ?_) n
  have ok := consistent reachable
  have owns : Ownership 4 2 s := ownership reachable
  simp only [graphComputed, inFlight]
  refine ⟨List.length_replicate, fun results same =>
    ⟨List.replicate (owed flight.plan flight.seqs).length 9, List.length_replicate, ?_⟩, ?_⟩
  · exact (Outcome.results.inj same).symm
  · unfold replayOnTwo
    split
    · exact .inl rfl
    · rename_i size dg found
      split
      · rename_i both
        obtain ⟨decodes, few⟩ := both
        obtain ⟨member, rfl⟩ := Keyed.find?_some found
        exact .inr ⟨decodes, 2, dg, _, member, few,
          fillReal_flight (by decide) ok owns (graphsOk reachable) inFlight decodes member few, rfl⟩
      · exact .inl rfl

theorem decode_rows_exact_sample :
    ∃ dg, (2, dg) ∈ (schedule (graphRunner 2 4 []) sharedScheduler 4 (graphRun 3)).runner ∧
      dg.rowSeqIds = [some 0, none] ∧ dg.rowBlocksWritten = [2, 2] ∧
      RowsExact 2 4 dg ((batch { entries := [⟨0, 1, false⟩], preempted := [1] }
        (schedule (graphRunner 2 4 []) sharedScheduler 4 (graphRun 3)).running).map (·.2)) := by
  let s := schedule (graphRunner 2 4 []) sharedScheduler 4 (graphRun 3)
  obtain ⟨reachable, idle, serving⟩ := graphRun_reachable 3
  have next := reachable.next
    (.schedule idle serving : Step (graphRunner 2 4 []) sharedScheduler _ (.schedule 4) _)
  have inFlight : s.inFlight =
      some ⟨{ entries := [⟨0, 1, false⟩], preempted := [1] }, s.running, none⟩ := by decide +kernel
  have rows : s.runner.map (fun graph => (graph.1, graph.2.rowSeqIds, graph.2.rowBlocksWritten)) =
      [(1, [none], [0]), (2, [some 0, none], [2, 2])] := by decide +kernel
  have named : (2, [some 0, none], [2, 2]) ∈
      s.runner.map fun graph => (graph.1, graph.2.rowSeqIds, graph.2.rowBlocksWritten) := by simp [rows]
  obtain ⟨⟨_, dg⟩, member, same⟩ := List.mem_map.mp named
  simp only [Prod.mk.injEq] at same
  obtain ⟨rfl, ids, blocks⟩ := same
  exact ⟨dg, member, ids, blocks,
    decode_rows_exact [] _ (by decide) [1, 2] next inFlight rfl rfl member (by decide)⟩

end LlmServing.Paged
