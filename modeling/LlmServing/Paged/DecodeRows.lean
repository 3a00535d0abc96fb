import LlmServing.Paged.Rows
import LlmServing.Runner.DecodeGraph

/-!
# What a replay writes

The closed form of `_fill_real` on a batch of decodes, and the invariant that the rows of the decode
graphs hold the tables they record.
-/

namespace LlmServing.Paged

open Scheduling Runner Engine Lib DecodeGraph

/-! ## The closed form of `_fill_real` -/

def decodeRow (blockSize : Nat) (seq : Sequence) : Row :=
  row blockSize seq (seq.blockTable.numTokens - 1)

structure Fillable (blockSize : Nat) (seq : Sequence) : Prop where
  token : seq.generatedTokens.getLast? = some (decodeRow blockSize seq).token
  block : seq.blockTable.physicalBlocks[(seq.blockTable.numTokens - 1) / blockSize]? =
    some (decodeRow blockSize seq).block

def rowCells (dg : DecodeGraph) (i : Nat) (seq : Sequence) : List ((Nat × Nat) × Nat) :=
  let physical := seq.blockTable.physicalBlocks
  let written := written dg.rowSeqIds dg.rowBlocksWritten i seq.seqId
  (List.range' written (physical.length - written)).map fun col => ((i, col), physical.getD col 0)

def cellsFrom (dg : DecodeGraph) (i : Nat) : List Sequence → List ((Nat × Nat) × Nat)
  | [] => []
  | seq :: rest => rowCells dg i seq ++ cellsFrom dg (i + 1) rest

def filled (blockSize scratch : Nat) (dg : DecodeGraph) (seqs : List Sequence) : Filling :=
  let start := startFilling scratch dg
  let rows := seqs.map (decodeRow blockSize)
  { inputIds := overlay (rows.map (·.token)) start.inputIds
    positionIds := overlay (rows.map (·.position)) start.positionIds
    destBlockId := overlay (rows.map (·.block)) start.destBlockId
    destWithin := overlay (rows.map (·.within)) start.destWithin
    contextLen := overlay (rows.map (·.position + 1)) start.contextLen
    queryOffset := overlay (rows.map (·.position)) start.queryOffset
    qLen := overlay (rows.map fun _ => 1) start.qLen
    cells := cellsFrom dg 0 seqs
    rowSeqIds := overlay (seqs.map (some ·.seqId)) dg.rowSeqIds
    rowBlocksWritten := overlay (seqs.map (·.blockTable.physicalBlocks.length)) dg.rowBlocksWritten }

variable {blockSize scratch : Nat} {dg : DecodeGraph}

theorem cellsFrom_concat (i : Nat) (seqs : List Sequence) (seq : Sequence) :
    cellsFrom dg i (seqs ++ [seq]) = cellsFrom dg i seqs ++ rowCells dg (i + seqs.length) seq := by
  induction seqs generalizing i with
  | nil => simp [cellsFrom]
  | cons first rest ih =>
      rw [List.cons_append, cellsFrom, cellsFrom, ih, List.append_assoc, List.length_cons,
        show i + 1 + rest.length = i + (rest.length + 1) by omega]

def Even (dg : DecodeGraph) : Prop := dg.rowBlocksWritten.length = dg.bucket

theorem fillRow_filled {seqs : List Sequence} {seq : Sequence} (fillable : Fillable blockSize seq)
    (even : Even dg) (room : seqs.length < dg.bucket) :
    fillRow blockSize (filled blockSize scratch dg seqs) seqs.length seq =
      some (filled blockSize scratch dg (seqs ++ [seq])) := by
  have occupant : (overlay (seqs.map (some ·.seqId)) dg.rowSeqIds)[seqs.length]? =
      dg.rowSeqIds[seqs.length]? := getElem?_overlay_ge (by simp)
  have count : (overlay (seqs.map (·.blockTable.physicalBlocks.length)) dg.rowBlocksWritten).getD
      seqs.length 0 = dg.rowBlocksWritten.getD seqs.length 0 := by
    rw [List.getD_eq_getElem?_getD, getElem?_overlay_ge (by simp), ← List.getD_eq_getElem?_getD]
  have same : written (overlay (seqs.map (some ·.seqId)) dg.rowSeqIds)
      (overlay (seqs.map (·.blockTable.physicalBlocks.length)) dg.rowBlocksWritten) seqs.length
      seq.seqId = written dg.rowSeqIds dg.rowBlocksWritten seqs.length seq.seqId := by
    simp only [written, occupant, count]
  have ids : seqs.length < dg.rowSeqIds.length := room
  have counts : seqs.length < dg.rowBlocksWritten.length := even ▸ room
  simp only [fillRow, filled, fillable.token, fillable.block, Option.bind_eq_bind, Option.bind_some,
    same, Option.pure_def, Option.some.injEq, Filling.mk.injEq, List.map_append, List.map_cons,
    List.map_nil, cellsFrom_concat, Nat.zero_add]
  simp (disch := simp [startFilling, room, ids, counts]) only [overlay_set]
  exact ⟨trivial, rfl, trivial, rfl, rfl, rfl, trivial, rfl, trivial, trivial⟩

theorem fillRows_filled (seqs rest : List Sequence)
    (fillable : ∀ seq ∈ rest, Fillable blockSize seq) (even : Even dg)
    (room : (seqs ++ rest).length ≤ dg.bucket) :
    fillRows blockSize (filled blockSize scratch dg seqs) seqs.length rest =
      (filled blockSize scratch dg (seqs ++ rest), true) := by
  induction rest generalizing seqs with
  | nil => simp [fillRows]
  | cons seq rest ih =>
      simp only [List.length_append, List.length_cons] at room
      have later := ih (seqs ++ [seq]) (fun other member => fillable other (by simp [member])) (by
        simp only [List.length_append, List.length_cons, List.length_nil]
        omega)
      rw [List.length_append, List.length_singleton, List.append_assoc] at later
      rw [fillRows, fillRow_filled (fillable seq (by simp)) even (by omega)]
      exact later

theorem fillRows_start (scratch : Nat) {seqs : List Sequence}
    (fillable : ∀ seq ∈ seqs, Fillable blockSize seq) (even : Even dg)
    (room : seqs.length ≤ dg.bucket) :
    fillRows blockSize (startFilling scratch dg) 0 seqs =
      (filled blockSize scratch dg seqs, true) :=
  fillRows_filled [] seqs fillable even room

theorem mem_cellsFrom {start row col v : Nat} {seqs : List Sequence} :
    ((row, col), v) ∈ cellsFrom dg start seqs ↔
      ∃ i seq, seqs[i]? = some seq ∧ row = start + i ∧
        written dg.rowSeqIds dg.rowBlocksWritten row seq.seqId ≤ col ∧
        col < seq.blockTable.physicalBlocks.length ∧
        v = seq.blockTable.physicalBlocks.getD col 0 := by
  induction seqs generalizing start with
  | nil => simp [cellsFrom]
  | cons seq rest ih =>
      rw [cellsFrom, List.mem_append, ih]
      constructor
      · rintro (here | ⟨i, other, found, rfl, spec⟩)
        · simp only [rowCells, List.mem_map, List.mem_range'_1, Prod.mk.injEq] at here
          obtain ⟨_, range, ⟨rfl, rfl⟩, rfl⟩ := here
          exact ⟨0, seq, rfl, rfl, range.1, by omega, rfl⟩
        · exact ⟨i + 1, other, found, by omega, spec⟩
      · rintro ⟨i, other, found, rfl, le, lt, rfl⟩
        cases i with
        | zero =>
            rw [List.getElem?_cons_zero, Option.some.injEq] at found
            subst found
            refine .inl (List.mem_map.mpr ⟨col, ?_, rfl⟩)
            rw [List.mem_range'_1]
            rw [Nat.add_zero] at le
            omega
        | succ i =>
            refine .inr ⟨i, other, found, by omega, ?_⟩
            exact ⟨le, lt, rfl⟩

theorem cellsFrom_nodup (start : Nat) (seqs : List Sequence) :
    ((cellsFrom dg start seqs).map Prod.fst).Nodup := by
  induction seqs generalizing start with
  | nil => exact List.nodup_nil
  | cons seq rest ih =>
      rw [cellsFrom, List.map_append]
      refine List.Nodup.append ?_ (ih _) ?_
      · rw [rowCells, List.map_map]
        exact List.Nodup.map (fun _ _ same => (Prod.mk.inj same).2) List.nodup_range'
      · rintro ⟨row, col⟩ here later
        obtain ⟨⟨_, v⟩, here, rfl⟩ := List.mem_map.mp here
        obtain ⟨⟨_, w⟩, later, rfl⟩ := List.mem_map.mp later
        obtain ⟨_, -, same⟩ := List.mem_map.mp here
        obtain ⟨i, -, -, other, -⟩ := mem_cellsFrom.mp later
        simp only [Prod.mk.injEq] at same
        omega

variable {numBlocks : Nat}

def replayed (blockSize numBlocks : Nat) (dg : DecodeGraph) (seqs : List Sequence) : DecodeGraph :=
  let filling := filled blockSize numBlocks dg seqs
  { inputIds := filling.inputIds
    positionIds := filling.positionIds
    destBlockId := filling.destBlockId
    destWithin := filling.destWithin
    contextLen := filling.contextLen
    queryOffset := filling.queryOffset
    qLen := filling.qLen
    blockTable := writeAll dg.blockTable filling.cells
    rowSeqIds := filling.rowSeqIds
    rowBlocksWritten := filling.rowBlocksWritten }

theorem fillReal_eq {seqs : List Sequence} (fillable : ∀ seq ∈ seqs, Fillable blockSize seq)
    (fits : ∀ seq ∈ seqs, seq.blockTable.physicalBlocks.length ≤ numBlocks) (even : Even dg)
    (room : seqs.length ≤ dg.bucket) :
    dg.fillReal blockSize numBlocks seqs = some (replayed blockSize numBlocks dg seqs) := by
  rw [fillReal, fillRows_start numBlocks fillable even room]
  refine if_pos (List.all_eq_true.mpr ?_)
  rintro ⟨⟨row, col⟩, v⟩ cell
  obtain ⟨i, seq, found, rfl, -, inside, -⟩ := mem_cellsFrom.mp cell
  have here := (List.getElem?_eq_some_iff.mp found).1
  have table := fits seq (List.mem_of_getElem? found)
  simp only [decide_eq_true_eq]
  omega

theorem replayed_cell {seqs : List Sequence} {i col : Nat} {seq : Sequence}
    (here : seqs[i]? = some seq) (inside : col < seq.blockTable.physicalBlocks.length) :
    (replayed blockSize numBlocks dg seqs).blockTable (i, col) =
      if written dg.rowSeqIds dg.rowBlocksWritten i seq.seqId ≤ col then
        seq.blockTable.physicalBlocks.getD col 0
      else dg.blockTable (i, col) := by
  split
  · rename_i new
    exact writeAll_of_mem (cellsFrom_nodup 0 seqs)
      (mem_cellsFrom.mpr ⟨i, seq, here, by omega, new, inside, rfl⟩)
  · rename_i old
    refine writeAll_of_notMem fun cell => old ?_
    obtain ⟨⟨_, v⟩, cell, rfl⟩ := List.mem_map.mp cell
    obtain ⟨j, other, found, same, le, -⟩ := mem_cellsFrom.mp cell
    obtain rfl : i = j := by omega
    rw [here, Option.some.injEq] at found
    exact found ▸ le

theorem replayed_other {seqs : List Sequence} {row col : Nat}
    (outside : ∀ seq, seqs[row]? = some seq → seq.blockTable.physicalBlocks.length ≤ col) :
    (replayed blockSize numBlocks dg seqs).blockTable (row, col) = dg.blockTable (row, col) := by
  refine writeAll_of_notMem fun cell => ?_
  obtain ⟨⟨_, v⟩, cell, rfl⟩ := List.mem_map.mp cell
  obtain ⟨j, other, found, same, -, lt, -⟩ := mem_cellsFrom.mp cell
  obtain rfl : row = j := by omega
  have := outside other found
  omega

def RowOk (dg : DecodeGraph) (seq : Sequence) : Prop :=
  ∀ i : Nat, dg.rowSeqIds[i]? = some (some seq.seqId) →
    dg.rowBlocksWritten.getD i 0 ≤ seq.blockTable.physicalBlocks.length ∧
    ∀ col < dg.rowBlocksWritten.getD i 0,
      dg.blockTable (i, col) = seq.blockTable.physicalBlocks.getD col 0

def RowsOk (graphs : Graphs) (seq : Sequence) : Prop := ∀ graph ∈ graphs, RowOk graph.2 seq

def Recorded (graphs : Graphs) (id : SeqId) : Prop :=
  ∃ graph ∈ graphs, ∃ i : Nat, graph.2.rowSeqIds[i]? = some (some id)

theorem RowOk.grant {a a' : BlockAllocator} {seq : Sequence} {n reserve : Nat} {table : BlockTable}
    (ok : RowOk dg seq) (granted : allocate a seq n reserve = some (a', table)) :
    RowOk dg { seq with blockTable := table } := by
  obtain ⟨-, -, rfl⟩ := BlockAllocator.allocate_eq_some granted
  intro i occupant
  obtain ⟨le, cells⟩ := ok i occupant
  simp only [List.length_append]
  refine ⟨by omega, fun col inside => ?_⟩
  rw [cells col inside]
  rw [List.getD_eq_getElem?_getD, List.getD_eq_getElem?_getD,
    List.getElem?_append_left (inside.trans_le le)]

theorem replayed_row {seqs : List Sequence} {i col : Nat} {seq : Sequence}
    (ok : RowOk dg seq) (here : seqs[i]? = some seq)
    (inside : col < seq.blockTable.physicalBlocks.length) :
    (replayed blockSize numBlocks dg seqs).blockTable (i, col) =
      seq.blockTable.physicalBlocks.getD col 0 := by
  rw [replayed_cell here inside]
  split
  · rfl
  · rename_i old
    unfold written at old
    split at old
    · rename_i occupant
      exact (ok i occupant).2 col (Nat.lt_of_not_le old)
    · omega

theorem filled_occupant {seqs : List Sequence} {i : Nat} :
    (filled blockSize scratch dg seqs).rowSeqIds[i]? =
      if i < seqs.length then seqs[i]?.map (some ·.seqId) else dg.rowSeqIds[i]? :=
  getElem?_overlay_map

theorem filled_count {seqs : List Sequence} {i : Nat} :
    (filled blockSize scratch dg seqs).rowBlocksWritten[i]? =
      if i < seqs.length then seqs[i]?.map (·.blockTable.physicalBlocks.length)
      else dg.rowBlocksWritten[i]? :=
  getElem?_overlay_map

theorem filled_getD {seqs : List Sequence} {i : Nat} (outside : seqs.length ≤ i) :
    (filled blockSize scratch dg seqs).rowBlocksWritten.getD i 0 =
      dg.rowBlocksWritten.getD i 0 := by
  rw [List.getD_eq_getElem?_getD, filled_count, if_neg (Nat.not_lt.mpr outside),
    ← List.getD_eq_getElem?_getD]

theorem replayed_rowOk {seqs running : List Sequence} (sub : ∀ seq ∈ seqs, seq ∈ running)
    (distinct : (running.map (·.seqId)).Nodup) (ok : ∀ seq ∈ running, RowOk dg seq) :
    ∀ seq ∈ running, RowOk (replayed blockSize numBlocks dg seqs) seq := by
  intro seq member i occupant
  simp only [replayed] at occupant ⊢
  rw [filled_occupant] at occupant
  split at occupant
  · rename_i inside
    have here := List.getElem?_eq_getElem inside
    rw [here, Option.map_some, Option.some.injEq, Option.some.injEq] at occupant
    obtain rfl := List.inj_on_of_nodup_map distinct (sub _ (List.getElem_mem inside)) member occupant
    rw [List.getD_eq_getElem?_getD, filled_count, if_pos inside, here]
    exact ⟨Nat.le_refl _, fun col bound => replayed_row (ok _ member) here bound⟩
  · rename_i outside
    rw [filled_getD (Nat.le_of_not_lt outside)]
    obtain ⟨le, cells⟩ := ok seq member i occupant
    refine ⟨le, fun col bound => (cells col bound).symm ▸ replayed_other fun other found => ?_⟩
    exact absurd (List.getElem?_eq_some_iff.mp found).1 outside

theorem raised_rowOk {seqs : List Sequence} {dg' : DecodeGraph}
    (fillable : ∀ seq ∈ seqs, Fillable blockSize seq) (even : Even dg)
    (room : seqs.length ≤ dg.bucket) (raised : Raised blockSize numBlocks dg seqs dg')
    {seq : Sequence} (other : seq.seqId ∉ seqs.map (·.seqId)) (ok : RowOk dg seq) :
    RowOk dg' seq := by
  obtain ⟨ids, counts, table⟩ := raised
  rw [fillRows_start numBlocks fillable even room] at ids counts
  intro i occupant
  rw [ids, filled_occupant] at occupant
  rw [counts]
  split at occupant
  · rename_i inside
    rw [List.getElem?_eq_getElem inside, Option.map_some, Option.some.injEq,
      Option.some.injEq] at occupant
    exact absurd (occupant ▸ List.mem_map_of_mem (List.getElem_mem inside)) other
  · rename_i outside
    rw [filled_getD (Nat.le_of_not_lt outside)]
    obtain ⟨le, cells⟩ := ok i occupant
    exact ⟨le, fun col bound => (table i col (Nat.le_of_not_lt outside)).trans (cells col bound)⟩

theorem filled_recorded {seqs : List Sequence} {i : Nat} {id : SeqId}
    (occupant : (filled blockSize scratch dg seqs).rowSeqIds[i]? = some (some id)) :
    id ∈ seqs.map (·.seqId) ∨ dg.rowSeqIds[i]? = some (some id) := by
  rw [filled_occupant] at occupant
  split at occupant
  · rename_i inside
    rw [List.getElem?_eq_getElem inside, Option.map_some, Option.some.injEq,
      Option.some.injEq] at occupant
    exact .inl (occupant ▸ List.mem_map_of_mem (List.getElem_mem inside))
  · exact .inr occupant

theorem forget_occupant {id other : SeqId} {i : Nat} :
    (dg.forget id).rowSeqIds[i]? = some (some other) ↔
      dg.rowSeqIds[i]? = some (some other) ∧ other ≠ id := by
  simp only [DecodeGraph.forget, List.getElem?_map, Option.map_eq_some_iff]
  constructor
  · rintro ⟨occupant, found, same⟩
    split at same
    · cases same
    · rename_i different
      subst same
      exact ⟨found, fun equal => different (congrArg some equal)⟩
  · rintro ⟨found, different⟩
    exact ⟨some other, found, if_neg fun same => different (Option.some.inj same)⟩

def forgetAll (ids : List SeqId) (dg : DecodeGraph) : DecodeGraph :=
  ids.foldl (fun dg id => dg.forget id) dg

theorem forgetAll_occupant {ids : List SeqId} {other : SeqId} {i : Nat} :
    (forgetAll ids dg).rowSeqIds[i]? = some (some other) ↔
      dg.rowSeqIds[i]? = some (some other) ∧ other ∉ ids := by
  induction ids generalizing dg with
  | nil => simp [forgetAll]
  | cons id rest ih =>
      refine ih.trans ?_
      rw [forget_occupant, List.mem_cons, not_or, and_assoc]

theorem forgetAll_fields (ids : List SeqId) (dg : DecodeGraph) :
    (forgetAll ids dg).rowBlocksWritten = dg.rowBlocksWritten ∧
      (forgetAll ids dg).blockTable = dg.blockTable ∧
      (forgetAll ids dg).bucket = dg.bucket := by
  induction ids generalizing dg with
  | nil => exact ⟨rfl, rfl, rfl⟩
  | cons id rest ih =>
      obtain ⟨counts, table, bucket⟩ := ih (dg.forget id)
      exact ⟨counts, table, bucket.trans (by simp [DecodeGraph.bucket, DecodeGraph.forget])⟩

theorem RowOk.forgetAll {ids : List SeqId} {seq : Sequence}
    (ok : seq.seqId ∉ ids → RowOk dg seq) : RowOk (forgetAll ids dg) seq := by
  intro i occupant
  obtain ⟨before, kept⟩ := forgetAll_occupant.mp occupant
  obtain ⟨counts, table, -⟩ := forgetAll_fields ids dg
  rw [counts, table]
  exact ok kept i before

theorem freeAll_graphRunner (eos : List Token) (ids : List SeqId) (graphs : Graphs) :
    (graphRunner blockSize numBlocks eos).freeAll ids graphs =
      graphs.map fun graph => (graph.1, forgetAll ids graph.2) := by
  induction ids generalizing graphs with
  | nil => exact (List.map_id graphs).symm
  | cons id rest ih =>
      refine (ih _).trans ?_
      simp only [graphRunner, List.map_map]
      rfl

end LlmServing.Paged
