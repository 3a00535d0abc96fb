import LlmServing.Paged.Ownership
import LlmServing.Runner.Rows

/-!
# The rows of a planned iteration

`Row` is one token an iteration feeds: whose, which, where it stands and where its key and value go.
`flat_rows` and `paging_rows` are the columns of `planRows`.
-/

namespace LlmServing.Paged

open Scheduling Runner Engine Lib

structure Row where
  seqId : SeqId
  token : Token
  position : Nat
  block : Nat
  within : Nat
  deriving DecidableEq

def slot (blockSize : Nat) (table : BlockTable) (position : Nat) : Nat × Nat :=
  (table.physicalBlocks.getD (position / blockSize) 0, position % blockSize)

def row (blockSize : Nat) (seq : Sequence) (position : Nat) : Row where
  seqId := seq.seqId
  token := seq.tokens.getD position 0
  position
  block := (slot blockSize seq.blockTable position).1
  within := (slot blockSize seq.blockTable position).2

def entryRows (blockSize : Nat) : BatchEntry × Sequence → List Row
  | (entry, seq) =>
      (List.range' (cachedBefore entry seq) entry.nTokens).map (row blockSize seq)

def planRows (blockSize : Nat) (plan : BatchPlan) (seqs : List Sequence) : List Row :=
  (batch plan seqs).flatMap (entryRows blockSize)

structure Ready (blockSize : Nat) (entry : BatchEntry) (seq : Sequence) : Prop where
  positive : 0 < blockSize
  bookkept : RunningOk (some entry) seq
  filled : TableFilled blockSize seq.blockTable

variable {blockSize : Nat} {entry : BatchEntry} {seq : Sequence}

theorem Ready.nTokens_le (ready : Ready blockSize entry seq) :
    entry.nTokens ≤ seq.blockTable.numTokens := ready.bookkept.nTokens_le

theorem Ready.numTokens_le (ready : Ready blockSize entry seq) :
    seq.blockTable.numTokens ≤ seq.tokens.length := by
  rw [Sequence.length_tokens]
  exact ready.bookkept.numTokens_le

theorem startPos_eq (ok : RunningOk (some entry) seq) :
    startPos entry seq = cachedBefore entry seq := by
  simp only [RunningOk] at ok
  unfold startPos cachedBefore
  split at ok <;> rename_i chunk
  · rw [if_pos chunk, ok.1]
  · rw [if_neg chunk, ok.1, ok.2.2.1]

theorem entryTokenIds_eq (ok : RunningOk (some entry) seq) :
    entryTokenIds entry seq =
      (List.range' (cachedBefore entry seq) entry.nTokens).map (seq.tokens.getD · 0) := by
  have cached : seq.blockTable.numTokens ≤ seq.tokens.length := by
    rw [Sequence.length_tokens]
    exact ok.numTokens_le
  rw [ok.entryTokenIds, Sequence.slice_eq_map _ _ _ cached, cachedBefore,
    Nat.sub_sub_self ok.nTokens_le]

theorem block_lt (positive : 0 < blockSize) {table : BlockTable}
    (filled : TableFilled blockSize table) {position : Nat} (inside : position < table.numTokens) :
    position / blockSize < table.physicalBlocks.length := by
  rw [filled]
  by_contra outside
  have bound := (ceilDiv_le_iff_le_mul positive).mp (Nat.le_of_not_lt outside)
  have back := Nat.mul_div_le position blockSize
  omega

theorem slot_eq {table : BlockTable} {position : Nat}
    (bound : position / blockSize < table.physicalBlocks.length) :
    slot blockSize table position =
      (table.physicalBlocks[position / blockSize], position % blockSize) := by
  simp [slot, bound]

theorem length_entryRows (entry : BatchEntry) (seq : Sequence) :
    (entryRows blockSize (entry, seq)).length = entry.nTokens := by
  simp [entryRows]

theorem entryRows_tokens (ok : RunningOk (some entry) seq) :
    (entryRows blockSize (entry, seq)).map (·.token) = entryTokenIds entry seq := by
  rw [entryTokenIds_eq ok, entryRows, List.map_map]
  rfl

theorem entryRows_positions (ok : RunningOk (some entry) seq) :
    (entryRows blockSize (entry, seq)).map (·.position) =
      List.range' (startPos entry seq) entry.nTokens := by
  rw [startPos_eq ok, entryRows, List.map_map]
  exact List.map_id _

def spans (start : Nat) : List (BatchEntry × Sequence) → List (Nat × Nat)
  | [] => []
  | (entry, _) :: rest => (start, start + entry.nTokens) :: spans (start + entry.nTokens) rest

theorem foldl_flatRow (blockSize : Nat) (pairs : List (BatchEntry × Sequence)) (rows : FlatRows)
    (bookkept : ∀ pair ∈ pairs, RunningOk (some pair.1) pair.2) :
    pairs.foldl flatRow rows =
      { tokenIds := rows.tokenIds ++ (pairs.flatMap (entryRows blockSize)).map (·.token)
        positions := rows.positions ++ (pairs.flatMap (entryRows blockSize)).map (·.position)
        offsets := rows.offsets ++ spans rows.tokenIds.length pairs } := by
  induction pairs generalizing rows with
  | nil => simp [spans]
  | cons pair rest ih =>
      obtain ⟨entry, seq⟩ := pair
      have here : RunningOk (some entry) seq := bookkept (entry, seq) (by simp)
      have size : (entryTokenIds entry seq).length = entry.nTokens := by
        rw [← @entryRows_tokens blockSize _ _ here, List.length_map, length_entryRows]
      rw [List.foldl_cons, ih _ fun other member => bookkept other (by simp [member])]
      simp [flatRow, spans, entryRows_tokens here, entryRows_positions here, size]

theorem mapM_block (ready : Ready blockSize entry seq) :
    (List.range' (cachedBefore entry seq) entry.nTokens).mapM
        (fun pos => seq.blockTable.physicalBlocks[pos / blockSize]?) =
      some ((entryRows blockSize (entry, seq)).map (·.block)) := by
  have le := ready.nTokens_le
  have each : ∀ pos ∈ List.range' (cachedBefore entry seq) entry.nTokens,
      seq.blockTable.physicalBlocks[pos / blockSize]? = some (row blockSize seq pos).block := by
    intro pos member
    rw [List.mem_range'_1, cachedBefore] at member
    have bound := block_lt ready.positive ready.filled (show pos < seq.blockTable.numTokens by omega)
    simp [row, slot, bound]
  rw [entryRows, List.map_map]
  generalize List.range' (cachedBefore entry seq) entry.nTokens = positions at each ⊢
  induction positions with
  | nil => rfl
  | cons pos rest ih =>
      rw [List.mapM_cons, each pos (by simp), ih fun other member => each other (by simp [member])]
      rfl

def paddedTable (width : Nat) (table : BlockTable) : List Nat :=
  table.physicalBlocks ++ List.replicate (width - table.physicalBlocks.length) 0

theorem pagingRow_eq (ready : Ready blockSize entry seq) (width start : Nat) (rows : PagingRows) :
    pagingRow blockSize width rows (seq.blockTable, start, start + entry.nTokens) = some
      { blockTable := rows.blockTable ++ [paddedTable width seq.blockTable]
        contextLen := rows.contextLen ++ [seq.blockTable.numTokens]
        queryOffset := rows.queryOffset ++ [cachedBefore entry seq]
        qStart := rows.qStart ++ [start]
        qLen := rows.qLen ++ [entry.nTokens]
        destBlockId := rows.destBlockId ++ (entryRows blockSize (entry, seq)).map (·.block)
        destWithin := rows.destWithin ++ (entryRows blockSize (entry, seq)).map (·.within) } := by
  have le := ready.nTokens_le
  have size : start + entry.nTokens - start = entry.nTokens := by omega
  have new : seq.blockTable.numTokens - (seq.blockTable.numTokens - entry.nTokens) =
      entry.nTokens := by omega
  have blocks := mapM_block ready
  simp only [cachedBefore] at blocks
  simp only [pagingRow, size, new, blocks]
  simp [cachedBefore, entryRows, paddedTable, row, slot]

theorem foldlM_pagingRow (pairs : List (BatchEntry × Sequence)) (width start : Nat)
    (rows : PagingRows) (ready : ∀ pair ∈ pairs, Ready blockSize pair.1 pair.2) :
    ((pairs.map (·.2.blockTable)).zip (spans start pairs)).foldlM (pagingRow blockSize width) rows =
      some
        { blockTable := rows.blockTable ++ pairs.map (paddedTable width ·.2.blockTable)
          contextLen := rows.contextLen ++ pairs.map (·.2.blockTable.numTokens)
          queryOffset := rows.queryOffset ++ pairs.map fun pair => cachedBefore pair.1 pair.2
          qStart := rows.qStart ++ (spans start pairs).map (·.1)
          qLen := rows.qLen ++ pairs.map (·.1.nTokens)
          destBlockId := rows.destBlockId ++ (pairs.flatMap (entryRows blockSize)).map (·.block)
          destWithin := rows.destWithin ++ (pairs.flatMap (entryRows blockSize)).map (·.within) } := by
  induction pairs generalizing start rows with
  | nil => simp [spans]
  | cons pair rest ih =>
      obtain ⟨entry, seq⟩ := pair
      have here : Ready blockSize entry seq := ready (entry, seq) (by simp)
      rw [List.map_cons, spans, List.zip_cons_cons, List.foldlM_cons, pagingRow_eq here]
      have later := ih (start + entry.nTokens)
        { blockTable := rows.blockTable ++ [paddedTable width seq.blockTable]
          contextLen := rows.contextLen ++ [seq.blockTable.numTokens]
          queryOffset := rows.queryOffset ++ [cachedBefore entry seq]
          qStart := rows.qStart ++ [start]
          qLen := rows.qLen ++ [entry.nTokens]
          destBlockId := rows.destBlockId ++ (entryRows blockSize (entry, seq)).map (·.block)
          destWithin := rows.destWithin ++ (entryRows blockSize (entry, seq)).map (·.within) }
        fun other member => ready other (by simp [member])
      simp only [Option.bind_eq_bind, Option.bind_some]
      rw [later]
      simp

def BatchReady (blockSize : Nat) (plan : BatchPlan) (seqs : List Sequence) : Prop :=
  ∀ pair ∈ batch plan seqs, Ready blockSize pair.1 pair.2

theorem flatRows_bookkept (blockSize : Nat) {plan : BatchPlan} {seqs : List Sequence}
    (bookkept : ∀ pair ∈ batch plan seqs, RunningOk (some pair.1) pair.2) :
    flatRows plan seqs =
      { tokenIds := (planRows blockSize plan seqs).map (·.token)
        positions := (planRows blockSize plan seqs).map (·.position)
        offsets := spans 0 (batch plan seqs) } := by
  rw [flatRows, foldl_flatRow blockSize _ _ bookkept]
  rfl

theorem flatRows_eq {plan : BatchPlan} {seqs : List Sequence}
    (ready : BatchReady blockSize plan seqs) :
    flatRows plan seqs =
      { tokenIds := (planRows blockSize plan seqs).map (·.token)
        positions := (planRows blockSize plan seqs).map (·.position)
        offsets := spans 0 (batch plan seqs) } :=
  flatRows_bookkept blockSize fun pair member => (ready pair member).bookkept

def pagingColumns (blockSize : Nat) (plan : BatchPlan) (seqs : List Sequence) : PagingRows where
  blockTable := (batch plan seqs).map
    (paddedTable (maxBlocks ((batch plan seqs).map (·.2.blockTable))) ·.2.blockTable)
  contextLen := (batch plan seqs).map (·.2.blockTable.numTokens)
  queryOffset := (batch plan seqs).map fun pair => cachedBefore pair.1 pair.2
  qStart := (spans 0 (batch plan seqs)).map (·.1)
  qLen := (batch plan seqs).map (·.1.nTokens)
  destBlockId := (planRows blockSize plan seqs).map (·.block)
  destWithin := (planRows blockSize plan seqs).map (·.within)

theorem pagingRows_eq {plan : BatchPlan} {seqs : List Sequence}
    (ready : BatchReady blockSize plan seqs) :
    pagingRows blockSize plan seqs (flatRows plan seqs).offsets =
      some (pagingColumns blockSize plan seqs) := by
  rw [flatRows_eq ready, pagingRows, foldlM_pagingRow _ _ _ _ ready]
  rfl

theorem length_spans (start : Nat) (pairs : List (BatchEntry × Sequence)) :
    (spans start pairs).length = pairs.length := by
  induction pairs generalizing start with
  | nil => rfl
  | cons pair rest ih => simp [spans, ih]

theorem row_at (blockSize start : Nat) {pairs : List (BatchEntry × Sequence)} {i : Nat}
    (here : pairs[i]? = some (entry, seq)) :
    ∃ skip, (spans start pairs)[i]? = some (start + skip, start + skip + entry.nTokens) ∧
      ∀ r < entry.nTokens, (pairs.flatMap (entryRows blockSize))[skip + r]? =
        some (row blockSize seq (cachedBefore entry seq + r)) := by
  induction pairs generalizing start i with
  | nil => simp at here
  | cons pair rest ih =>
      obtain ⟨first, other⟩ := pair
      cases i with
      | zero =>
          simp only [List.getElem?_cons_zero, Option.some.injEq, Prod.mk.injEq] at here
          obtain ⟨rfl, rfl⟩ := here
          refine ⟨0, by simp [spans], fun r inside => ?_⟩
          rw [List.flatMap_cons, List.getElem?_append_left (by
            rw [length_entryRows]
            omega)]
          simp [entryRows, inside]
      | succ i =>
          rw [List.getElem?_cons_succ] at here
          obtain ⟨skip, span, rows⟩ := ih (start + first.nTokens) here
          refine ⟨first.nTokens + skip, ?_, fun r inside => ?_⟩
          · rw [spans, List.getElem?_cons_succ, span, Nat.add_assoc]
          · rw [List.flatMap_cons, List.getElem?_append_right (by
              rw [length_entryRows]
              omega), length_entryRows, ← rows r inside]
            congr 1
            omega

variable {ρ : Type} {runner : ModelRunner ρ} {numBlocks : Nat}

theorem batchReady (positive : 0 < blockSize) {s : EngineState BlockAllocator ρ}
    (ok : Consistent runner s) (owns : Ownership numBlocks blockSize s) {flight : InFlight}
    (inFlight : s.inFlight = some flight) : BatchReady blockSize flight.plan flight.seqs := by
  rintro ⟨entry, seq⟩ member
  obtain ⟨running, -, found⟩ := mem_flight_batch ok inFlight member
  have bookkept := ok.running (ok.serving_of_flight inFlight) seq running
  rw [EngineState.plan, inFlight, Option.map_some, Option.getD_some, found] at bookkept
  exact ⟨positive, bookkept, owns.filled seq running⟩

theorem slot_inj (positive : 0 < blockSize) {a : BlockAllocator} {running : List Sequence}
    (owned : Owned numBlocks a running) {seq other : Sequence} (member : seq ∈ running)
    (member' : other ∈ running) (filled : TableFilled blockSize seq.blockTable)
    (filled' : TableFilled blockSize other.blockTable) {p q : Nat}
    (inside : p < seq.blockTable.numTokens) (inside' : q < other.blockTable.numTokens)
    (same : slot blockSize seq.blockTable p = slot blockSize other.blockTable q) :
    seq = other ∧ p = q := by
  have bound := block_lt positive filled inside
  have bound' := block_lt positive filled' inside'
  rw [slot_eq bound, slot_eq bound', Prod.mk.injEq] at same
  have owner := owned.same_owner member member' (List.getElem_mem bound)
    (same.1 ▸ List.getElem_mem bound')
  subst owner
  refine ⟨rfl, ?_⟩
  have quotient := (owned.nodup member).getElem_inj_iff.mp same.1
  rw [← Nat.div_add_mod p blockSize, ← Nat.div_add_mod q blockSize, quotient, same.2]

theorem slots_nodup (positive : 0 < blockSize) {s : EngineState BlockAllocator ρ}
    (ok : Consistent runner s) (owns : Ownership numBlocks blockSize s) {flight : InFlight}
    (inFlight : s.inFlight = some flight) :
    ((planRows blockSize flight.plan flight.seqs).map fun row => (row.block, row.within)).Nodup := by
  have flightOk := ok.flight flight inFlight
  have ready := batchReady positive ok owns inFlight
  have inside {entry : BatchEntry} {seq : Sequence} (here : Ready blockSize entry seq) {p : Nat}
      (member : p ∈ List.range' (cachedBefore entry seq) entry.nTokens) :
      p < seq.blockTable.numTokens := by
    have le := here.nTokens_le
    rw [List.mem_range'_1, cachedBefore] at member
    omega
  have columns : (planRows blockSize flight.plan flight.seqs).map
        (fun row => (row.block, row.within)) =
      (batch flight.plan flight.seqs).flatMap fun pair =>
        (List.range' (cachedBefore pair.1 pair.2) pair.1.nTokens).map
          (slot blockSize pair.2.blockTable) := by
    rw [planRows, List.map_flatMap]
    refine List.flatMap_congr fun pair _ => ?_
    rw [entryRows, List.map_map]
    rfl
  rw [columns, List.nodup_flatMap]
  constructor
  · intro pair member
    obtain ⟨running, -, -⟩ := mem_flight_batch ok inFlight member
    refine List.Nodup.map_on ?_ List.nodup_range'
    intro p here q there same
    exact (slot_inj positive owns.owned running running (owns.filled _ running)
      (owns.filled _ running) (inside (ready _ member) here) (inside (ready _ member) there) same).2
  · have distinct : ((batch flight.plan flight.seqs).map (·.2.seqId)).Nodup := by
      rw [map_seqId_batch (flightOk.seqs ▸ flightOk.present)]
      exact flightOk.entries
    refine (List.pairwise_map.mp distinct).imp_of_mem fun member member' different => ?_
    intro cell here there
    obtain ⟨p, p_mem, rfl⟩ := List.mem_map.mp here
    obtain ⟨q, q_mem, same⟩ := List.mem_map.mp there
    obtain ⟨running, -, -⟩ := mem_flight_batch ok inFlight member
    obtain ⟨running', -, -⟩ := mem_flight_batch ok inFlight member'
    refine different (congrArg _ (slot_inj positive owns.owned running running'
      (owns.filled _ running) (owns.filled _ running') (inside (ready _ member) p_mem)
      (inside (ready _ member') q_mem) same.symm).1)

end LlmServing.Paged
