import LlmServing.Decoder.Inputs

/-!
# One iteration on the pools

Through the slots of each sequence's own table, paged attention over the plan's rows is what `Attends`
asks for, and it leaves every other slot but the scratch block's alone.
-/

namespace LlmServing.Decoder

open Scheduling Runner Engine Lib Kernels
open Paged (slot spans planRows BatchReady)

def rowSlots (blockSize : Nat) (plan : BatchPlan) (seqs : List Sequence) : List (Nat × Nat) :=
  (planRows blockSize plan seqs).map fun row => (row.block, row.within)

structure Apart (blockSize scratch : Nat) (plan : BatchPlan) (seqs : List Sequence) : Prop where
  distinct : (rowSlots blockSize plan seqs).Nodup
  old {entry : BatchEntry} {seq : Sequence} : (entry, seq) ∈ batch plan seqs →
    ∀ position < cachedBefore entry seq,
      slot blockSize seq.blockTable position ∉ rowSlots blockSize plan seqs
  real {entry : BatchEntry} {seq : Sequence} : (entry, seq) ∈ batch plan seqs →
    ∀ position < seq.blockTable.numTokens, (slot blockSize seq.blockTable position).1 ≠ scratch

def poolCells {m : Modules} (blockSize : Nat) (seq : Sequence) (pools : m.Pools)
    (layer position : Nat) : m.Key × m.Value :=
  pools.cell layer (slot blockSize seq.blockTable position)

variable {m : Modules} {blockSize scratch layer : Nat} {plan : BatchPlan} {seqs : List Sequence}
  {input : DeviceBatch} {normed out : TokenRows m.Hidden} {rotary : TokenRows m.Rotary}
  {q : TokenRows m.Query} {before after : m.Pools} {entry : BatchEntry} {seq : Sequence}
  {i position : Nat}

theorem Feeds.notMem_dest (feeds : Feeds blockSize scratch plan seqs input) {written : Nat × Nat}
    (unplanned : written ∉ rowSlots blockSize plan seqs) (real : written.1 ≠ scratch) :
    written ∉ input.dest := by
  intro member
  obtain ⟨i, here⟩ := List.mem_iff_getElem?.mp member
  rcases feeds.slots here with planned | padding
  · exact unplanned (List.mem_of_getElem? planned)
  · exact real (congrArg Prod.fst padding)

theorem RowAt.inside (here : RowAt (batch plan seqs) i entry seq position)
    (ready : BatchReady blockSize plan seqs) : position < seq.blockTable.numTokens := by
  have le := (ready _ here.mem).nTokens_le
  have new := here.new
  rw [cachedBefore] at new
  dsimp only at le
  omega

theorem Feeds.only (feeds : Feeds blockSize scratch plan seqs input)
    (apart : Apart blockSize scratch plan seqs) (ready : BatchReady blockSize plan seqs)
    (here : RowAt (batch plan seqs) i entry seq position) {j : Nat}
    (same : input.dest[j]? = some (slot blockSize seq.blockTable position)) : j = i := by
  rcases feeds.slots same with planned | padding
  · have own : (rowSlots blockSize plan seqs)[i]? =
        some (slot blockSize seq.blockTable position) := by
      have at_row := here.row blockSize
      rw [← planRows] at at_row
      rw [rowSlots, List.getElem?_map, at_row]
      rfl
    have inside := (List.getElem?_eq_some_iff.mp own).1
    exact ((List.getElem?_inj inside apart.distinct).mp (own.trans planned.symm)).symm
  · exact absurd (congrArg Prod.fst padding) (apart.real here.mem position (here.inside ready))

theorem cell_of_row (feeds : Feeds blockSize scratch plan seqs input)
    (apart : Apart blockSize scratch plan seqs) (ready : BatchReady blockSize plan seqs)
    (written : m.WriteKvAndProjectQ normed rotary layer input.dest before q after)
    (here : RowAt (batch plan seqs) i entry seq position) :
    poolCells blockSize seq after layer position = m.keyValue layer (rotary i) (normed i) := by
  have dest := (feeds.row here).2.2
  have only (j : Nat) := @Feeds.only _ _ _ _ _ _ _ _ _ feeds apart ready here j
  rw [poolCells, Modules.Pools.cell, written.k.of_only dest only, written.v.of_only dest only]
  rfl

theorem cell_unwritten (written : m.WriteKvAndProjectQ normed rotary layer input.dest before q after)
    {untouched : Nat × Nat} (absent : untouched ∉ input.dest) (other : Nat) :
    after.cell other untouched = before.cell other untouched := by
  by_cases same : other = layer
  · rw [same, Modules.Pools.cell, (written.k untouched).1 absent, (written.v untouched).1 absent]
    rfl
  · obtain ⟨k, v⟩ := written.others other same
    rw [Modules.Pools.cell, k, v]
    rfl

theorem attends_paged (feeds : Feeds blockSize scratch plan seqs input)
    (apart : Apart blockSize scratch plan seqs) (ready : BatchReady blockSize plan seqs)
    (member : (entry, seq) ∈ batch plan seqs)
    (attended : m.PagedAttention blockSize input.dest input.paging layer normed rotary before out
      after) :
    Attends (batch plan seqs) entry seq (poolCells blockSize seq) layer normed rotary before out
      after := by
  obtain ⟨q, attn, written, attention, rfl⟩ := attended
  refine ⟨fun here => cell_of_row feeds apart ready written here, fun position cached => ?_,
    fun other different position _ => ?_, fun {i position} here => ?_⟩
  · have le := Nat.sub_le seq.blockTable.numTokens entry.nTokens
    refine cell_unwritten written (feeds.notMem_dest (apart.old member position cached) ?_) layer
    exact apart.real member position (cached.trans_le le)
  · obtain ⟨k, v⟩ := written.others other different
    rw [poolCells, Modules.Pools.cell, k, v]
    rfl
  · have inside := here.inside ready
    have readyHere := ready _ member
    obtain ⟨e, start, r, found, span, row, rfl, rfl⟩ := here
    have pages := feeds.entry found span
    have rows : r < min (input.paging.qLen e) input.paging.maxQLen := by
      rw [pages.qLen]
      exact lt_min row (row.trans_le pages.maxQLen)
    have attn_row := attention e pages.inside r rows
    have visible : min (input.paging.contextLen e) (input.paging.queryOffset e + r + 1) =
        cachedBefore entry seq + r + 1 := by
      rw [pages.contextLen, pages.queryOffset]
      exact Nat.min_eq_right inside
    rw [pages.qStart, visible] at attn_row
    have cells : (List.range (cachedBefore entry seq + r + 1)).map (fun p => after.cell layer
        (input.paging.blockTable e (p / blockSize), p % blockSize)) =
        (List.range (cachedBefore entry seq + r + 1)).map (poolCells blockSize seq after layer) := by
      refine List.map_congr_left fun p member => ?_
      have seen : p < seq.blockTable.numTokens :=
        (Nat.lt_succ_iff.mp (List.mem_range.mp member)).trans_lt inside
      have bound := Paged.block_lt readyHere.positive readyHere.filled seen
      rw [pages.blocks _ bound]
      rfl
    rw [cells, written.q] at attn_row
    rw [attn_row]
    rfl

theorem cell_untouched {positionEmbeddings : TokenRows m.Rotary} {start hidden : TokenRows m.Hidden}
    {done : Nat} (layers : m.DecoderLayers (m.PagedAttention blockSize input.dest input.paging)
      positionEmbeddings start before done hidden after)
    {untouched : Nat × Nat} (absent : untouched ∉ input.dest) (layer : Nat) :
    after.cell layer untouched = before.cell layer untouched := by
  induction layers with
  | start => rfl
  | layer _ attended ih =>
      obtain ⟨q, attn, written, -, -⟩ := attended
      exact (cell_unwritten written absent layer).trans ih

def Cached (blockSize : Nat) (pools : m.Pools) (seq : Sequence) (n : Nat) : Prop :=
  ∀ layer < m.layers, ∀ position < n,
    poolCells blockSize seq pools layer position = m.cellAt seq.tokens layer position

/-- One iteration's rows come to what each sequence's tokens come to alone, and its sequences end with
all their cells in the pools. -/
theorem decoderHidden_rows (feeds : Feeds blockSize scratch plan seqs input)
    (apart : Apart blockSize scratch plan seqs) (ready : BatchReady blockSize plan seqs)
    (cached : ∀ pair ∈ batch plan seqs, Cached blockSize before pair.2 (cachedBefore pair.1 pair.2))
    {hidden : TokenRows m.Hidden}
    (computed : m.DecoderHidden (m.PagedAttention blockSize input.dest input.paging) input.inputIds
      input.positionIds before hidden after) :
    (∀ i entry seq position, RowAt (batch plan seqs) i entry seq position →
      hidden i = m.norm (m.hiddenAt seq.tokens m.layers position)) ∧
    (∀ pair ∈ batch plan seqs, Cached blockSize after pair.2 pair.2.blockTable.numTokens) ∧
    ∀ untouched ∉ input.dest, ∀ layer, after.cell layer untouched = before.cell layer untouched := by
  have each {entry : BatchEntry} {seq : Sequence} (member : (entry, seq) ∈ batch plan seqs) :=
    decoderHidden_computed member (fun _ _ => True)
      (fun _ _ _ _ _ _ _ attended => ⟨attends_paged feeds apart ready member attended, trivial⟩)
      (cached _ member) (fun i position here => ⟨(feeds.row here).1, (feeds.row here).2.1⟩) trivial
      computed
  obtain ⟨last, layers, -⟩ := computed
  refine ⟨fun i entry seq position here => (each here.mem).1 i position here, ?_,
    fun untouched absent layer => cell_untouched layers absent layer⟩
  rintro ⟨entry, seq⟩ member layer below position inside
  have le := (ready _ member).nTokens_le
  refine (each member).2.1 layer below position ?_
  rw [cachedBefore, Nat.sub_add_cancel le]
  exact inside

end LlmServing.Decoder
