import LlmServing.Decoder.Modules

/-!
# Piecewise graphs

`_run` of `piecewise_graph.py`: the segments of one bucket with an attention launch between each pair,
against `decoder_hidden` on the index rows. The segments hand tensors to each other through buffers
that hold whatever the last iteration left there. A graph's replay does what its segment does.
-/

namespace LlmServing.Decoder

open Scheduling Runner Lib Kernels

/-- `SegmentBuffers`, `index_rows` by its rows, `cos` and `sin` as one. -/
structure SegmentBuffers (m : Modules) where
  inputIds : TokenRows Token
  positionIds : TokenRows Nat
  destBlockId : TokenRows Nat
  destWithin : TokenRows Nat
  rotary : TokenRows m.Rotary
  residual : TokenRows m.Hidden
  q : TokenRows m.Query
  attn : TokenRows m.Output
  hidden : TokenRows m.Hidden

def copied {α : Type} (bucket : Nat) (values buffer : TokenRows α) : TokenRows α :=
  fun i => if i < bucket then values i else buffer i

variable {m : Modules}

def SegmentBuffers.batch (buffers : SegmentBuffers m) (bucket : Nat) (paging : PagedBatch) :
    DeviceBatch where
  inputIds := (List.range bucket).map buffers.inputIds
  positionIds := (List.range bucket).map buffers.positionIds
  destBlockId := (List.range bucket).map buffers.destBlockId
  destWithin := (List.range bucket).map buffers.destWithin
  paging

def SegmentBuffers.dest (buffers : SegmentBuffers m) (bucket : Nat) : List (Nat × Nat) :=
  (List.range bucket).map fun i => (buffers.destBlockId i, buffers.destWithin i)

/-- `_enter_layer`. -/
def EnterLayer (bucket : Nat) (hidden : TokenRows m.Hidden) (layer : Nat)
    (before after : SegmentBuffers m × m.Pools) : Prop :=
  ∃ q, m.WriteKvAndProjectQ (fun i => m.inputLayernorm layer (hidden i)) before.1.rotary layer
      (before.1.dest bucket) before.2 q after.2 ∧
    after.1 = { before.1 with
      residual := copied bucket hidden before.1.residual
      q := copied bucket q before.1.q }

def Segment (bucket : Nat) : Nat → SegmentBuffers m × m.Pools → SegmentBuffers m × m.Pools → Prop
  | 0, before, after =>
      EnterLayer bucket (fun i => m.embedTokens (before.1.inputIds i)) 0
        ({ before.1 with
          rotary := copied bucket (fun i => m.rotaryEmb (before.1.positionIds i)) before.1.rotary },
          before.2) after
  | layer + 1, before, after =>
      let hidden := fun i =>
        m.afterAttention layer (before.1.residual i) (m.oProj layer (before.1.attn i))
      if layer + 1 < m.layers then EnterLayer bucket hidden (layer + 1) before after
      else after = ({ before.1 with
        hidden := copied bucket (fun i => m.norm (hidden i)) before.1.hidden }, before.2)

inductive Segments (blockSize bucket : Nat) (paging : PagedBatch)
    (before : SegmentBuffers m × m.Pools) : Nat → SegmentBuffers m × m.Pools → Prop where
  | first {state : SegmentBuffers m × m.Pools} :
      Segment bucket 0 before state → Segments blockSize bucket paging before 0 state
  | attended {layer : Nat} {state after : SegmentBuffers m × m.Pools} {attn : TokenRows m.Output} :
      Segments blockSize bucket paging before layer state →
      m.AttendPaged blockSize state.1.q layer paging state.2 attn →
      Segment bucket (layer + 1)
        ({ state.1 with attn := copied bucket attn state.1.attn }, state.2) after →
      Segments blockSize bucket paging before (layer + 1) after

def Run (blockSize bucket : Nat) (paging : PagedBatch)
    (before after : SegmentBuffers m × m.Pools) : Prop :=
  Segments blockSize bucket paging before m.layers after

theorem copied_lt {α : Type} {bucket i : Nat} {values buffer : TokenRows α} (inside : i < bucket) :
    copied bucket values buffer i = values i := if_pos inside

theorem SegmentBuffers.batch_dest (buffers : SegmentBuffers m) (bucket : Nat)
    (paging : PagedBatch) : (buffers.batch bucket paging).dest = buffers.dest bucket := by
  rw [DeviceBatch.dest, batch, List.zip_map']
  rfl

theorem getD_rows {α : Type} {bucket i : Nat} (rows : TokenRows α) (fallback : α)
    (inside : i < bucket) : ((List.range bucket).map rows).getD i fallback = rows i := by
  simp [inside]

section

variable {normed : TokenRows m.Hidden} {rotary : TokenRows m.Rotary}
  {layer blockSize : Nat} {dest : List (Nat × Nat)} {before after : m.Pools}
  {q q' : TokenRows m.Query}

theorem write_congr (normed' : TokenRows m.Hidden) (rotary' : TokenRows m.Rotary)
    (hidden : ∀ i < dest.length, normed' i = normed i)
    (table : ∀ i < dest.length, rotary' i = rotary i)
    (written : m.WriteKvAndProjectQ normed rotary layer dest before q after) :
    m.WriteKvAndProjectQ normed' rotary' layer dest before
      (fun i => m.query layer (rotary' i) (normed' i)) after where
  k := written.k.congr fun i inside => by simp only [Modules.projectQkv, hidden i inside, table i inside]
  v := written.v.congr fun i inside => by simp only [Modules.projectQkv, hidden i inside]
  others := written.others
  q := rfl

theorem attendPaged_congr {paging : PagedBatch} {pools : m.Pools} {attn : TokenRows m.Output}
    (rows : ∀ e < paging.entries, ∀ r < min (paging.qLen e) paging.maxQLen,
      q' (paging.qStart e + r) = q (paging.qStart e + r))
    (attended : m.AttendPaged blockSize q layer paging pools attn) :
    m.AttendPaged blockSize q' layer paging pools attn := by
  intro e inside r row
  rw [attended e inside r row, rows e inside r row]

end

/-! ## Beside the eager loop -/

section

variable (blockSize bucket : Nat) (paging : PagedBatch) (before : SegmentBuffers m × m.Pools)

def eagerLayers : Nat → TokenRows m.Hidden → m.Pools → Prop :=
  m.DecoderLayers (m.PagedAttention blockSize (before.1.dest bucket) paging)
    (m.rotaryRows (before.1.batch bucket paging).positionIds)
    (m.embedRows (before.1.batch bucket paging).inputIds) before.2

/-- The segments have made layer `layer`'s write, and the eager loop is about to call `attend` for that
layer. -/
structure Entered (layer : Nat) (hidden : TokenRows m.Hidden) (pools : m.Pools)
    (q : TokenRows m.Query) (state : SegmentBuffers m × m.Pools) : Prop where
  layers : eagerLayers blockSize bucket paging before layer hidden pools
  written : m.WriteKvAndProjectQ (fun i => m.inputLayernorm layer (hidden i))
    (m.rotaryRows (before.1.batch bucket paging).positionIds) layer (before.1.dest bucket) pools q
    state.2
  residual : ∀ i < bucket, state.1.residual i = hidden i
  q : ∀ i < bucket, state.1.q i = q i
  rotary : ∀ i < bucket,
    state.1.rotary i = m.rotaryRows (before.1.batch bucket paging).positionIds i
  dest : state.1.dest bucket = before.1.dest bucket

end

variable {blockSize bucket : Nat} {paging : PagedBatch} {before state after : SegmentBuffers m × m.Pools}
  {layer : Nat} {hidden hidden' : TokenRows m.Hidden}

theorem length_dest (buffers : SegmentBuffers m) (bucket : Nat) :
    (buffers.dest bucket).length = bucket := by simp [SegmentBuffers.dest]

theorem entered_of_enterLayer (state : SegmentBuffers m × m.Pools)
    (layers : eagerLayers blockSize bucket paging before layer hidden state.2)
    (same : ∀ i < bucket, hidden' i = hidden i)
    (rotary : ∀ i < bucket,
      state.1.rotary i = m.rotaryRows (before.1.batch bucket paging).positionIds i)
    (dest : state.1.dest bucket = before.1.dest bucket)
    (moved : EnterLayer bucket hidden' layer state after) :
    ∃ q, Entered blockSize bucket paging before layer hidden state.2 q after := by
  obtain ⟨q, written, buffers⟩ := moved
  have rows := length_dest state.1 bucket
  have eager := write_congr (fun i => m.inputLayernorm layer (hidden i))
    (m.rotaryRows (before.1.batch bucket paging).positionIds)
    (fun i inside => by rw [same i (rows ▸ inside)])
    (fun i inside => (rotary i (rows ▸ inside)).symm) written
  refine ⟨_, layers, dest ▸ eager, fun i inside => ?_, fun i inside => ?_, fun i inside => ?_, ?_⟩
  · rw [buffers]
    exact (copied_lt inside).trans (same i inside)
  · rw [buffers]
    refine (copied_lt inside).trans ?_
    rw [written.q]
    simp only [Modules.projectQkv, same i inside, rotary i inside]
  · rw [buffers]
    exact rotary i inside
  · rw [buffers]
    exact dest

theorem exists_enterLayer (state : SegmentBuffers m × m.Pools) {pools : m.Pools} {q : TokenRows m.Query}
    {rotary : TokenRows m.Rotary} (same : ∀ i < bucket, hidden' i = hidden i)
    (table : ∀ i < bucket, state.1.rotary i = rotary i)
    (written : m.WriteKvAndProjectQ (fun i => m.inputLayernorm layer (hidden i)) rotary layer
      (state.1.dest bucket) state.2 q pools) :
    ∃ after, EnterLayer bucket hidden' layer state after ∧ after.2 = pools := by
  have rows := length_dest state.1 bucket
  have own := write_congr (fun i => m.inputLayernorm layer (hidden' i)) state.1.rotary
    (fun i inside => by rw [same i (rows ▸ inside)])
    (fun i inside => table i (rows ▸ inside)) written
  exact ⟨(_, pools), ⟨_, own, rfl⟩, rfl⟩

theorem embedRows_batch (i : Nat) (inside : i < bucket) :
    m.embedTokens (before.1.inputIds i) = m.embedRows (before.1.batch bucket paging).inputIds i :=
  congrArg m.embedTokens (getD_rows before.1.inputIds 0 inside).symm

def SegmentBuffers.tables (buffers : SegmentBuffers m) (bucket : Nat) : SegmentBuffers m :=
  { buffers with
    rotary := copied bucket (fun i => m.rotaryEmb (buffers.positionIds i)) buffers.rotary }

theorem tables_batch (i : Nat) (inside : i < bucket) :
    (before.1.tables bucket).rotary i =
      m.rotaryRows (before.1.batch bucket paging).positionIds i := by
  simp only [SegmentBuffers.tables, copied_lt inside]
  exact congrArg m.rotaryEmb (getD_rows before.1.positionIds 0 inside).symm

theorem Entered.attendPaged {pools : m.Pools} {q : TokenRows m.Query} {attn : TokenRows m.Output}
    (entered : Entered blockSize bucket paging before layer hidden pools q state)
    (within : ∀ e < paging.entries, ∀ r < min (paging.qLen e) paging.maxQLen,
      paging.qStart e + r < bucket) :
    m.AttendPaged blockSize state.1.q layer paging state.2 attn ↔
      m.AttendPaged blockSize q layer paging state.2 attn :=
  ⟨attendPaged_congr fun e inside r row => (entered.q _ (within e inside r row)).symm,
    attendPaged_congr fun e inside r row => entered.q _ (within e inside r row)⟩

theorem Entered.afterAttention {pools : m.Pools} {q : TokenRows m.Query}
    (entered : Entered blockSize bucket paging before layer hidden pools q state)
    (attn : TokenRows m.Output) (i : Nat) (inside : i < bucket) :
    m.afterAttention layer (state.1.residual i)
        (m.oProj layer (copied bucket attn state.1.attn i)) =
      m.afterAttention layer (hidden i) (m.oProj layer (attn i)) := by
  rw [entered.residual i inside, copied_lt inside]

theorem Entered.next {pools : m.Pools} {q : TokenRows m.Query} {attn : TokenRows m.Output}
    (entered : Entered blockSize bucket paging before layer hidden pools q state)
    (attended : m.AttendPaged blockSize q layer paging state.2 attn) :
    eagerLayers blockSize bucket paging before (layer + 1)
      (fun i => m.afterAttention layer (hidden i) (m.oProj layer (attn i))) state.2 :=
  .layer entered.layers ⟨q, attn, entered.written, attended, rfl⟩

theorem entered_of_segments (within : ∀ e < paging.entries, ∀ r < min (paging.qLen e) paging.maxQLen,
      paging.qStart e + r < bucket)
    (segments : Segments blockSize bucket paging before layer state) (below : layer < m.layers) :
    ∃ hidden pools q, Entered blockSize bucket paging before layer hidden pools q state := by
  induction segments with
  | first moved =>
      obtain ⟨q, entered⟩ := entered_of_enterLayer (before.1.tables bucket, before.2)
        (.start : eagerLayers blockSize bucket paging before 0 _ _) embedRows_batch tables_batch rfl
        moved
      exact ⟨_, _, q, entered⟩
  | @attended layer state after attn _ attended moved ih =>
      obtain ⟨hidden, pools, q, entered⟩ := ih (by omega)
      simp only [Segment, if_pos below] at moved
      obtain ⟨q', next⟩ := entered_of_enterLayer
        ({ state.1 with attn := copied bucket attn state.1.attn }, state.2)
        (entered.next ((entered.attendPaged within).mp attended)) (entered.afterAttention attn)
        entered.rotary entered.dest moved
      exact ⟨_, _, q', next⟩

theorem hidden_of_run
    (within : ∀ e < paging.entries, ∀ r < min (paging.qLen e) paging.maxQLen,
      paging.qStart e + r < bucket)
    (run : Run blockSize bucket paging before after) :
    ∃ last, eagerLayers blockSize bucket paging before m.layers last after.2 ∧
      ∀ i < bucket, after.1.hidden i = m.norm (last i) := by
  unfold Run at run
  have positive := m.layers_pos
  cases layers : m.layers with
  | zero => omega
  | succ layer =>
      rw [layers] at run
      cases run with
      | @attended _ state _ attn segments attended moved =>
          obtain ⟨hidden, pools, q, entered⟩ := entered_of_segments within segments (by omega)
          simp only [Segment, layers, if_neg (Nat.lt_irrefl _)] at moved
          subst moved
          refine ⟨_, entered.next ((entered.attendPaged within).mp attended), fun i inside => ?_⟩
          simp only [copied_lt inside, entered.residual i inside]

theorem exists_segments (within : ∀ e < paging.entries, ∀ r < min (paging.qLen e) paging.maxQLen,
      paging.qStart e + r < bucket) {pools pools' : m.Pools} {q : TokenRows m.Query}
    (layers : eagerLayers blockSize bucket paging before layer hidden pools)
    (below : layer < m.layers)
    (written : m.WriteKvAndProjectQ (fun i => m.inputLayernorm layer (hidden i))
      (m.rotaryRows (before.1.batch bucket paging).positionIds) layer (before.1.dest bucket) pools q
      pools') :
    ∃ state, Segments blockSize bucket paging before layer state ∧ state.2 = pools' ∧
      ∃ q', Entered blockSize bucket paging before layer hidden pools q' state := by
  unfold eagerLayers at layers
  induction layers generalizing q pools' with
  | start =>
      obtain ⟨state, moved, rfl⟩ := exists_enterLayer (before.1.tables bucket, before.2)
        embedRows_batch tables_batch written
      refine ⟨state, .first moved, rfl, ?_⟩
      exact entered_of_enterLayer (before.1.tables bucket, before.2) .start
        embedRows_batch tables_batch rfl moved
  | @layer layer hidden out pools mid layers attend ih =>
      obtain ⟨q', attn, earlier, attended, rfl⟩ := attend
      obtain ⟨state, segments, rfl, q'', entered⟩ := ih (by omega) earlier
      obtain rfl : q'' = q' := entered.written.q.trans earlier.q.symm
      let attending : SegmentBuffers m := { state.1 with attn := copied bucket attn state.1.attn }
      obtain ⟨after, moved, rfl⟩ := exists_enterLayer (attending, state.2)
        (entered.afterAttention attn) entered.rotary (entered.dest ▸ written)
      have segment : Segment bucket (layer + 1) (attending, state.2) after := by
        simp only [Segment, if_pos below]
        exact moved
      refine ⟨after, .attended segments ((entered.attendPaged within).mpr attended) segment, rfl, ?_⟩
      exact entered_of_enterLayer (attending, state.2) (entered.next attended)
        (entered.afterAttention attn) entered.rotary entered.dest moved

theorem exists_run (within : ∀ e < paging.entries, ∀ r < min (paging.qLen e) paging.maxQLen,
      paging.qStart e + r < bucket) {last : TokenRows m.Hidden} {pools : m.Pools}
    (layers : eagerLayers blockSize bucket paging before m.layers last pools) :
    ∃ buffers, Run blockSize bucket paging before (buffers, pools) ∧
      ∀ i < bucket, buffers.hidden i = m.norm (last i) := by
  obtain ⟨layer, final⟩ := Nat.exists_eq_succ_of_ne_zero m.layers_pos.ne'
  unfold eagerLayers at layers
  rw [final] at layers
  cases layers with
  | @layer _ hidden out mid _ layers attend =>
      obtain ⟨q, attn, written, attended, rfl⟩ := attend
      obtain ⟨state, segments, rfl, q', entered⟩ :=
        exists_segments within layers (final ▸ Nat.lt_succ_self layer) written
      obtain rfl : q' = q := entered.written.q.trans written.q.symm
      let attending : SegmentBuffers m := { state.1 with attn := copied bucket attn state.1.attn }
      let normed : TokenRows m.Hidden := fun i => m.norm
        (m.afterAttention layer (attending.residual i) (m.oProj layer (attending.attn i)))
      have segment : Segment bucket (layer + 1) (attending, state.2)
          ({ attending with hidden := copied bucket normed attending.hidden }, state.2) := by
        simp only [Segment, final, if_neg (Nat.lt_irrefl _)]
        rfl
      refine ⟨{ attending with hidden := copied bucket normed attending.hidden }, ?_,
        fun i inside => ?_⟩
      · rw [Run, final]
        exact .attended segments ((entered.attendPaged within).mpr attended) segment
      · simp only [copied_lt inside]
        exact congrArg m.norm (entered.afterAttention attn i inside)

/-- Whatever the buffers hold from earlier iterations, a replay computes what `decoder_hidden` computes
on the bucket's index rows: the same hidden rows and the same pools. -/
theorem segments_decoder (m : Modules) (blockSize bucket : Nat) (paging : PagedBatch)
    (within : ∀ e < paging.entries, ∀ r < min (paging.qLen e) paging.maxQLen,
      paging.qStart e + r < bucket)
    (before : SegmentBuffers m × m.Pools) (rows : TokenRows m.Hidden) (pools : m.Pools) :
    let input := before.1.batch bucket paging
    (∃ buffers, Run blockSize bucket paging before (buffers, pools) ∧
        ∀ i < bucket, buffers.hidden i = rows i) ↔
      ∃ hidden, m.DecoderHidden (m.PagedAttention blockSize input.dest paging) input.inputIds
          input.positionIds before.2 hidden pools ∧ ∀ i < bucket, hidden i = rows i := by
  intro input
  have dest : input.dest = before.1.dest bucket := before.1.batch_dest bucket paging
  rw [dest]
  constructor
  · rintro ⟨buffers, run, same⟩
    obtain ⟨last, layers, computed⟩ := hidden_of_run within run
    exact ⟨_, ⟨last, layers, rfl⟩, fun i inside => (computed i inside).symm.trans (same i inside)⟩
  · rintro ⟨_, ⟨last, layers, rfl⟩, same⟩
    obtain ⟨buffers, run, computed⟩ := exists_run within layers
    exact ⟨buffers, run, fun i inside => (computed i inside).trans (same i inside)⟩

def samplePaging : PagedBatch where
  entries := 1
  blockTable _ _ := 3
  contextLen _ := 2
  queryOffset _ := 1
  qStart _ := 0
  qLen _ := 1
  maxQLen := 1

def sampleBuffers : SegmentBuffers sampleModules where
  inputIds i := i
  positionIds _ := 1
  destBlockId i := 3 + i
  destWithin _ := 1
  rotary _ := (7 : Nat)
  residual _ := (7 : Nat)
  q _ := (7 : Nat)
  attn _ := (7 : Nat)
  hidden _ := (7 : Nat)

theorem samplePaging_rowsApart : RowsApart samplePaging := by
  intro e inside r row e' inside' r' row' same
  simp only [samplePaging] at inside inside' row row' same
  omega

theorem samplePaging_within : ∀ e < samplePaging.entries,
    ∀ r < min (samplePaging.qLen e) samplePaging.maxQLen, samplePaging.qStart e + r < 2 := by
  intro e _ r row
  simp only [samplePaging] at row ⊢
  omega

def samplePools : sampleModules.Pools := ⟨fun _ _ => (5 : Nat), fun _ _ => (5 : Nat)⟩

theorem segments_decoder_sample :
    ∃ buffers pools, Run 2 2 samplePaging (sampleBuffers, samplePools) (buffers, pools) ∧
      ∃ hidden, sampleModules.DecoderHidden
          (sampleModules.PagedAttention 2 (sampleBuffers.batch 2 samplePaging).dest samplePaging)
          [0, 1] [1, 1] samplePools hidden pools ∧
        ∀ i < 2, buffers.hidden i = hidden i := by
  obtain ⟨last, pools, layers⟩ := Modules.exists_decoderLayers samplePaging_rowsApart
    (sampleBuffers.batch 2 samplePaging).dest (sampleModules.rotaryRows [1, 1])
    (sampleModules.embedRows [0, 1]) samplePools sampleModules.layers
  have decoded : sampleModules.DecoderHidden
      (sampleModules.PagedAttention 2 (sampleBuffers.batch 2 samplePaging).dest samplePaging)
      [0, 1] [1, 1] samplePools (fun i => sampleModules.norm (last i)) pools := ⟨last, layers, rfl⟩
  obtain ⟨buffers, run, same⟩ := (segments_decoder sampleModules 2 2 samplePaging samplePaging_within
    (sampleBuffers, samplePools) (fun i => sampleModules.norm (last i)) pools).mpr
    ⟨_, decoded, fun _ _ => rfl⟩
  exact ⟨buffers, pools, run, _, decoded, same⟩

end LlmServing.Decoder
