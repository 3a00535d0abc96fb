import LlmServing.Contiguous.Reservation
import LlmServing.Decoder.Emit
import LlmServing.Engine.Memory

/-!
# The engine on the contiguous decoder

`contiguous_attention` on values: one launch for each entry, over a buffer of its own sequence's keys
and values that every forward pass extends in place.
-/

namespace LlmServing.Decoder

open Scheduling Runner Engine Lib
open ContiguousAllocator (reservation)
open Paged (spans)

structure CellBuffer (m : Modules) where
  capacity : Nat
  k : Nat → m.Key
  v : Nat → m.Value
  filled : Nat

abbrev CellBuffers (m : Modules) := Nat → SeqId → Option (CellBuffer m)

def blit {α : Type} (filled start stop : Nat) (values : TokenRows α) (buffer : Nat → α) : Nat → α :=
  fun p => if filled ≤ p ∧ p < filled + (stop - start) then values (start + (p - filled)) else buffer p

namespace CellBuffer

variable {m : Modules}

def cell (buf : CellBuffer m) (position : Nat) : m.Key × m.Value := (buf.k position, buf.v position)

def empty (memory : (Nat → m.Key) × (Nat → m.Value)) (seq : Sequence) : CellBuffer m where
  capacity := seq.promptTokens.length + seq.samplingParams.maxTokens
  k := memory.1
  v := memory.2
  filled := 0

/-- The write of rows `start` to `stop` behind `filled`. One that passes the end is `none`. -/
def write (buf : CellBuffer m) (k : TokenRows m.Key) (v : TokenRows m.Value) (start stop : Nat) :
    Option (CellBuffer m) :=
  if buf.filled + (stop - start) ≤ buf.capacity then
    some { buf with
      k := blit buf.filled start stop k buf.k
      v := blit buf.filled start stop v buf.v
      filled := buf.filled + (stop - start) }
  else none

end CellBuffer

variable {m : Modules}

section

variable (q : TokenRows m.Query) (k : TokenRows m.Key) (v : TokenRows m.Value)
  (memory : SeqId → (Nat → m.Key) × (Nat → m.Value))

/-- One round of the loop, on one layer's cache and the rows of `out`. -/
def attendCells (st : (SeqId → Option (CellBuffer m)) × TokenRows m.Output) :
    (BatchEntry × Sequence) × Nat × Nat →
      Option ((SeqId → Option (CellBuffer m)) × TokenRows m.Output)
  | ((entry, seq), start, stop) =>
      let buf := (st.1 entry.seqId).getD (.empty (memory entry.seqId) seq)
      (buf.write k v start stop).map fun buf =>
        let queryOffset := buf.filled - (stop - start)
        (Function.update st.1 entry.seqId (some buf), fun i =>
          if start ≤ i ∧ i < stop then
            m.attention (q i)
              ((List.range (min buf.filled (queryOffset + (i - start) + 1))).map buf.cell)
          else st.2 i)

end

/-- `contiguous_attention`. What `torch.empty` returns may hold anything. -/
def ContiguousAttention (plan : BatchPlan) (seqs : List Sequence) (offsets : List (Nat × Nat)) :
    m.Attend (CellBuffers m) :=
  fun layer normed positionEmbeddings before out after =>
    let qkv := m.projectQkv normed positionEmbeddings layer
    ∃ memory rows cache attn,
      ((batch plan seqs).zip offsets).foldlM (attendCells qkv.1 qkv.2.1 qkv.2.2 memory)
        (before layer, rows) = some (cache, attn) ∧
      after = Function.update before layer cache ∧ out = fun i => m.oProj layer (attn i)

/-- `forward_fused` without a pool. A forward pass that raises may leave anything in the buffers of its
own batch. -/
def contiguousDecoder (m : Modules) (softmax : Softmax m.vocab) (sort : Descending m.vocab)
    (eosTokenIds : List Token) : ModelRunner (CellBuffers m) where
  eosTokenIds
  forward plan seqs before outcome after :=
    match outcome with
    | .results results =>
        let flat := flatRows plan seqs
        ∃ hidden, m.DecoderHidden (ContiguousAttention plan seqs flat.offsets) flat.tokenIds
            flat.positions before hidden after ∧
          EmitOwed m softmax sort eosTokenIds hidden plan seqs flat.offsets results
    | .failed | .deviceLost => ∀ layer, ∀ id ∉ plan.ids, after layer id = before layer id
  free id buffers layer := Function.update (buffers layer) id none
  emits {plan seqs before after results} computed := by
    obtain ⟨hidden, -, emitted⟩ := computed
    exact EmitOwed.emits emitted

/-! ## One launch for each entry -/

section

variable {q : TokenRows m.Query} {k : TokenRows m.Key} {v : TokenRows m.Value}
  {memory : SeqId → (Nat → m.Key) × (Nat → m.Value)} {pairs : List (BatchEntry × Sequence)}
  {start : Nat} {st after : (SeqId → Option (CellBuffer m)) × TokenRows m.Output}

theorem attendCells_others
    (folded : (pairs.zip (spans start pairs)).foldlM (attendCells q k v memory) st = some after) :
    (∀ id ∉ pairs.map (·.1.seqId), after.1 id = st.1 id) ∧ ∀ i < start, after.2 i = st.2 i := by
  induction pairs generalizing start st with
  | nil =>
      obtain rfl := Option.some.inj folded
      exact ⟨fun _ _ => rfl, fun _ _ => rfl⟩
  | cons pair rest ih =>
      obtain ⟨entry, seq⟩ := pair
      rw [spans, List.zip_cons_cons, List.foldlM_cons, Option.bind_eq_bind,
        Option.bind_eq_some_iff] at folded
      obtain ⟨middle, round, later⟩ := folded
      obtain ⟨others, rows⟩ := ih later
      obtain ⟨buf, -, rfl⟩ := Option.map_eq_some_iff.mp round
      refine ⟨fun id absent => ?_, fun i before => ?_⟩
      · simp only [List.map_cons, List.mem_cons, not_or] at absent
        exact (others id absent.2).trans (Function.update_of_ne absent.1 _ _)
      · rw [rows i (by omega)]
        exact if_neg fun inside => Nat.not_le.mpr before inside.1

structure Launched (q : TokenRows m.Query) (k : TokenRows m.Key) (v : TokenRows m.Value)
    (old : CellBuffer m) (start n : Nat) (after : Option (CellBuffer m))
    (attn : TokenRows m.Output) : Prop where
  exists_buffer : ∃ buf, old.write k v start (start + n) = some buf ∧ after = some buf ∧
    ∀ r < n, attn (start + r) = m.attention (q (start + r))
      ((List.range (min buf.filled (buf.filled - n + r + 1))).map buf.cell)

theorem launched (distinct : (pairs.map (·.1.seqId)).Nodup)
    (folded : (pairs.zip (spans start pairs)).foldlM (attendCells q k v memory) st = some after)
    {e first : Nat} {entry : BatchEntry} {seq : Sequence} (here : pairs[e]? = some (entry, seq))
    (span : (spans start pairs)[e]? = some (first, first + entry.nTokens)) :
    Launched q k v ((st.1 entry.seqId).getD (.empty (memory entry.seqId) seq)) first entry.nTokens
      (after.1 entry.seqId) after.2 := by
  induction pairs generalizing start st e with
  | nil => cases here
  | cons pair rest ih =>
      obtain ⟨own, other⟩ := pair
      rw [List.map_cons, List.nodup_cons] at distinct
      rw [spans, List.zip_cons_cons, List.foldlM_cons, Option.bind_eq_bind,
        Option.bind_eq_some_iff] at folded
      obtain ⟨middle, round, later⟩ := folded
      obtain ⟨buf, wrote, rfl⟩ := Option.map_eq_some_iff.mp round
      cases e with
      | zero =>
          simp only [List.getElem?_cons_zero, Option.some.injEq, Prod.mk.injEq] at here span
          obtain ⟨rfl, rfl⟩ := here
          obtain ⟨rfl, -⟩ := span
          obtain ⟨others, rows⟩ := attendCells_others later
          refine ⟨buf, wrote, (others _ distinct.1).trans (Function.update_self _ _ _), fun r inside => ?_⟩
          rw [rows _ (by omega)]
          simp [inside]
      | succ e =>
          rw [List.getElem?_cons_succ] at here
          rw [spans, List.getElem?_cons_succ] at span
          have apart : entry.seqId ≠ own.seqId := fun same => distinct.1
            (same ▸ List.mem_map.mpr ⟨_, List.mem_of_getElem? here, rfl⟩)
          have launch := ih distinct.2 later here span
          dsimp only at launch
          rwa [Function.update_of_ne apart] at launch

theorem exists_attendCells (distinct : (pairs.map (·.1.seqId)).Nodup)
    (room : ∀ pair ∈ pairs,
      ((st.1 pair.1.seqId).getD (.empty (memory pair.1.seqId) pair.2)).filled + pair.1.nTokens ≤
        ((st.1 pair.1.seqId).getD (.empty (memory pair.1.seqId) pair.2)).capacity) :
    ∃ after, (pairs.zip (spans start pairs)).foldlM (attendCells q k v memory) st = some after := by
  induction pairs generalizing start st with
  | nil => exact ⟨st, rfl⟩
  | cons pair rest ih =>
      obtain ⟨entry, seq⟩ := pair
      rw [List.map_cons, List.nodup_cons] at distinct
      rw [List.forall_mem_cons] at room
      rw [spans, List.zip_cons_cons, List.foldlM_cons]
      have fits := room.1
      have wrote : ∃ buf, ((st.1 entry.seqId).getD (.empty (memory entry.seqId) seq)).write k v start
          (start + entry.nTokens) = some buf := by
        unfold CellBuffer.write
        rw [if_pos (by simpa using fits)]
        exact ⟨_, rfl⟩
      obtain ⟨buf, wrote⟩ := wrote
      simp only [attendCells, wrote, Option.map_some, Option.bind_eq_bind, Option.bind_some]
      refine ih distinct.2 fun other member => ?_
      have apart : other.1.seqId ≠ entry.seqId := fun same =>
        distinct.1 (same ▸ List.mem_map_of_mem member)
      have kept : Function.update st.1 entry.seqId (some buf) other.1.seqId = st.1 other.1.seqId :=
        Function.update_of_ne apart _ _
      dsimp only
      rw [kept]
      exact room.2 other member

end

def readCell (m : Modules) (buf : Option (CellBuffer m)) (position : Nat) : m.Key × m.Value :=
  match buf with
  | none => m.cellAt [] 0 position
  | some buf => buf.cell position

def bufferCells (m : Modules) (seq : Sequence) (buffers : CellBuffers m) (layer position : Nat) :
    m.Key × m.Value :=
  readCell m (buffers layer seq.seqId) position

def RoomFor {m : Modules} (buf : Option (CellBuffer m)) (seq : Sequence) (n : Nat) : Prop :=
  match buf with
  | none => n = 0
  | some buf => buf.capacity = reservation seq ∧ buf.filled = n

variable {plan : BatchPlan} {seqs : List Sequence} {entry : BatchEntry} {seq : Sequence}
  {layer : Nat} {normed out : TokenRows m.Hidden} {rotary : TokenRows m.Rotary}
  {before after : CellBuffers m}

theorem RoomFor.getD {buf : Option (CellBuffer m)} {n : Nat} (sized : RoomFor buf seq n)
    (memory : (Nat → m.Key) × (Nat → m.Value)) :
    (buf.getD (.empty memory seq)).capacity = reservation seq ∧
      (buf.getD (.empty memory seq)).filled = n ∧
      ∀ position < n, (buf.getD (.empty memory seq)).cell position = readCell m buf position := by
  cases buf with
  | none =>
      obtain rfl : n = 0 := sized
      exact ⟨rfl, rfl, fun _ inside => absurd inside (Nat.not_lt_zero _)⟩
  | some buf => exact ⟨sized.1, sized.2, fun _ _ => rfl⟩

theorem write_some {old buf : CellBuffer m} {k : TokenRows m.Key} {v : TokenRows m.Value}
    {start n : Nat} (wrote : old.write k v start (start + n) = some buf) :
    buf.capacity = old.capacity ∧ buf.filled = old.filled + n ∧
      (∀ position < old.filled, buf.cell position = old.cell position) ∧
      ∀ r < n, buf.cell (old.filled + r) = (k (start + r), v (start + r)) := by
  unfold CellBuffer.write at wrote
  split at wrote
  · obtain rfl := Option.some.inj wrote
    refine ⟨rfl, by simp, fun position before => ?_, fun r inside => ?_⟩
    · simp [CellBuffer.cell, blit, Nat.not_le.mpr before]
    · simp [CellBuffer.cell, blit, inside]
  · cases wrote

structure Appended (old : Option (CellBuffer m)) (entry : BatchEntry) (seq : Sequence)
    (layer : Nat) (normed : TokenRows m.Hidden) (rotary : TokenRows m.Rotary) (first : Nat)
    (attn : TokenRows m.Output) (buf : CellBuffer m) : Prop where
  capacity : buf.capacity = reservation seq
  filled : buf.filled = cachedBefore entry seq + entry.nTokens
  old : ∀ position < cachedBefore entry seq, buf.cell position = readCell m old position
  new : ∀ r < entry.nTokens, buf.cell (cachedBefore entry seq + r) =
    m.keyValue layer (rotary (first + r)) (normed (first + r))
  rows : ∀ r < entry.nTokens, attn (first + r) =
    m.attention (m.query layer (rotary (first + r)) (normed (first + r)))
      ((List.range (cachedBefore entry seq + r + 1)).map buf.cell)

theorem Launched.appended {old after : Option (CellBuffer m)} {attn : TokenRows m.Output}
    {memory : (Nat → m.Key) × (Nat → m.Value)} {first : Nat}
    (sized : RoomFor old seq (cachedBefore entry seq))
    (launch : Launched (m.projectQkv normed rotary layer).1 (m.projectQkv normed rotary layer).2.1
      (m.projectQkv normed rotary layer).2.2 (old.getD (.empty memory seq)) first entry.nTokens after
      attn) :
    ∃ buf, after = some buf ∧ Appended old entry seq layer normed rotary first attn buf := by
  obtain ⟨buf, wrote, kept, rows⟩ := launch.exists_buffer
  obtain ⟨capacity, filled, cells⟩ := sized.getD memory
  obtain ⟨capacity', filled', old', new⟩ := write_some wrote
  rw [filled] at filled' old' new
  refine ⟨buf, kept, capacity'.trans capacity, filled', fun position inside => ?_, new,
    fun r inside => ?_⟩
  · exact (old' position inside).trans (cells position inside)
  · have visible : min buf.filled (buf.filled - entry.nTokens + r + 1) =
        cachedBefore entry seq + r + 1 := by omega
    rw [rows r inside, visible]
    rfl

theorem attends_contiguous (ids : ∀ pair ∈ batch plan seqs, pair.1.seqId = pair.2.seqId)
    (distinct : ((batch plan seqs).map (·.1.seqId)).Nodup) (member : (entry, seq) ∈ batch plan seqs)
    (sized : RoomFor (before layer seq.seqId) seq (cachedBefore entry seq))
    (attended : ContiguousAttention plan seqs (spans 0 (batch plan seqs)) layer normed rotary before
      out after) :
    Attends (batch plan seqs) entry seq (bufferCells m seq) layer normed rotary before out after ∧
      RoomFor (after layer seq.seqId) seq (cachedBefore entry seq + entry.nTokens) ∧
      ∀ other ≠ layer, after other = before other := by
  obtain ⟨memory, rows, cache, attn, folded, rfl, rfl⟩ := attended
  have others (other : Nat) (different : other ≠ layer) :
      Function.update before layer cache other = before other := Function.update_of_ne different _ _
  have appended {e first : Nat} (here : (batch plan seqs)[e]? = some (entry, seq))
      (span : (spans 0 (batch plan seqs))[e]? = some (first, first + entry.nTokens)) :
      ∃ buf, cache seq.seqId = some buf ∧
        Appended (before layer seq.seqId) entry seq layer normed rotary first attn buf := by
    have launch := launched distinct folded here span
    rw [show entry.seqId = seq.seqId from ids _ member] at launch
    exact launch.appended sized
  obtain ⟨e, here⟩ := List.mem_iff_getElem?.mp member
  obtain ⟨skip, span, -⟩ := Paged.row_at 1 0 here
  obtain ⟨buf, kept, whole⟩ := appended here span
  have cells : bufferCells m seq (Function.update before layer cache) layer = buf.cell := by
    funext position
    rw [bufferCells, Function.update_self, kept]
    rfl
  refine ⟨⟨fun {i position} at_row => ?_, fun position old => ?_, fun other different position _ => ?_,
    fun {i position} at_row => ?_⟩, ?_, others⟩
  · obtain ⟨e, first, r, here, span, inside, rfl, rfl⟩ := at_row
    obtain ⟨buf', kept', own⟩ := appended here span
    obtain rfl := Option.some.inj (kept.symm.trans kept')
    rw [cells]
    exact own.new r inside
  · rw [cells]
    exact whole.old position old
  · rw [bufferCells, others other different]
    rfl
  · obtain ⟨e, first, r, here, span, inside, rfl, rfl⟩ := at_row
    obtain ⟨buf', kept', own⟩ := appended here span
    obtain rfl := Option.some.inj (kept.symm.trans kept')
    rw [cells]
    exact congrArg (m.oProj layer) (own.rows r inside)
  · rw [Function.update_self, kept]
    exact ⟨whole.capacity, whole.filled⟩

/-! ## One forward pass -/

structure Buffered (m : Modules) (buffers : Nat → Option (CellBuffer m)) (seq : Sequence) (n : Nat) :
    Prop where
  sized : ∀ layer < m.layers, RoomFor (buffers layer) seq n
  cells : ∀ layer < m.layers, ∀ position < n,
    readCell m (buffers layer) position = m.cellAt seq.tokens layer position

theorem batch_ids (plan : BatchPlan) (seqs : List Sequence) :
    ∀ pair ∈ batch plan seqs, pair.1.seqId = pair.2.seqId := by
  rintro ⟨entry, seq⟩ member
  exact (lookup_some (mem_batch.mp member).2).2.symm

theorem map_seqId_entries (ok : BatchOk plan seqs) :
    (batch plan seqs).map (·.1.seqId) = plan.ids := by
  rw [← map_seqId_batch ok.present]
  exact List.map_congr_left (batch_ids plan seqs)

theorem contiguous_rows (ok : BatchOk plan seqs) (member : (entry, seq) ∈ batch plan seqs)
    (held : Buffered m (before · seq.seqId) seq (cachedBefore entry seq)) {hidden : TokenRows m.Hidden}
    (computed : m.DecoderHidden (ContiguousAttention plan seqs (flatRows plan seqs).offsets)
      (flatRows plan seqs).tokenIds (flatRows plan seqs).positions before hidden after) :
    (∀ i position, RowAt (batch plan seqs) i entry seq position →
      hidden i = m.norm (m.hiddenAt seq.tokens m.layers position)) ∧
    Buffered m (after · seq.seqId) seq seq.blockTable.numTokens := by
  rw [Paged.flatRows_bookkept 1 ok.bookkept] at computed
  let good (layer : Nat) (state : CellBuffers m) : Prop :=
    (∀ later, layer ≤ later → state later = before later) ∧
      ∀ done < layer, RoomFor (state done seq.seqId) seq (cachedBefore entry seq + entry.nTokens)
  have cached : ∀ layer < m.layers, ∀ position < cachedBefore entry seq,
      bufferCells m seq before layer position = m.cellAt seq.tokens layer position := held.cells
  have extends_layer : ∀ layer < m.layers, ∀ normed state out after, good layer state →
      ContiguousAttention plan seqs (spans 0 (batch plan seqs)) layer normed
        (m.rotaryRows ((Paged.planRows 1 plan seqs).map (·.position))) state out after →
      Attends (batch plan seqs) entry seq (bufferCells m seq) layer normed
        (m.rotaryRows ((Paged.planRows 1 plan seqs).map (·.position))) state out after ∧
        good (layer + 1) after := by
    intro layer below normed state out after kept attended
    have here : state layer = before layer := kept.1 layer (Nat.le_refl _)
    obtain ⟨attends, appended, others⟩ := attends_contiguous (batch_ids plan seqs)
      (map_seqId_entries ok ▸ ok.entries) member (here ▸ held.sized layer below) attended
    refine ⟨attends, fun later above => ?_, fun done inside => ?_⟩
    · rw [others later (by omega)]
      exact kept.1 later (by omega)
    · by_cases last : done = layer
      · rw [last]
        exact appended
      · rw [others done last]
        exact kept.2 done (by omega)
  have fed (i position : Nat) (here : RowAt (batch plan seqs) i entry seq position) :
      ((Paged.planRows 1 plan seqs).map (·.token))[i]? = some (seq.tokens.getD position 0) ∧
      ((Paged.planRows 1 plan seqs).map (·.position))[i]? = some position := by
    have at_row := here.row 1
    rw [← Paged.planRows] at at_row
    simp only [List.getElem?_map, at_row, Option.map_some]
    exact ⟨rfl, rfl⟩
  obtain ⟨rows, cells, -, sized⟩ := decoderHidden_computed member good extends_layer cached fed
    ⟨fun _ _ => rfl, fun _ below => absurd below (Nat.not_lt_zero _)⟩ computed
  have le := (ok.bookkept _ member).nTokens_le
  rw [cachedBefore, Nat.sub_add_cancel le] at sized cells
  exact ⟨rows, sized, cells⟩

theorem contiguous_others {positionEmbeddings : TokenRows m.Rotary} {start hidden : TokenRows m.Hidden}
    {done : Nat} (layers : m.DecoderLayers
      (ContiguousAttention plan seqs (spans 0 (batch plan seqs))) positionEmbeddings start before done
      hidden after) {id : SeqId} (absent : id ∉ (batch plan seqs).map (·.1.seqId)) (layer : Nat) :
    after layer id = before layer id := by
  induction layers with
  | start => rfl
  | @layer here hidden out state after _ attended ih =>
      obtain ⟨memory, rows, cache, attn, folded, rfl, -⟩ := attended
      refine Eq.trans ?_ ih
      by_cases same : layer = here
      · rw [same, Function.update_self]
        exact (attendCells_others folded).1 id absent
      · rw [Function.update_of_ne same]

theorem exists_contiguousAttention (ok : BatchOk plan seqs)
    (sized : ∀ pair ∈ batch plan seqs, RoomFor (before layer pair.2.seqId) pair.2
      (cachedBefore pair.1 pair.2))
    (inside : ∀ pair ∈ batch plan seqs, pair.2.blockTable.numTokens ≤ reservation pair.2)
    (normed : TokenRows m.Hidden) (rotary : TokenRows m.Rotary) :
    ∃ out after, ContiguousAttention plan seqs (spans 0 (batch plan seqs)) layer normed rotary before
        out after ∧ ∀ other ≠ layer, after other = before other := by
  let memory (_ : SeqId) : (Nat → m.Key) × (Nat → m.Value) :=
    (fun position => (m.cellAt [] 0 position).1, fun position => (m.cellAt [] 0 position).2)
  let rows (i : Nat) : m.Output := m.attention (m.query layer (rotary i) (normed i)) []
  let qkv := m.projectQkv normed rotary layer
  have room : ∀ pair ∈ batch plan seqs,
      ((before layer pair.1.seqId).getD (.empty (memory pair.1.seqId) pair.2)).filled +
          pair.1.nTokens ≤
        ((before layer pair.1.seqId).getD (.empty (memory pair.1.seqId) pair.2)).capacity := by
    intro pair member
    rw [batch_ids plan seqs pair member]
    obtain ⟨capacity, filled, -⟩ := (sized pair member).getD (memory pair.2.seqId)
    have fits := inside pair member
    have le := (ok.bookkept pair member).nTokens_le
    rw [capacity, filled, cachedBefore]
    omega
  obtain ⟨⟨cache, attn⟩, folded⟩ :=
    @exists_attendCells m qkv.1 qkv.2.1 qkv.2.2 memory (batch plan seqs) 0 (before layer, rows)
      (map_seqId_entries ok ▸ ok.entries) room
  exact ⟨_, _, ⟨memory, rows, cache, attn, folded, rfl, rfl⟩,
    fun other different => Function.update_of_ne different _ _⟩

theorem exists_contiguousLayers (ok : BatchOk plan seqs)
    (sized : ∀ layer < m.layers, ∀ pair ∈ batch plan seqs,
      RoomFor (before layer pair.2.seqId) pair.2 (cachedBefore pair.1 pair.2))
    (inside : ∀ pair ∈ batch plan seqs, pair.2.blockTable.numTokens ≤ reservation pair.2)
    (positionEmbeddings : TokenRows m.Rotary) (start : TokenRows m.Hidden) {done : Nat}
    (below : done ≤ m.layers) :
    ∃ hidden after, m.DecoderLayers (ContiguousAttention plan seqs (spans 0 (batch plan seqs)))
        positionEmbeddings start before done hidden after ∧
      ∀ later, done ≤ later → after later = before later := by
  induction done with
  | zero => exact ⟨start, before, .start, fun _ _ => rfl⟩
  | succ layer ih =>
      obtain ⟨hidden, state, layers, same⟩ := ih (Nat.le_of_succ_le below)
      have here := same layer (Nat.le_refl _)
      obtain ⟨out, after, attended, others⟩ := exists_contiguousAttention ok
        (fun pair member => here ▸ sized layer below pair member) inside
        (fun i => m.inputLayernorm layer (hidden i)) positionEmbeddings
      refine ⟨_, after, .layer layers attended, fun later above => ?_⟩
      rw [others later (by omega)]
      exact same later (by omega)

section

variable {softmax : Softmax m.vocab} {sort : Descending m.vocab} {eos : List Token}
  {outcome : Outcome} {results : IterationResults}

theorem forward_other (computed : (contiguousDecoder m softmax sort eos).forward plan seqs before
      outcome after) (ok : BatchOk plan seqs) (id : SeqId) (absent : id ∉ plan.ids) (layer : Nat) :
    after layer id = before layer id := by
  cases outcome with
  | results results =>
      obtain ⟨hidden, ⟨last, layers, -⟩, -⟩ := computed
      rw [Paged.flatRows_bookkept 1 ok.bookkept] at layers
      exact contiguous_others layers (map_seqId_entries ok ▸ absent) layer
  | failed | deviceLost => exact computed layer id absent

theorem cellAt_take {tokens tokens' : List Token} {n : Nat} (same : tokens'.take n = tokens.take n)
    (layer : Nat) {position : Nat} (inside : position < n) :
    m.cellAt tokens' layer position = m.cellAt tokens layer position := by
  refine CausalStack.cellAt_congr (fun earlier within => ?_) layer position inside
  have here := congrArg (·[earlier]?) same
  simp only [List.getElem?_take_of_lt within] at here
  simp only [Modules.embedded, List.getD_eq_getElem?_getD, here]

theorem Buffered.congr {buffers : Nat → Option (CellBuffer m)} {seq' : Sequence} {n : Nat}
    (held : Buffered m buffers seq n) (prompt : seq'.promptTokens = seq.promptTokens)
    (params : seq'.samplingParams = seq.samplingParams)
    (tokens : seq'.tokens.take n = seq.tokens.take n) : Buffered m buffers seq' n where
  sized layer below := by
    have here := held.sized layer below
    unfold RoomFor at here ⊢
    rwa [reservation, prompt, params]
  cells layer below position inside :=
    (held.cells layer below position inside).trans (cellAt_take tokens layer inside).symm

theorem free_cells (buffers : CellBuffers m) (freed id : SeqId) :
    (fun layer => (contiguousDecoder m softmax sort eos).free freed buffers layer id) =
      if id = freed then fun _ => none else fun layer => buffers layer id := by
  funext layer
  by_cases same : id = freed
  · simp [contiguousDecoder, same]
  · simp [contiguousDecoder, same]

def cellMemory (m : Modules) (softmax : Softmax m.vocab) (sort : Descending m.vocab)
    (eos : List Token) : Memory (contiguousDecoder m softmax sort eos) (Nat → Option (CellBuffer m)) where
  view buffers id layer := buffers layer id
  clear _ := none
  Holds := Buffered m
  view_free := free_cells
  others computed ok id absent := funext (forward_other computed ok id absent)
  fed computed ok member held := by
    obtain ⟨hidden, decoded, -⟩ := computed
    exact (contiguous_rows ok member held decoded).2
  holds_clear _ := ⟨fun _ _ => rfl, fun _ _ _ inside => absurd inside (Nat.not_lt_zero _)⟩
  holds_congr := Buffered.congr

end

end LlmServing.Decoder
