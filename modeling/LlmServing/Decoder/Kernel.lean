import LlmServing.Decoder.Contiguous
import LlmServing.Decoder.Correct
import LlmServing.Kernels.Softmax

/-!
# The decoder's attention is what the kernels store

A model over the reals, whose attention is one softmax for each head: what `paged_attention_forward` and
`flash_attention_forward` leave of its queries and cells is that attention, on every batch that the
engine hands off.
-/

namespace LlmServing.Decoder

open Scheduling Runner Engine Lib Kernels
open Paged (spans)

abbrev Heads := Nat → Nat → ℝ

structure AttentionShape where
  nHeads : Nat
  nKvHeads : Nat
  headDim : Nat
  grouped : nHeads % nKvHeads = 0

namespace AttentionShape

variable (shape : AttentionShape)

abbrev Output : Type := Fin shape.nHeads → Fin shape.headDim → ℝ

def nGroups : Nat := shape.nHeads / shape.nKvHeads

noncomputable def score (query key : Heads) (head : Nat) : ℝ :=
  (∑ c ∈ Finset.range shape.headDim, query head c * key (head / shape.nGroups) c) *
    (1 / Real.sqrt shape.headDim)

/-- Scaled dot-product attention, each group of query heads on its own key and value head. -/
noncomputable def attention (query : Heads) (cells : List (Heads × Heads)) : shape.Output :=
  fun head c =>
    (cells.map fun cell =>
      Real.exp (shape.score query cell.1 head) * cell.2 (head / shape.nGroups) c).sum /
    (cells.map fun cell => Real.exp (shape.score query cell.1 head)).sum

end AttentionShape

structure Numbers (m : Modules) (shape : AttentionShape) where
  query : m.Query → Heads
  key : m.Key → Heads
  value : m.Value → Heads
  output : m.Output ≃ shape.Output
  attention (q : m.Query) (cells : List (m.Key × m.Value)) :
    output (m.attention q cells) = shape.attention (query q) (cells.map (Prod.map key value))

def queryTensor (shape : AttentionShape) (dtype : Dtype) (totalTokens : Nat) (q : TokenRows Heads) :
    Tensor PagedCell ℝ where
  shape := (shape.nHeads, totalTokens, shape.headDim)
  dtype
  isCuda := true
  value := fun (head, i, c) => q i head c

def poolTensor (shape : AttentionShape) (dtype : Dtype) (numBlocks blockSize : Nat)
    (pool : Nat × Nat → Heads) : Tensor Cell ℝ where
  shape := (numBlocks + 1, blockSize, shape.nKvHeads, shape.headDim)
  dtype
  isCuda := true
  value := fun (block, within, head, c) => pool (block, within) head c

namespace Numbers

variable {m : Modules} {shape : AttentionShape} (numbers : Numbers m shape)

noncomputable def attendPaged (dtype : Dtype) (totalTokens numBlocks blockSize : Nat)
    (q : TokenRows m.Query) (layer : Nat) (paging : PagedBatch) (pools : m.Pools) :
    Except String (Launch PagedCell Extended) :=
  pagedAttentionForward exact
    (queryTensor shape dtype totalTokens fun i => numbers.query (q i)).real
    (poolTensor shape dtype numBlocks blockSize fun slot => numbers.key (pools.k layer slot)).real
    (poolTensor shape dtype numBlocks blockSize fun slot => numbers.value (pools.v layer slot)).real
    paging blockSize

def Reads (after : PagedCell → Extended) (attn : TokenRows m.Output) : Prop :=
  ∀ i (head : Fin shape.nHeads) (c : Fin shape.headDim) x, after (head, i, c) = .real x →
    numbers.output (attn i) head c = x

end Numbers

section

variable (shape : AttentionShape) {cell : Nat → Heads × Heads} {query : Heads} {args : FlashArgs ℝ}
  {row n : Nat}

structure Launches (args : FlashArgs ℝ) (row n : Nat) (query : Heads)
    (cell : Nat → Heads × Heads) : Prop where
  d : args.d = shape.headDim
  scale : args.softmaxScale = 1 / Real.sqrt shape.headDim
  groups : args.nGroups = shape.nGroups
  visible : args.visible row = Finset.range n
  q : ∀ head c, args.q (0, head, row, c) = query head c
  k : ∀ head, ∀ j < n, ∀ c, args.k (0, head, j, c) = (cell j).1 head c
  v : ∀ head, ∀ j < n, ∀ c, args.v (0, head, j, c) = (cell j).2 head c

variable {shape}

theorem Launches.attention (launches : Launches shape args row n query cell) (head : Fin shape.nHeads)
    (c : Fin shape.headDim) :
    args.attention 0 head row c = shape.attention query ((List.range n).map cell) head c := by
  have score : ∀ j ∈ Finset.range n,
      args.score 0 head row j = shape.score query (cell j).1 head := by
    intro j inside
    rw [FlashArgs.score, AttentionShape.score, launches.d, launches.scale, launches.groups]
    congr 1
    refine Finset.sum_congr rfl fun c _ => ?_
    rw [launches.q, launches.k _ j (Finset.mem_range.mp inside)]
  have sums (f : Nat → ℝ) : ((List.range n).map f).sum = ∑ j ∈ Finset.range n, f j := rfl
  rw [FlashArgs.attention, AttentionShape.attention, List.map_map, List.map_map, launches.visible,
    sums, sums]
  congr 1
  · refine Finset.sum_congr rfl fun j inside => ?_
    rw [score j inside, launches.groups, launches.v _ j (Finset.mem_range.mp inside)]
    rfl
  · refine Finset.sum_congr rfl fun j inside => ?_
    rw [score j inside]
    rfl

end

noncomputable def pagedEntry (q : Tensor PagedCell ℝ) (kPool vPool : Tensor Cell ℝ) (paging : PagedBatch)
    (blockSize blockM blockN e : Nat) : FlashArgs ℝ where
  q := fun (_, head, row, c) => q.value (head, paging.qStart e + row, c)
  k := fun (_, head, p, c) =>
    kPool.value (paging.blockTable e (p / blockSize), p % blockSize, head, c)
  v := fun (_, head, p, c) =>
    vPool.value (paging.blockTable e (p / blockSize), p % blockSize, head, c)
  h := q.shape.1
  nQ := paging.qLen e
  nK := paging.contextLen e
  d := q.shape.2.2
  softmaxScale := 1 / Real.sqrt q.shape.2.2
  queryOffset := paging.queryOffset e
  blockM
  blockN
  blockD := nextPowerOf2 q.shape.2.2
  isCausal := true
  precision := softmaxPrecision q.dtype
  nGroups := q.shape.1 / kPool.shape.2.2.1

structure PagedOk (paging : PagedBatch) : Prop where
  starts : ∀ e < paging.entries, 0 < paging.qLen e → paging.qStart e = spanStart paging.qLen e
  longest : ∀ e < paging.entries, paging.qLen e ≤ paging.maxQLen
  cached : ∀ e < paging.entries, 0 < paging.qLen e → 0 < paging.contextLen e

variable {m : Modules} {shape : AttentionShape} {paging : PagedBatch}

theorem pagedAttentionForward_attention {q : Tensor PagedCell ℝ} {kPool vPool : Tensor Cell ℝ}
    {blockSize : Nat} {l : Launch PagedCell Extended}
    (ok : pagedAttentionForward exact q.real kPool.real vPool.real paging blockSize = .ok l)
    (pages : PagedOk paging) {before after : PagedCell → Extended} (result : l.Result before after)
    {e head row c : Nat} (e_lt : e < paging.entries) (head_lt : head < q.shape.1)
    (row_lt : row < paging.qLen e) (c_lt : c < q.shape.2.2) :
    ∃ blockM blockN, after (head, paging.qStart e + row, c) =
      .real ((pagedEntry q kPool vPool paging blockSize blockM blockN e).attention 0 head row c) := by
  obtain ⟨blockM, blockN, blocks, -, -, -, -, rfl⟩ := pagedAttentionForward_ok ok
  obtain ⟨positiveM, positiveN⟩ := tilesOf_ok blocks
  let args := pagedArgs exact q.real kPool.real vPool.real paging blockSize blockM blockN
  let own := pagedEntry q kPool vPool paging blockSize blockM blockN e
  have laid : args.LaidOut paging.entries paging.maxQLen := ⟨pages.starts, pages.longest⟩
  have cached : 1 ≤ own.nK := pages.cached e e_lt (Nat.zero_lt_of_lt row_lt)
  let launch := own.real.launch exact 1
  let alone : Cell → Extended :=
    writeAll (fun _ => .undefined) (launch.writesOf launch.programs)
  have ran : launch.Result (fun _ => .undefined) alone := ⟨_, List.Perm.refl _, rfl⟩
  have contiguous : alone (0, head, row, c) = .real (own.attention 0 head row c) :=
    own.launch_attention cached positiveM positiveN (le_nextPowerOf2 _) ran Nat.zero_lt_one head_lt
      row_lt c_lt
  refine ⟨blockM, blockN, ?_⟩
  rw [← contiguous]
  exact laid.written positiveM (le_nextPowerOf2 _) result e_lt head_lt row_lt c_lt ran

theorem pagedAttentionForward_launches {R : Type} (A : Arithmetic R) {q : Tensor PagedCell R}
    {kPool vPool : Tensor Cell R} (paging : PagedBatch) (blockSize : Nat) {blockM blockN : Nat}
    (cuda : (q.isCuda && kPool.isCuda && vPool.isCuda) = true)
    (dtypes : q.dtype = kPool.dtype ∧ kPool.dtype = vPool.dtype)
    (blocks : tilesOf q.dtype = .ok (blockM, blockN))
    (groups : q.shape.1 % kPool.shape.2.2.1 = 0) :
    pagedAttentionForward A q kPool vPool paging blockSize = .ok
      ((pagedArgs A q kPool vPool paging blockSize blockM blockN).launch A paging.entries
        paging.maxQLen) := by
  simp only [pagedAttentionForward]
  rw [cuda, decide_eq_true dtypes, blocks, decide_eq_true groups]
  rfl

theorem visible_range (args : FlashArgs ℝ) (row : Nat) (causal : args.isCausal = true) :
    args.visible row = Finset.range (min args.nK (args.queryOffset + row + 1)) := by
  ext j
  rw [args.mem_visible, Finset.mem_range]
  simp only [causal, true_implies]
  omega

namespace Numbers

variable (numbers : Numbers m shape)

theorem attends {dtype : Dtype} {totalTokens numBlocks blockSize layer : Nat}
    {q : TokenRows m.Query} {pools : m.Pools} {l : Launch PagedCell Extended}
    (ok : numbers.attendPaged dtype totalTokens numBlocks blockSize q layer paging pools = .ok l)
    (pages : PagedOk paging) {before after : PagedCell → Extended} (result : l.Result before after)
    {attn : TokenRows m.Output} (read : numbers.Reads after attn) :
    m.AttendPaged blockSize q layer paging pools attn := by
  intro e e_lt row inside
  have row_lt : row < paging.qLen e := inside.trans_le (Nat.min_le_left _ _)
  apply numbers.output.injective
  funext head c
  obtain ⟨blockM, blockN, stored⟩ := pagedAttentionForward_attention ok pages result e_lt
    head.isLt row_lt c.isLt
  rw [read _ head c _ stored, numbers.attention]
  let cell (p : Nat) := pools.cell layer (paging.blockTable e (p / blockSize), p % blockSize)
  have launches : Launches shape (pagedEntry
      (queryTensor shape dtype totalTokens fun i => numbers.query (q i))
      (poolTensor shape dtype numBlocks blockSize fun slot => numbers.key (pools.k layer slot))
      (poolTensor shape dtype numBlocks blockSize fun slot => numbers.value (pools.v layer slot))
      paging blockSize blockM blockN e) row
      (min (paging.contextLen e) (paging.queryOffset e + row + 1))
      (numbers.query (q (paging.qStart e + row)))
      (fun p => Prod.map numbers.key numbers.value (cell p)) :=
    ⟨rfl, rfl, rfl, visible_range _ row rfl, fun _ _ => rfl, fun _ _ _ _ => rfl, fun _ _ _ _ => rfl⟩
  rw [launches.attention, List.map_map]
  rfl

theorem exists_reads (after : PagedCell → Extended) : ∃ attn, numbers.Reads after attn := by
  have injective : Function.Injective Extended.real := fun _ _ same => Extended.real.inj same
  let number : Extended → ℝ := Function.invFun Extended.real
  refine ⟨fun i => numbers.output.symm fun head c => number (after (head, i, c)), ?_⟩
  intro i head c x here
  rw [Equiv.apply_symm_apply, here]
  exact Function.leftInverse_invFun injective x

theorem attendPaged_launches {dtype : Dtype} (supported : (tiles dtype).isSome)
    (totalTokens numBlocks blockSize : Nat) (q : TokenRows m.Query) (layer : Nat)
    (paging : PagedBatch) (pools : m.Pools) :
    ∃ l, numbers.attendPaged dtype totalTokens numBlocks blockSize q layer paging pools = .ok l := by
  obtain ⟨⟨blockM, blockN⟩, sizes⟩ := Option.isSome_iff_exists.mp supported
  have blocks : tilesOf dtype = .ok (blockM, blockN) := by
    rw [tilesOf, sizes]
    rfl
  exact ⟨_, pagedAttentionForward_launches exact paging blockSize rfl ⟨rfl, rfl⟩ blocks shape.grouped⟩

end Numbers

/-! ## The batches the engine hands off -/

theorem Feeds.pagedOk {blockSize scratch : Nat} {plan : BatchPlan} {seqs : List Sequence}
    {input : DeviceBatch} (feeds : Feeds blockSize scratch plan seqs input)
    (bookkept : ∀ pair ∈ batch plan seqs, RunningOk (some pair.1) pair.2) : PagedOk input.paging := by
  refine ⟨fun e inside queries => ?_, fun e inside => ?_, fun e inside queries => ?_⟩
  · obtain ⟨entry, seq, start, here, span, page⟩ := feeds.real inside queries
    have starts := Paged.spans_start (batch plan seqs) 0 (List.getElem?_eq_some_iff.mp here).1
    rw [List.getD_eq_getElem?_getD, List.getElem?_map, span, Option.map_some, Option.getD_some,
      Nat.zero_add] at starts
    dsimp only at starts
    rw [page.qStart, starts]
    refine Finset.sum_congr rfl fun i before => ?_
    have earlier : i < (batch plan seqs).length :=
      (Finset.mem_range.mp before).trans (List.getElem?_eq_some_iff.mp here).1
    obtain ⟨skip, there, -⟩ := Paged.row_at 1 0 (List.getElem?_eq_getElem earlier)
    rw [(feeds.entry (List.getElem?_eq_getElem earlier) there).qLen]
    simp [earlier]
  · by_cases queries : 0 < input.paging.qLen e
    · obtain ⟨_, _, _, -, -, page⟩ := feeds.real inside queries
      exact page.qLen.trans_le page.maxQLen
    · omega
  · obtain ⟨entry, seq, _, here, -, page⟩ := feeds.real inside queries
    have fed := (bookkept _ (List.mem_of_getElem? here)).nTokens_le
    rw [page.contextLen]
    rw [page.qLen] at queries
    exact queries.trans_le fed

/-- On any path of any batch that the engine hands off, at every layer and whatever the pools hold, the
launch passes its checks, no two of its programs write one cell, and in exact arithmetic its output is the
attention that the decoder goes on with: each row over its own sequence's cached positions up to its own. -/
theorem kernel_attends (loaded : Loaded m) (scheduler : Scheduler) (decodeBuckets : List Nat)
    (start : m.Pools) (buffers : SegmentBuffers m) (numbers : Numbers m shape) {dtype : Dtype}
    (supported : (tiles dtype).isSome) {s : EngineState BlockAllocator (PagedState m)}
    (reachable : (pagedEngine loaded scheduler decodeBuckets start buffers).Reachable s)
    {flight : InFlight} (inFlight : s.inFlight = some flight) (pending : flight.outcome = none) :
    ∃ input, pathBatch loaded.blockSize loaded.numBlocks s.runner.graphs flight.plan flight.seqs
        (forwardPath s.runner.graphs loaded.piecewiseBuckets flight.plan) = some input ∧
      ∀ layer (q : TokenRows m.Query) (pools : m.Pools), ∃ l,
        numbers.attendPaged dtype input.inputIds.length loaded.numBlocks loaded.blockSize q layer
          input.paging pools = .ok l ∧ l.Separate ∧
        ∀ before after, l.Result before after → (∃ attn, numbers.Reads after attn) ∧
          ∀ attn, numbers.Reads after attn →
            m.AttendPaged loaded.blockSize q layer input.paging pools attn := by
  obtain ⟨input, made, feeds, -⟩ := (pagedReady reachable).feeds inFlight pending
  have pages := feeds.pagedOk ((consistent reachable).batchOk inFlight).bookkept
  refine ⟨input, made, fun layer q pools => ?_⟩
  obtain ⟨l, ok⟩ := numbers.attendPaged_launches supported input.inputIds.length loaded.numBlocks
    loaded.blockSize q layer input.paging pools
  refine ⟨l, ok, ?_, fun before after result =>
    ⟨numbers.exists_reads after, fun attn => numbers.attends ok pages result⟩⟩
  obtain ⟨blockM, blockN, -, -, -, -, -, rfl⟩ := pagedAttentionForward_ok ok
  exact PagedArgs.LaidOut.separate ⟨pages.starts, pages.longest⟩

/-! ## Without a pool -/

def rowsTensor (shape : AttentionShape) (dtype : Dtype) (start nNew : Nat) (q : TokenRows Heads) :
    Tensor Cell ℝ where
  shape := (1, shape.nHeads, nNew, shape.headDim)
  dtype
  isCuda := true
  value := fun (_, head, r, c) => q (start + r) head c

def bufferTensor (shape : AttentionShape) (dtype : Dtype) (filled : Nat) (buffer : Nat → Heads) :
    Tensor Cell ℝ where
  shape := (1, shape.nKvHeads, filled, shape.headDim)
  dtype
  isCuda := true
  value := fun (_, head, p, c) => buffer p head c

noncomputable def Numbers.attendEntry (numbers : Numbers m shape) (dtype : Dtype) (q : TokenRows m.Query)
    (start nNew : Nat) (buf : CellBuffer m) : Except String (Launch Cell Extended) :=
  flashAttentionForward exact
    (rowsTensor shape dtype start nNew fun i => numbers.query (q i)).real
    (bufferTensor shape dtype buf.filled fun p => numbers.key (buf.k p)).real
    (bufferTensor shape dtype buf.filled fun p => numbers.value (buf.v p)).real
    true (buf.filled - nNew)

theorem Numbers.attendEntry_attends (numbers : Numbers m shape) {dtype : Dtype}
    (supported : (tiles dtype).isSome) (q : TokenRows m.Query) (start : Nat) {nNew : Nat}
    {buf : CellBuffer m} (written : nNew ≤ buf.filled) :
    ∃ l, numbers.attendEntry dtype q start nNew buf = .ok l ∧
      ∀ before after, l.Result before after → ∀ r < nNew, ∀ (head : Fin shape.nHeads)
        (c : Fin shape.headDim), after (0, head, r, c) = .real (numbers.output
          (m.attention (q (start + r))
            ((List.range (min buf.filled (buf.filled - nNew + r + 1))).map buf.cell)) head c) := by
  obtain ⟨⟨blockM, blockN⟩, sizes⟩ := Option.isSome_iff_exists.mp supported
  have blocks : tilesOf dtype = .ok (blockM, blockN) := by
    rw [tilesOf, sizes]
    rfl
  have ok := flashAttentionForward_launches (A := exact)
    (q := (rowsTensor shape dtype start nNew fun i => numbers.query (q i)).real)
    (k := (bufferTensor shape dtype buf.filled fun p => numbers.key (buf.k p)).real)
    (v := (bufferTensor shape dtype buf.filled fun p => numbers.value (buf.v p)).real)
    rfl shape.grouped rfl ⟨rfl, rfl⟩ blocks rfl (Nat.sub_add_cancel written).le
  refine ⟨_, ok, fun before after result r inside head c => ?_⟩
  obtain ⟨blockM, blockN, stored⟩ := flashAttentionForward_attention ok
    (show 1 ≤ buf.filled by omega) result (show 0 < 1 from Nat.zero_lt_one) head.isLt inside c.isLt
  have launches : Launches shape (flashArgs (1 / Real.sqrt shape.headDim)
      (rowsTensor shape dtype start nNew fun i => numbers.query (q i))
      (bufferTensor shape dtype buf.filled fun p => numbers.key (buf.k p))
      (bufferTensor shape dtype buf.filled fun p => numbers.value (buf.v p))
      true (buf.filled - nNew) blockM blockN) r
      (min buf.filled (buf.filled - nNew + r + 1)) (numbers.query (q (start + r)))
      (fun p => Prod.map numbers.key numbers.value (buf.cell p)) :=
    ⟨rfl, rfl, rfl, visible_range _ r rfl, fun _ _ => rfl, fun _ _ _ _ => rfl, fun _ _ _ _ => rfl⟩
  rw [stored, numbers.attention, List.map_map]
  exact congrArg Extended.real (launches.attention head c)

/-- A round of `contiguous_attention` copies into `out` what the entry's own launch stores, over the
buffer that the round has just extended. -/
theorem contiguous_kernel (numbers : Numbers m shape) {dtype : Dtype} (supported : (tiles dtype).isSome)
    {q : TokenRows m.Query} {k : TokenRows m.Key} {v : TokenRows m.Value}
    {memory : SeqId → (Nat → m.Key) × (Nat → m.Value)} {cache cache' : SeqId → Option (CellBuffer m)}
    {out out' : TokenRows m.Output} {entry : BatchEntry} {seq : Sequence} {start stop : Nat}
    (round : attendCells q k v memory (cache, out) ((entry, seq), start, stop) = some (cache', out')) :
    ∃ buf l, cache' entry.seqId = some buf ∧
      numbers.attendEntry dtype q start (stop - start) buf = .ok l ∧
      ∀ before after, l.Result before after → ∀ r < stop - start, ∀ (head : Fin shape.nHeads)
        (c : Fin shape.headDim),
        after (0, head, r, c) = .real (numbers.output (out' (start + r)) head c) := by
  simp only [attendCells, Option.map_eq_some_iff, Prod.mk.injEq] at round
  obtain ⟨buf, wrote, rfl, rfl⟩ := round
  have written : stop - start ≤ buf.filled := by
    unfold CellBuffer.write at wrote
    split at wrote
    · obtain rfl := Option.some.inj wrote
      exact Nat.le_add_left _ _
    · cases wrote
  obtain ⟨l, ok, stores⟩ := numbers.attendEntry_attends supported q start written
  refine ⟨buf, l, Function.update_self _ _ _, ok, fun before after result r inside head c => ?_⟩
  have row : start ≤ start + r ∧ start + r < stop := by omega
  rw [stores before after result r inside head c]
  dsimp only
  rw [if_pos row, Nat.add_sub_cancel_left]

def realShape : AttentionShape := ⟨2, 1, 1, rfl⟩

noncomputable def realModules : Modules where
  Hidden := ℝ
  Rotary := ℝ
  Query := Heads
  Key := Heads
  Value := Heads
  Output := realShape.Output
  vocab := 3
  vocab_pos := sampleModules.vocab_pos
  layers := 1
  layers_pos := Nat.one_pos
  embedTokens token := token
  rotaryEmb position := position
  inputLayernorm _ hidden := hidden
  qProj _ hidden := fun head _ => head * hidden
  kProj _ hidden := fun _ _ => hidden
  vProj _ hidden := fun _ _ => hidden
  rotateQuery rotary query := fun head c => query head c + rotary
  rotateKey rotary key := fun head c => key head c + rotary
  attention := realShape.attention
  oProj _ out := ∑ head, ∑ c, out head c
  postAttentionLayernorm _ hidden := hidden
  mlp _ hidden := hidden
  add := (· + ·)
  norm hidden := hidden
  outputEmbeddings _ := fun _ => 0

def realNumbers : Numbers realModules realShape where
  query q := q
  key k := k
  value v := v
  output := .refl _
  attention q cells := congrArg (realShape.attention q) (List.map_id cells).symm

noncomputable def realLoaded : Loaded realModules where
  softmax := evenSoftmax
  sort := stableDescending 3
  eosTokenIds := []
  numBlocks := 4
  blockSize := 2
  blockSize_pos := sampleBlockSize_pos
  piecewiseBuckets := [4]

def realPools : realModules.Pools := ⟨fun _ _ _ _ => 5, fun _ _ _ _ => 5⟩

def realQueries : TokenRows realModules.Query := fun i _ _ => i

noncomputable def realBuffers : SegmentBuffers realModules where
  inputIds i := i
  positionIds _ := 1
  destBlockId i := 3 + i
  destWithin _ := 1
  rotary _ := (7 : ℝ)
  residual _ := (7 : ℝ)
  q := realQueries
  attn _ _ _ := 7
  hidden _ := (7 : ℝ)

noncomputable abbrev realStart : PagedState realModules where
  pools := realPools
  graphs := capture 4 [1]
  buffers := realBuffers

theorem realState_inFlight :
    (Paged.sampleState (pagedDecoder realLoaded) realStart).inFlight =
      some ⟨{ entries := [⟨0, 3, true⟩] },
        (Paged.sampleState (pagedDecoder realLoaded) realStart).running, none⟩ := by decide +kernel

theorem kernel_attends_sample : ∃ (input : DeviceBatch) (l : Launch PagedCell Extended) (after : _)
    (attn : TokenRows realModules.Output),
    realNumbers.attendPaged .float16 input.inputIds.length 4 2 realQueries 0 input.paging realPools =
      .ok l ∧ l.Result (fun _ => .undefined) after ∧ realNumbers.Reads after attn ∧
      realModules.AttendPaged 2 realQueries 0 input.paging realPools attn := by
  obtain ⟨input, -, launches⟩ := kernel_attends realLoaded sampleScheduler [1] realPools realBuffers
    realNumbers (show (tiles .float16).isSome from rfl) (Paged.sampleState_reachable _ _) realState_inFlight rfl
  obtain ⟨l, ok, -, stores⟩ := launches 0 realQueries realPools
  have result : l.Result (fun _ => .undefined)
      (writeAll (fun _ => .undefined) (l.writesOf l.programs)) := ⟨_, List.Perm.refl _, rfl⟩
  obtain ⟨⟨attn, read⟩, attends⟩ := stores _ _ result
  exact ⟨input, l, _, attn, ok, result, read, attends attn read⟩

theorem contiguous_kernel_sample : ∃ buf l,
    realNumbers.attendEntry .float16 realQueries 0 2 buf = .ok l ∧ buf.filled = 2 ∧
    ∃ after, l.Result (fun _ => .undefined) after ∧
      ∃ x, after (0, 1, 1, 0) = .real x := by
  let keys : TokenRows realModules.Key := realQueries
  let out : TokenRows realModules.Output := fun _ _ _ => 7
  let seq := sequenceFromIngress (sampleRequest 0 5 [6, 7] 3)
  obtain ⟨⟨cache, after⟩, round⟩ : ∃ st, attendCells (m := realModules) realQueries keys keys
      (fun _ => (realQueries, realQueries)) (fun _ => none, out) ((⟨0, 2, true⟩, seq), 0, 2) =
        some st := ⟨_, rfl⟩
  obtain ⟨buf, l, kept, ok, stores⟩ := contiguous_kernel realNumbers
    (show (tiles .float16).isSome from rfl) round
  have result : l.Result (fun _ => .undefined)
      (writeAll (fun _ => .undefined) (l.writesOf l.programs)) := ⟨_, List.Perm.refl _, rfl⟩
  refine ⟨buf, l, ok, ?_, _, result, _, stores _ _ result 1 (by decide)
    ⟨1, by decide⟩ ⟨0, by decide⟩⟩
  have filled : cache 0 = some buf := kept
  cases round
  cases filled
  rfl

end LlmServing.Decoder
