import LlmServing.Decoder.Emit
import LlmServing.Engine.Views

/-!
# The engine on the paged decoder

`ModelRunner` with custom kernels and a pool: a pure-decode plan replays a decode graph, any other plan
a piecewise bucket's segments, and the rest runs eagerly. Over every run, a running sequence's slots
hold the cells its tokens have alone.
-/

namespace LlmServing.Decoder

open Scheduling Runner Engine Lib Kernels
open Paged (slot spans planRows BatchReady Ownership GraphsOk)

def SegmentBuffers.fill {m : Modules} (buffers : SegmentBuffers m) (bucket : Nat)
    (input : DeviceBatch) : SegmentBuffers m :=
  { buffers with
    inputIds := copied bucket (input.inputIds.getD · 0) buffers.inputIds
    positionIds := copied bucket (input.positionIds.getD · 0) buffers.positionIds
    destBlockId := copied bucket (input.destBlockId.getD · 0) buffers.destBlockId
    destWithin := copied bucket (input.destWithin.getD · 0) buffers.destWithin }

structure PagedState (m : Modules) where
  pools : m.Pools
  graphs : Graphs
  buffers : SegmentBuffers m

structure Loaded (m : Modules) where
  softmax : Softmax m.vocab
  sort : Descending m.vocab
  eosTokenIds : List Token
  numBlocks : Nat
  blockSize : Nat
  blockSize_pos : 0 < blockSize
  piecewiseBuckets : List Nat

variable {m : Modules} (loaded : Loaded m)

/-- The end of an iteration: a replay's logits have a row for each row of its bucket, and a decode step
owes a token to every entry. -/
def PathEmits (path : ForwardPath) (hidden : TokenRows m.Hidden) (plan : BatchPlan)
    (seqs : List Sequence) (results : IterationResults) : Prop :=
  match path with
  | .decodeGraph bucket => Emitted loaded.softmax loaded.sort loaded.eosTokenIds
      (fun i : Fin bucket => m.outputEmbeddings (hidden i)) ((batch plan seqs).map (·.2)) results
  | .piecewise _ | .fused => EmitOwed m loaded.softmax loaded.sort loaded.eosTokenIds hidden plan seqs
      (flatRows plan seqs).offsets results

def PathComputes (path : ForwardPath) (input : DeviceBatch) (plan : BatchPlan) (seqs : List Sequence)
    (before : PagedState m) (results : IterationResults) (after : PagedState m) : Prop :=
  match path with
  | .piecewise bucket =>
      Run loaded.blockSize bucket input.paging (before.buffers.fill bucket input, before.pools)
        (after.buffers, after.pools) ∧
      PathEmits loaded path after.buffers.hidden plan seqs results
  | .decodeGraph _ | .fused => after.buffers = before.buffers ∧ ∃ hidden,
      m.DecoderHidden (m.PagedAttention loaded.blockSize input.dest input.paging) input.inputIds
        input.positionIds before.pools hidden after.pools ∧
      PathEmits loaded path hidden plan seqs results

def GraphsAfter (path : ForwardPath) (plan : BatchPlan) (seqs : List Sequence) (before : Graphs)
    (outcome : Outcome) (after : Graphs) : Prop :=
  match path with
  | .decodeGraph bucket => ∃ dg dg', (bucket, dg) ∈ before ∧
      Replay loaded.blockSize loaded.numBlocks dg ((batch plan seqs).map (·.2)) outcome dg' ∧
      after = before.map fun graph => if graph.1 = bucket then (bucket, dg') else graph
  | .piecewise _ | .fused => after = before

/-- The slots that a failed forward pass may have written anything to. -/
def Spared (input : Option DeviceBatch) (before after : m.Pools) : Prop :=
  ∀ untouched : Nat × Nat, (∀ batch, input = some batch → untouched ∉ batch.dest) →
    ∀ layer, after.cell layer untouched = before.cell layer untouched

def forwardPaged (plan : BatchPlan) (seqs : List Sequence) (before : PagedState m)
    (outcome : Outcome) (after : PagedState m) : Prop :=
  let path := forwardPath before.graphs loaded.piecewiseBuckets plan
  let input := pathBatch loaded.blockSize loaded.numBlocks before.graphs plan seqs path
  GraphsAfter loaded path plan seqs before.graphs outcome after.graphs ∧
  match outcome with
  | .results results => ∃ batch, input = some batch ∧
      PathComputes loaded path batch plan seqs before results after
  | .failed | .deviceLost => Spared input before.pools after.pools

theorem owed_of_decodes {plan : BatchPlan} (seqs : List Sequence) (decodes : decodeOnly plan = true) :
    owed plan seqs = (batch plan seqs).map (·.2) := by
  rw [owed, List.filter_eq_self.mpr]
  rintro ⟨entry, seq⟩ member
  have here := List.all_eq_true.mp decodes entry (mem_batch.mp member).1
  simp only [Bool.not_eq_true'] at here
  simp [owesToken, here]

theorem PathEmits.emits {path : ForwardPath} {hidden : TokenRows m.Hidden} {plan : BatchPlan}
    {seqs : List Sequence} {results : IterationResults} {graphs : Graphs}
    (fits : path.Fits graphs plan) (emitted : PathEmits loaded path hidden plan seqs results) :
    ∃ tokens : List Token, tokens.length = (owed plan seqs).length ∧
      results = emitTokens loaded.eosTokenIds (owed plan seqs) tokens := by
  cases path with
  | decodeGraph bucket =>
      rw [owed_of_decodes seqs fits.1]
      exact Emitted.emits emitted
  | piecewise bucket => exact EmitOwed.emits emitted
  | fused => exact EmitOwed.emits emitted

theorem forwardPaged_emits {plan : BatchPlan} {seqs : List Sequence} {before after : PagedState m}
    {results : IterationResults}
    (computed : forwardPaged loaded plan seqs before (.results results) after) :
    ∃ tokens : List Token, tokens.length = (owed plan seqs).length ∧
      results = emitTokens loaded.eosTokenIds (owed plan seqs) tokens := by
  obtain ⟨-, input, -, computes⟩ := computed
  have fits := forwardPath_fits before.graphs loaded.piecewiseBuckets plan
  cases path : forwardPath before.graphs loaded.piecewiseBuckets plan with
  | piecewise bucket =>
      rw [path] at computes fits
      exact computes.2.emits loaded fits
  | decodeGraph bucket =>
      rw [path] at computes fits
      obtain ⟨-, hidden, -, emitted⟩ := computes
      exact emitted.emits loaded fits
  | fused =>
      rw [path] at computes fits
      obtain ⟨-, hidden, -, emitted⟩ := computes
      exact emitted.emits loaded fits

/-- `free` drops no pool block: the allocator has them back already. -/
def pagedDecoder : ModelRunner (PagedState m) where
  eosTokenIds := loaded.eosTokenIds
  forward := forwardPaged loaded
  free id state :=
    { state with graphs := state.graphs.map fun graph => (graph.1, graph.2.forget id) }
  emits := forwardPaged_emits loaded

theorem graphsView : View (pagedDecoder loaded)
    (graphRunner loaded.blockSize loaded.numBlocks loaded.eosTokenIds) PagedState.graphs where
  forward {plan seqs before after outcome} computed := by
    refine ⟨?_, ?_⟩
    · rintro results rfl
      exact forwardPaged_emits loaded computed
    · have fits := forwardPath_fits before.graphs loaded.piecewiseBuckets plan
      have moved := computed.1
      cases path : forwardPath before.graphs loaded.piecewiseBuckets plan with
      | decodeGraph bucket =>
          rw [path] at moved fits
          obtain ⟨dg, dg', member, replay, same⟩ := moved
          exact .inr ⟨fits.1, bucket, dg, dg', member, fits.2.2, replay, same⟩
      | piecewise bucket =>
          rw [path] at moved
          exact .inl moved
      | fused =>
          rw [path] at moved
          exact .inl moved
  free _ _ := rfl

end LlmServing.Decoder
