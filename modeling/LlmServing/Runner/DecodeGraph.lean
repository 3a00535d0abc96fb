import Mathlib.Algebra.GroupWithZero.Nat
import LlmServing.Lib.Writes
import LlmServing.Runner.Rows

/-!
# The rows of the decode graphs

`decode_graph.py`: the tensors a replay reads, the row bookkeeping that spares rewriting block
tables, and the three functions that touch it. Compute is left out; a replay's tokens are any.
-/

namespace LlmServing.Runner

open Scheduling Lib

/-- `index_rows`, `length_rows`, the block table by `(row, column)`, and what each of its rows
records. `bucket` is the number of rows. -/
structure DecodeGraph where
  inputIds : List Token
  positionIds : List Nat
  destBlockId : List Nat
  destWithin : List Nat
  contextLen : List Nat
  queryOffset : List Nat
  qLen : List Nat
  blockTable : Nat × Nat → Nat
  rowSeqIds : List (Option SeqId)
  rowBlocksWritten : List Nat

namespace DecodeGraph

def bucket (dg : DecodeGraph) : Nat := dg.rowSeqIds.length

def qStart (dg : DecodeGraph) : List Nat := List.range dg.bucket

def alloc (bucket : Nat) : DecodeGraph where
  inputIds := List.replicate bucket 0
  positionIds := List.replicate bucket 0
  destBlockId := List.replicate bucket 0
  destWithin := List.replicate bucket 0
  contextLen := List.replicate bucket 0
  queryOffset := List.replicate bucket 0
  qLen := List.replicate bucket 0
  blockTable _ := 0
  rowSeqIds := List.replicate bucket none
  rowBlocksWritten := List.replicate bucket 0

def fillDummy (scratch : Nat) (dg : DecodeGraph) : DecodeGraph where
  inputIds := List.replicate dg.bucket 0
  positionIds := List.replicate dg.bucket 0
  destBlockId := List.replicate dg.bucket scratch
  destWithin := List.replicate dg.bucket 0
  contextLen := List.replicate dg.bucket 1
  queryOffset := List.replicate dg.bucket 0
  qLen := List.replicate dg.bucket 1
  blockTable _ := scratch
  rowSeqIds := List.replicate dg.bucket none
  rowBlocksWritten := dg.rowBlocksWritten

/-- `_fill_real` part way: its host lists, the cells to write, and the bookkeeping, which it updates
in place. -/
structure Filling where
  inputIds : List Token
  positionIds : List Nat
  destBlockId : List Nat
  destWithin : List Nat
  contextLen : List Nat
  queryOffset : List Nat
  qLen : List Nat
  cells : List ((Nat × Nat) × Nat) := []
  rowSeqIds : List (Option SeqId)
  rowBlocksWritten : List Nat

def startFilling (scratch : Nat) (dg : DecodeGraph) : Filling where
  inputIds := List.replicate dg.bucket 0
  positionIds := List.replicate dg.bucket 0
  destBlockId := List.replicate dg.bucket scratch
  destWithin := List.replicate dg.bucket 0
  contextLen := List.replicate dg.bucket 0
  queryOffset := List.replicate dg.bucket 0
  qLen := List.replicate dg.bucket 0
  rowSeqIds := dg.rowSeqIds
  rowBlocksWritten := dg.rowBlocksWritten

def written (rowSeqIds : List (Option SeqId)) (rowBlocksWritten : List Nat) (i : Nat)
    (id : SeqId) : Nat :=
  if rowSeqIds[i]? = some (some id) then rowBlocksWritten.getD i 0 else 0

/-- One round of the loop; `none` is an index that raises. -/
def fillRow (blockSize : Nat) (filling : Filling) (i : Nat) (seq : Sequence) : Option Filling := do
  let physical := seq.blockTable.physicalBlocks
  let pos := seq.blockTable.numTokens - 1
  let token ← seq.generatedTokens.getLast?
  let block ← physical[pos / blockSize]?
  let written := written filling.rowSeqIds filling.rowBlocksWritten i seq.seqId
  pure
    { inputIds := filling.inputIds.set i token
      positionIds := filling.positionIds.set i pos
      destBlockId := filling.destBlockId.set i block
      destWithin := filling.destWithin.set i (pos % blockSize)
      contextLen := filling.contextLen.set i (pos + 1)
      queryOffset := filling.queryOffset.set i pos
      qLen := filling.qLen.set i 1
      cells := filling.cells ++ (List.range' written (physical.length - written)).map
        fun col => ((i, col), physical.getD col 0)
      rowSeqIds := filling.rowSeqIds.set i (some seq.seqId)
      rowBlocksWritten := filling.rowBlocksWritten.set i physical.length }

def fillRows (blockSize : Nat) (filling : Filling) (i : Nat) : List Sequence → Filling × Bool
  | [] => (filling, true)
  | seq :: rest =>
      match fillRow blockSize filling i seq with
      | none => (filling, false)
      | some filling => fillRows blockSize filling (i + 1) rest

/-- The three copies to the device. `index_put_` takes no index outside the table. -/
def copyToDevice (numBlocks : Nat) (dg : DecodeGraph) (filling : Filling) : Option DecodeGraph :=
  if filling.cells.all fun ((row, col), _) => row < dg.bucket ∧ col < numBlocks then
    some
      { inputIds := filling.inputIds
        positionIds := filling.positionIds
        destBlockId := filling.destBlockId
        destWithin := filling.destWithin
        contextLen := filling.contextLen
        queryOffset := filling.queryOffset
        qLen := filling.qLen
        blockTable := writeAll dg.blockTable filling.cells
        rowSeqIds := filling.rowSeqIds
        rowBlocksWritten := filling.rowBlocksWritten }
  else none

/-- `_fill_real`. The scratch block is the one past the pool's. -/
def fillReal (blockSize numBlocks : Nat) (dg : DecodeGraph) (owed : List Sequence) :
    Option DecodeGraph :=
  match fillRows blockSize (startFilling numBlocks dg) 0 owed with
  | (filling, true) => copyToDevice numBlocks dg filling
  | (_, false) => none

/-- What a raise after the bookkeeping of `owed` may leave: rows that were filled hold anything. -/
structure Raised (blockSize numBlocks : Nat) (dg : DecodeGraph) (owed : List Sequence)
    (dg' : DecodeGraph) : Prop where
  rowSeqIds : dg'.rowSeqIds = (fillRows blockSize (startFilling numBlocks dg) 0 owed).1.rowSeqIds
  rowBlocksWritten : dg'.rowBlocksWritten =
    (fillRows blockSize (startFilling numBlocks dg) 0 owed).1.rowBlocksWritten
  blockTable : ∀ row col, owed.length ≤ row → dg'.blockTable (row, col) = dg.blockTable (row, col)

def forget (id : SeqId) (dg : DecodeGraph) : DecodeGraph :=
  { dg with
    rowSeqIds := dg.rowSeqIds.map fun occupant => if occupant = some id then none else occupant }

end DecodeGraph

abbrev Graphs := List (Nat × DecodeGraph)

/-- `graphs` once `capture` is done with `buckets`: its self-check fills each graph once more. -/
def capture (scratch : Nat) (buckets : List Nat) : Graphs :=
  buckets.map fun bucket => (bucket, (DecodeGraph.alloc bucket).fillDummy scratch)

def decodeOnly (plan : BatchPlan) : Bool := plan.entries.all fun entry => !entry.isPrefillChunk

def Replay (blockSize numBlocks : Nat) (dg : DecodeGraph) (owed : List Sequence) (outcome : Outcome)
    (dg' : DecodeGraph) : Prop :=
  match outcome with
  | .results _ => dg.fillReal blockSize numBlocks owed = some dg'
  | .failed | .deviceLost => ∃ k ≤ owed.length, dg.Raised blockSize numBlocks (owed.take k) dg'

/-- The model runner with the graphs of `buckets`. A plan of decodes may replay on any bucket that
holds it (`forward` takes `bucketFor`'s) or on none; every other plan leaves the graphs alone. -/
def graphRunner (blockSize numBlocks : Nat) (eosTokenIds : List Token) : ModelRunner Graphs where
  eosTokenIds
  forward plan seqs before outcome after :=
    (∀ results, outcome = .results results →
      ∃ tokens : List Token, tokens.length = (owed plan seqs).length ∧
        results = emitTokens eosTokenIds (owed plan seqs) tokens) ∧
    (after = before ∨ decodeOnly plan = true ∧ ∃ bucket dg dg',
      (bucket, dg) ∈ before ∧ plan.entries.length ≤ bucket ∧
      Replay blockSize numBlocks dg ((batch plan seqs).map (·.2)) outcome dg' ∧
      after = before.map fun graph => if graph.1 = bucket then (bucket, dg') else graph)
  free id graphs := graphs.map fun graph => (graph.1, graph.2.forget id)
  emits computed := computed.1 _ rfl

inductive ForwardPath where
  | decodeGraph (bucket : Nat)
  | piecewise (bucket : Nat)
  | fused

/-- `ModelRunner.forward` with custom kernels. -/
def forwardPath (graphs : Graphs) (piecewiseBuckets : List Nat) (plan : BatchPlan) : ForwardPath :=
  match if decodeOnly plan then bucketFor (graphs.map (·.1)) plan.entries.length else none with
  | some bucket => .decodeGraph bucket
  | none =>
      match bucketFor piecewiseBuckets (plan.entries.map (·.nTokens)).sum with
      | some bucket => .piecewise bucket
      | none => .fused

def ForwardPath.Fits (graphs : Graphs) (plan : BatchPlan) : ForwardPath → Prop
  | .decodeGraph bucket =>
      decodeOnly plan = true ∧ bucket ∈ graphs.map (·.1) ∧ plan.entries.length ≤ bucket
  | .piecewise bucket => (plan.entries.map (·.nTokens)).sum ≤ bucket
  | .fused => True

theorem forwardPath_fits (graphs : Graphs) (piecewiseBuckets : List Nat) (plan : BatchPlan) :
    (forwardPath graphs piecewiseBuckets plan).Fits graphs plan := by
  unfold forwardPath
  split
  · rename_i found
    split at found
    · rename_i decodes
      exact ⟨decodes, bucketFor_some found⟩
    · cases found
  · split
    · rename_i found
      exact (bucketFor_some found).2
    · trivial

def DecodeGraph.iteration (dg : DecodeGraph) : Iteration where
  inputIds := dg.inputIds
  positionIds := dg.positionIds
  destBlockId := dg.destBlockId
  destWithin := dg.destWithin
  contextLen := dg.contextLen
  queryOffset := dg.queryOffset
  qStart := dg.qStart
  qLen := dg.qLen

def pathIteration (blockSize numBlocks : Nat) (graphs : Graphs) (plan : BatchPlan)
    (seqs : List Sequence) : ForwardPath → Option Iteration
  | .decodeGraph bucket => do
      let graph ← graphs.find? (·.1 = bucket)
      let dg ← graph.2.fillReal blockSize numBlocks ((batch plan seqs).map (·.2))
      pure dg.iteration
  | .piecewise bucket => piecewiseIteration blockSize numBlocks bucket plan seqs
  | .fused => fusedIteration blockSize plan seqs

end LlmServing.Runner
