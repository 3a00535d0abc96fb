import LlmServing.Runner.ModelRunner
import Mathlib.Data.List.Basic

/-!
# The rows of one iteration

`_flat_rows` and `_paging_rows` of `model_runner.py`, and what the fused and the piecewise path feed
the model from them. An index past the end of a block table is the `none` of `pagingRow`, where the
source raises.
-/

namespace LlmServing.Runner

open Scheduling

/-- The three lists of `_flat_rows`, part way through its loop. -/
structure FlatRows where
  tokenIds : List Token := []
  positions : List Nat := []
  offsets : List (Nat × Nat) := []
  deriving DecidableEq

def startPos (entry : BatchEntry) (seq : Sequence) : Nat :=
  if entry.isPrefillChunk then seq.prefillProgress - entry.nTokens else seq.numTokens - 1

def flatRow (rows : FlatRows) : BatchEntry × Sequence → FlatRows
  | (entry, seq) =>
      { tokenIds := rows.tokenIds ++ entryTokenIds entry seq
        positions := rows.positions ++ List.range' (startPos entry seq) entry.nTokens
        offsets := rows.offsets ++ [(rows.tokenIds.length, rows.tokenIds.length + entry.nTokens)] }

def flatRows (plan : BatchPlan) (seqs : List Sequence) : FlatRows :=
  (batch plan seqs).foldl flatRow {}

structure PagingRows where
  blockTable : List (List Nat) := []
  contextLen : List Nat := []
  queryOffset : List Nat := []
  qStart : List Nat := []
  qLen : List Nat := []
  destBlockId : List Nat := []
  destWithin : List Nat := []
  deriving DecidableEq

def pagingRow (blockSize maxBlocks : Nat) (rows : PagingRows) :
    BlockTable × Nat × Nat → Option PagingRows
  | (table, start, stop) => do
      let physical := table.physicalBlocks
      let cached := table.numTokens - (stop - start)
      let positions := List.range' cached (table.numTokens - cached)
      let blocks ← positions.mapM fun pos => physical[pos / blockSize]?
      pure
        { blockTable := rows.blockTable ++
            [physical ++ List.replicate (maxBlocks - physical.length) 0]
          contextLen := rows.contextLen ++ [table.numTokens]
          queryOffset := rows.queryOffset ++ [cached]
          qStart := rows.qStart ++ [start]
          qLen := rows.qLen ++ [stop - start]
          destBlockId := rows.destBlockId ++ blocks
          destWithin := rows.destWithin ++ positions.map (· % blockSize) }

def maxBlocks (tables : List BlockTable) : Nat :=
  (tables.map (·.physicalBlocks.length)).foldl max 0

def pagingRows (blockSize : Nat) (plan : BatchPlan) (seqs : List Sequence)
    (offsets : List (Nat × Nat)) : Option PagingRows :=
  let tables := (batch plan seqs).map (·.2.blockTable)
  (tables.zip offsets).foldlM (pagingRow blockSize (maxBlocks tables)) {}

/-- What one iteration feeds the model: four rows of one column a token, and four of one column an
entry. -/
structure Iteration where
  inputIds : List Token
  positionIds : List Nat
  destBlockId : List Nat
  destWithin : List Nat
  contextLen : List Nat
  queryOffset : List Nat
  qStart : List Nat
  qLen : List Nat
  deriving DecidableEq

def fusedIteration (blockSize : Nat) (plan : BatchPlan) (seqs : List Sequence) :
    Option Iteration := do
  let flat := flatRows plan seqs
  let rows ← pagingRows blockSize plan seqs flat.offsets
  pure
    { inputIds := flat.tokenIds
      positionIds := flat.positions
      destBlockId := rows.destBlockId
      destWithin := rows.destWithin
      contextLen := rows.contextLen
      queryOffset := rows.queryOffset
      qStart := rows.qStart
      qLen := rows.qLen }

def piecewiseIteration (blockSize scratch bucket : Nat) (plan : BatchPlan) (seqs : List Sequence) :
    Option Iteration := do
  let flat := flatRows plan seqs
  let rows ← pagingRows blockSize plan seqs flat.offsets
  let pad := bucket - flat.tokenIds.length
  pure
    { inputIds := flat.tokenIds ++ List.replicate pad 0
      positionIds := flat.positions ++ List.replicate pad 0
      destBlockId := rows.destBlockId ++ List.replicate pad scratch
      destWithin := rows.destWithin ++ List.replicate pad 0
      contextLen := rows.contextLen
      queryOffset := rows.queryOffset
      qStart := rows.qStart
      qLen := rows.qLen }

/-- `bucket_for` of both graph runners: the smallest captured bucket that holds `n`. -/
def bucketFor (buckets : List Nat) (n : Nat) : Option Nat := (buckets.filter (n ≤ ·)).min?

theorem bucketFor_some {buckets : List Nat} {n bucket : Nat}
    (found : bucketFor buckets n = some bucket) : bucket ∈ buckets ∧ n ≤ bucket := by
  have member := List.min?_mem found
  rw [List.mem_filter] at member
  exact ⟨member.1, of_decide_eq_true member.2⟩

end LlmServing.Runner
