import LlmServing.Kernels.Paged
import LlmServing.Paged.Rows

/-!
# The batch the kernel is given

The rows of `_paging_rows`, on the device: entries that stand one after the other in the flattened batch.
-/

namespace LlmServing.Paged

open Scheduling Runner Engine Lib Kernels

def toDevice (rows : PagingRows) : PagedBatch where
  entries := rows.blockTable.length
  blockTable e cell := (rows.blockTable.getD e []).getD cell 0
  contextLen e := rows.contextLen.getD e 0
  queryOffset e := rows.queryOffset.getD e 0
  qStart e := rows.qStart.getD e 0
  qLen e := rows.qLen.getD e 0
  maxQLen := rows.qLen.foldl max 0

theorem le_foldl_max (xs : List Nat) (m e : Nat) : xs.getD e 0 ≤ xs.foldl max m := by
  have start (xs : List Nat) (m : Nat) : m ≤ xs.foldl max m := by
    induction xs generalizing m with
    | nil => exact Nat.le_refl m
    | cons x rest ih => exact (Nat.le_max_left m x).trans (ih (max m x))
  induction xs generalizing m e with
  | nil => exact Nat.zero_le m
  | cons x rest ih =>
      cases e with
      | zero => exact (Nat.le_max_right m x).trans (start rest (max m x))
      | succ e => exact ih (max m x) e

theorem spans_start (pairs : List (BatchEntry × Sequence)) (start : Nat) {e : Nat}
    (inside : e < pairs.length) :
    ((spans start pairs).map (·.1)).getD e 0 =
      start + spanStart (fun i => (pairs.map (·.1.nTokens)).getD i 0) e := by
  induction pairs generalizing start e with
  | nil => cases inside
  | cons pair rest ih =>
      cases e with
      | zero => rfl
      | succ e =>
          have later := ih (start + pair.1.nTokens) (Nat.lt_of_succ_lt_succ inside)
          have first : spanStart (fun i => ((pair :: rest).map (·.1.nTokens)).getD i 0) (e + 1) =
              spanStart (fun i => (rest.map (·.1.nTokens)).getD i 0) e + pair.1.nTokens :=
            Finset.sum_range_succ' _ e
          rw [first, Nat.add_comm (spanStart _ e), ← Nat.add_assoc, ← later]
          rfl

end LlmServing.Paged
