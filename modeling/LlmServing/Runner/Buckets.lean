import LlmServing.Runner.Rows
import Mathlib.Algebra.GroupWithZero.Nat
import Mathlib.Data.List.Dedup
import Mathlib.Data.List.Sort
import Mathlib.Order.Bounds.Basic

/-!
# The sizes of captured graphs

`decode_graph_buckets` and `piecewise_graph_buckets`. Both lists end at a size that holds the maximum
they are built for, and no size on the way there is much larger than the one before it, which bounds
the padding of `bucket_for`'s choice.
-/

namespace LlmServing.Runner

def doublings (maxBatch last : Nat) : List Nat :=
  if 0 < last ∧ last < maxBatch then last :: doublings maxBatch (last * 2) else [last]
termination_by maxBatch - last

def decodeGraphBuckets (maxBatch : Nat) : List Nat := doublings maxBatch 1

def piecewiseCandidates : List Nat :=
  ((List.range' 4 16).map (2 ^ ·) ++ (List.range' 3 16).map (3 * 2 ^ ·)).dedup.insertionSort (· ≤ ·)

def piecewiseGraphBuckets (maxTokens : Nat) : List Nat :=
  piecewiseCandidates.filter (· < maxTokens) ++ [maxTokens]

theorem exists_doubling {maxBatch last : Nat} (positive : 0 < last) :
    ∃ bucket ∈ doublings maxBatch last, maxBatch ≤ bucket := by
  fun_induction doublings maxBatch last with
  | case1 last small ih =>
      obtain ⟨bucket, member, holds⟩ := ih (by omega)
      exact ⟨bucket, List.mem_cons_of_mem _ member, holds⟩
  | case2 last large => exact ⟨last, by simp, by omega⟩

theorem exists_decodeGraphBucket {n maxBatch : Nat} (fits : n ≤ maxBatch) :
    ∃ bucket ∈ decodeGraphBuckets maxBatch, n ≤ bucket := by
  obtain ⟨bucket, member, holds⟩ := @exists_doubling maxBatch 1 Nat.one_pos
  exact ⟨bucket, member, fits.trans holds⟩

theorem exists_piecewiseGraphBucket {n maxTokens : Nat} (fits : n ≤ maxTokens) :
    ∃ bucket ∈ piecewiseGraphBuckets maxTokens, n ≤ bucket :=
  ⟨maxTokens, by simp [piecewiseGraphBuckets], fits⟩

theorem bucketFor_of_isLeast {buckets : List Nat} {n bucket : Nat}
    (least : IsLeast {b | b ∈ buckets ∧ n ≤ b} bucket) : bucketFor buckets n = some bucket := by
  rw [bucketFor, List.min?_eq_some_iff]
  refine ⟨List.mem_filter.mpr ⟨least.1.1, decide_eq_true least.1.2⟩, fun other member => ?_⟩
  obtain ⟨captured, holds⟩ := List.mem_filter.mp member
  exact least.2 ⟨captured, of_decide_eq_true holds⟩

theorem exists_least {buckets : List Nat} {n : Nat} (holds : ∃ b ∈ buckets, n ≤ b) :
    ∃ b, IsLeast {b | b ∈ buckets ∧ n ≤ b} b :=
  ⟨Nat.find holds, Nat.find_spec holds, fun _ other => Nat.find_min' holds other⟩

theorem exists_bucketFor {buckets : List Nat} {n : Nat} {pads : Nat → Prop}
    (downward : ∀ b c, b ≤ c → pads c → pads b) (holds : ∃ b ∈ buckets, n ≤ b ∧ pads b) :
    ∃ b, IsLeast {b | b ∈ buckets ∧ n ≤ b} b ∧ pads b ∧
      ∀ captured : List Nat, captured.Perm buckets → bucketFor captured n = some b := by
  obtain ⟨c, member, fits, padded⟩ := holds
  obtain ⟨b, least⟩ := exists_least ⟨c, member, fits⟩
  refine ⟨b, least, downward b c (least.2 ⟨member, fits⟩) padded, fun captured perm => ?_⟩
  apply bucketFor_of_isLeast
  simpa only [perm.mem_iff] using least

theorem le_of_mem_doublings {maxBatch last bucket : Nat} (member : bucket ∈ doublings maxBatch last) :
    last ≤ bucket := by
  fun_induction doublings maxBatch last with
  | case1 last small ih =>
      rcases List.mem_cons.mp member with rfl | later
      · exact Nat.le_refl _
      · have doubled := ih later
        omega
  | case2 last large => exact (List.mem_singleton.mp member).ge

theorem doublings_increasing (maxBatch last : Nat) : (doublings maxBatch last).Pairwise (· < ·) := by
  fun_induction doublings maxBatch last with
  | case1 last small ih =>
      refine List.pairwise_cons.mpr ⟨fun bucket member => ?_, ih⟩
      have doubled := le_of_mem_doublings member
      omega
  | case2 last large => exact List.pairwise_singleton _ _

theorem exists_doubling_lt {maxBatch last n : Nat} (positive : 0 < last) (below : last < 2 * n)
    (fits : n ≤ maxBatch) : ∃ bucket ∈ doublings maxBatch last, n ≤ bucket ∧ bucket < 2 * n := by
  fun_induction doublings maxBatch last with
  | case1 last small ih =>
      by_cases holds : n ≤ last
      · exact ⟨last, List.mem_cons_self, holds, below⟩
      · obtain ⟨bucket, member, here⟩ := ih (by omega) (by omega)
        exact ⟨bucket, List.mem_cons_of_mem _ member, here⟩
  | case2 last large => exact ⟨last, List.mem_singleton_self _, by omega, below⟩

theorem piecewiseCandidates_eq : piecewiseCandidates =
    [16, 24, 32, 48, 64, 96, 128, 192, 256, 384, 512, 768, 1024, 1536, 2048, 3072, 4096, 6144, 8192,
      12288, 16384, 24576, 32768, 49152, 65536, 98304, 131072, 196608, 262144, 393216, 524288,
      786432] := by decide +kernel

theorem exists_size_lt {first last n : Nat} {sizes : List Nat}
    (grows : (first :: sizes).IsChain fun size next => 2 * next ≤ 3 * size) (above : first < n)
    (ends : (first :: sizes).getLast? = some last) (below : n ≤ last) :
    ∃ size ∈ first :: sizes, n ≤ size ∧ 2 * size < 3 * n := by
  induction sizes generalizing first with
  | nil =>
      obtain rfl : first = last := by simpa using ends
      omega
  | cons next sizes ih =>
      obtain ⟨half, later⟩ := List.isChain_cons_cons.mp grows
      by_cases holds : n ≤ next
      · exact ⟨next, by simp, holds, by omega⟩
      · rw [List.getLast?_cons_cons] at ends
        obtain ⟨size, member, here⟩ := ih later (by omega) ends
        exact ⟨size, List.mem_cons_of_mem _ member, here⟩

theorem piecewiseGraphBuckets_increasing (maxTokens : Nat) :
    (piecewiseGraphBuckets maxTokens).Pairwise (· < ·) := by
  have increasing : piecewiseCandidates.Pairwise (· < ·) := by
    rw [piecewiseCandidates_eq]
    decide +kernel
  refine List.pairwise_append.mpr ⟨increasing.filter _, List.pairwise_singleton _ _, ?_⟩
  intro size member last ends
  rw [List.mem_singleton.mp ends]
  exact of_decide_eq_true (List.mem_filter.mp member).2

theorem exists_piecewise_lt {maxTokens n : Nat} (fits : n ≤ maxTokens) (above : 16 < n)
    (below : n ≤ 3 * 2 ^ 18) : ∃ bucket ∈ piecewiseGraphBuckets maxTokens,
      n ≤ bucket ∧ 2 * bucket < 3 * n := by
  obtain ⟨size, member, holds, padded⟩ : ∃ size ∈ piecewiseCandidates,
      n ≤ size ∧ 2 * size < 3 * n := by
    rw [piecewiseCandidates_eq]
    exact exists_size_lt (by decide +kernel) above rfl below
  by_cases cut : size < maxTokens
  · exact ⟨size, List.mem_append_left _ (List.mem_filter.mpr ⟨member, decide_eq_true cut⟩),
      holds, padded⟩
  · exact ⟨maxTokens, List.mem_append_right _ (List.mem_singleton_self _), fits, by omega⟩

/-- `bucket_for` over a captured list pads a decode batch to less than twice its size, and any other
iteration that is larger than the smallest bucket to less than one and a half times its tokens. -/
theorem bucket_padding :
    (∀ maxBatch, (decodeGraphBuckets maxBatch).Pairwise (· < ·) ∧
      ∀ n, 1 ≤ n → n ≤ maxBatch →
        ∃ b, IsLeast {b | b ∈ decodeGraphBuckets maxBatch ∧ n ≤ b} b ∧ b < 2 * n ∧
          ∀ captured : List Nat, captured.Perm (decodeGraphBuckets maxBatch) →
            bucketFor captured n = some b) ∧
    ∀ maxTokens, (piecewiseGraphBuckets maxTokens).Pairwise (· < ·) ∧
      ∀ n, 1 ≤ n → n ≤ maxTokens →
        ∃ b, IsLeast {b | b ∈ piecewiseGraphBuckets maxTokens ∧ n ≤ b} b ∧
          (16 < n ∧ n ≤ 3 * 2 ^ 18 → 2 * b < 3 * n) ∧
          ∀ captured : List Nat, captured.Perm (piecewiseGraphBuckets maxTokens) →
            bucketFor captured n = some b := by
  refine ⟨fun maxBatch => ⟨doublings_increasing _ _, fun n positive fits => ?_⟩,
    fun maxTokens => ⟨piecewiseGraphBuckets_increasing _, fun n positive fits => ?_⟩⟩
  · apply exists_bucketFor (fun b c le padded => by omega)
    exact exists_doubling_lt Nat.one_pos (by omega) fits
  · apply exists_bucketFor (fun b c le padded middle => by
      have above := padded middle
      omega)
    by_cases middle : 16 < n ∧ n ≤ 3 * 2 ^ 18
    · obtain ⟨b, member, holds, padded⟩ := exists_piecewise_lt fits middle.1 middle.2
      exact ⟨b, member, holds, fun _ => padded⟩
    · obtain ⟨b, member, holds⟩ := exists_piecewiseGraphBucket fits
      exact ⟨b, member, holds, fun here => absurd here middle⟩

theorem bucket_padding_sample :
    (∃ b < 2 * 5, bucketFor [8, 4, 2, 1] 5 = some b) ∧
    ∃ b, 2 * b < 3 * 17 ∧ bucketFor [20, 16] 17 = some b := by
  obtain ⟨b, -, decodes, captured⟩ := (bucket_padding.1 6).2 5 (by decide) (by decide)
  obtain ⟨b', -, tokens, captured'⟩ := (bucket_padding.2 20).2 17 (by decide) (by decide)
  have doubled : decodeGraphBuckets 6 = [1, 2, 4, 8] := by
    simp [decodeGraphBuckets, doublings]
  have cut : piecewiseGraphBuckets 20 = [16, 20] := by
    rw [piecewiseGraphBuckets, piecewiseCandidates_eq]
    decide
  exact ⟨⟨b, decodes, captured _ (doubled ▸ by decide)⟩,
    b', tokens (by decide), captured' _ (cut ▸ by decide)⟩

end LlmServing.Runner
