import LlmServing.Runner.Rows
import Mathlib.Logic.Function.Basic

/-!
# The path of the contiguous cache

What `contiguous_attention` does to `_kv_cache`: each layer appends the keys and values of an entry's
tokens to the one buffer of its sequence. The kernel it launches is in `Kernels/FlashAttention.lean`.
-/

namespace LlmServing.Runner

open Scheduling

/-- `(k_buf, v_buf, filled)`: `tokens` are those whose keys and values fill the first `filled` of
`capacity` slots. -/
structure KvBuffer where
  capacity : Nat
  tokens : List Token
  inside : tokens.length ≤ capacity

namespace KvBuffer

def filled (buf : KvBuffer) : Nat := buf.tokens.length

def empty (seq : Sequence) : KvBuffer :=
  ⟨seq.promptTokens.length + seq.samplingParams.maxTokens, [], Nat.zero_le _⟩

/-- The write to `[filled, filled + n_new)`. One that passes the end of the buffer is `none`. -/
def write (buf : KvBuffer) (new : List Token) : Option KvBuffer :=
  if fits : buf.tokens.length + new.length ≤ buf.capacity then
    some ⟨buf.capacity, buf.tokens ++ new, by rwa [List.length_append]⟩
  else none

variable {buf buf' : KvBuffer} {new : List Token}

theorem exists_write (fits : buf.filled + new.length ≤ buf.capacity) :
    ∃ buf', buf.write new = some buf' :=
  ⟨_, dif_pos fits⟩

theorem write_some (wrote : buf.write new = some buf') :
    buf.filled + new.length ≤ buf.capacity ∧ buf'.capacity = buf.capacity ∧
      buf'.tokens = buf.tokens ++ new := by
  unfold write at wrote
  split at wrote
  · rename_i fits
    obtain rfl := Option.some.inj wrote
    exact ⟨fits, rfl, rfl⟩
  · cases wrote

end KvBuffer

abbrev Buffers := Nat → SeqId → Option KvBuffer

def attendEntry (tokenIds : List Token) (cache : SeqId → Option KvBuffer) :
    (BatchEntry × Sequence) × Nat × Nat → Option (SeqId → Option KvBuffer)
  | ((entry, seq), start, stop) =>
      let buf := (cache entry.seqId).getD (.empty seq)
      (buf.write (Sequence.slice tokenIds start stop)).map fun buf =>
        Function.update cache entry.seqId (some buf)

def contiguousAttention (plan : BatchPlan) (seqs : List Sequence) (flat : FlatRows)
    (cache : SeqId → Option KvBuffer) : Option (SeqId → Option KvBuffer) :=
  ((batch plan seqs).zip flat.offsets).foldlM (attendEntry flat.tokenIds) cache

/-- `forward_fused` without a pool, layer by layer. -/
def forwardContiguous (layers : Nat) (plan : BatchPlan) (seqs : List Sequence) (buffers : Buffers) :
    Option Buffers :=
  (List.range layers).foldlM (fun buffers layer =>
    (contiguousAttention plan seqs (flatRows plan seqs) (buffers layer)).map
      (Function.update buffers layer)) buffers

/-- A forward pass that raises may leave anything in the buffers of its own batch. -/
def contiguousRunner (layers : Nat) (eosTokenIds : List Token) : ModelRunner Buffers where
  eosTokenIds
  forward plan seqs before outcome after :=
    match outcome with
    | .results results =>
        forwardContiguous layers plan seqs before = some after ∧
        ∃ tokens : List Token, tokens.length = (owed plan seqs).length ∧
          results = emitTokens eosTokenIds (owed plan seqs) tokens
    | .failed | .deviceLost => ∀ layer, ∀ id ∉ plan.ids, after layer id = before layer id
  free id buffers layer := Function.update (buffers layer) id none
  emits computed := computed.2

theorem zip_offsets (pairs : List (BatchEntry × Sequence)) (rows : FlatRows)
    (sizes : ∀ pair ∈ pairs, (entryTokenIds pair.1 pair.2).length = pair.1.nTokens) :
    ∃ spans, (pairs.foldl flatRow rows).offsets = rows.offsets ++ spans ∧
      spans.length = pairs.length ∧ rows.tokenIds <+: (pairs.foldl flatRow rows).tokenIds ∧
      ∀ item ∈ pairs.zip spans,
        Sequence.slice (pairs.foldl flatRow rows).tokenIds item.2.1 item.2.2 =
          entryTokenIds item.1.1 item.1.2 := by
  induction pairs generalizing rows with
  | nil => exact ⟨[], by simp⟩
  | cons pair rest ih =>
      obtain ⟨entry, seq⟩ := pair
      have size := sizes (entry, seq) (by simp)
      obtain ⟨spans, offsets, each, ⟨more, extended⟩, named⟩ := ih (flatRow rows (entry, seq))
        fun other member => sizes other (by simp [member])
      rw [List.foldl_cons]
      refine ⟨(rows.tokenIds.length, rows.tokenIds.length + entry.nTokens) :: spans, ?_,
        by simp [each], ⟨entryTokenIds entry seq ++ more, ?_⟩, ?_⟩
      · rw [offsets]
        simp [flatRow]
      · rw [← extended]
        simp [flatRow]
      · rw [List.zip_cons_cons, List.forall_mem_cons]
        refine ⟨?_, named⟩
        have whole : (entryTokenIds entry seq).length = entry.nTokens := size
        rw [← extended]
        simp [Sequence.slice, flatRow, ← whole, List.take_append]

structure Attended (pairs : List (BatchEntry × Sequence)) (before after : SeqId → Option KvBuffer) :
    Prop where
  written : ∀ pair ∈ pairs, ∃ buf,
    ((before pair.2.seqId).getD (.empty pair.2)).write (entryTokenIds pair.1 pair.2) = some buf ∧
    after pair.2.seqId = some buf
  others : ∀ id ∉ pairs.map (·.2.seqId), after id = before id

def Roomed (cache : SeqId → Option KvBuffer) (pair : BatchEntry × Sequence) : Prop :=
  ((cache pair.2.seqId).getD (.empty pair.2)).filled + (entryTokenIds pair.1 pair.2).length ≤
    ((cache pair.2.seqId).getD (.empty pair.2)).capacity

variable {tokenIds : List Token} {pairs rest : List (BatchEntry × Sequence)}
  {cache : SeqId → Option KvBuffer} {entry : BatchEntry} {seq : Sequence}

def attendOwn (cache : SeqId → Option KvBuffer) (pair : BatchEntry × Sequence) :
    Option (SeqId → Option KvBuffer) :=
  (((cache pair.2.seqId).getD (.empty pair.2)).write (entryTokenIds pair.1 pair.2)).map fun buf =>
    Function.update cache pair.2.seqId (some buf)

theorem foldlM_attendEntry {spans : List (Nat × Nat)} (each : spans.length = pairs.length)
    (ids : ∀ pair ∈ pairs, pair.1.seqId = pair.2.seqId)
    (named : ∀ item ∈ pairs.zip spans,
      Sequence.slice tokenIds item.2.1 item.2.2 = entryTokenIds item.1.1 item.1.2) :
    (pairs.zip spans).foldlM (attendEntry tokenIds) cache = pairs.foldlM attendOwn cache := by
  induction pairs generalizing spans cache with
  | nil => rfl
  | cons pair rest ih =>
      obtain ⟨⟨start, stop⟩, spans, rfl⟩ : ∃ span tail, spans = span :: tail :=
        List.exists_cons_of_length_pos (by simp [each])
      rw [List.zip_cons_cons, List.forall_mem_cons] at named
      rw [List.forall_mem_cons] at ids
      have round : attendEntry tokenIds cache (pair, start, stop) = attendOwn cache pair := by
        simp only [attendEntry, attendOwn, ids.1, named.1]
      rw [List.zip_cons_cons, List.foldlM_cons, List.foldlM_cons, round]
      exact congrArg _ (funext fun _ => ih (by simpa using each) ids.2 named.2)

theorem Attended.cons {buf : KvBuffer} {after : SeqId → Option KvBuffer}
    (absent : seq.seqId ∉ rest.map (·.2.seqId))
    (wrote : ((cache seq.seqId).getD (.empty seq)).write (entryTokenIds entry seq) = some buf)
    (attended : Attended rest (Function.update cache seq.seqId (some buf)) after) :
    Attended ((entry, seq) :: rest) cache after := by
  obtain ⟨written, others⟩ := attended
  have here (id : SeqId) (other : id ≠ seq.seqId) :
      Function.update cache seq.seqId (some buf) id = cache id :=
    Function.update_of_ne other _ _
  refine ⟨?_, fun id apart => ?_⟩
  · rw [List.forall_mem_cons]
    refine ⟨⟨buf, wrote, (others _ absent).trans (Function.update_self _ _ _)⟩, ?_⟩
    intro other member
    have apart : other.2.seqId ≠ seq.seqId := fun same =>
      absent (same ▸ List.mem_map_of_mem member)
    rw [← here _ apart]
    exact written other member
  · simp only [List.map_cons, List.mem_cons, not_or] at apart
    exact (others id apart.2).trans (here id apart.1)

theorem attended_of_foldlM {after : SeqId → Option KvBuffer}
    (distinct : (pairs.map (·.2.seqId)).Nodup) (folded : pairs.foldlM attendOwn cache = some after) :
    Attended pairs cache after := by
  induction pairs generalizing cache with
  | nil =>
      obtain rfl := Option.some.inj folded
      exact ⟨List.forall_mem_nil _, fun _ _ => rfl⟩
  | cons pair rest ih =>
      rw [List.map_cons, List.nodup_cons] at distinct
      rw [List.foldlM_cons, Option.bind_eq_bind, Option.bind_eq_some_iff] at folded
      obtain ⟨_, updated, folded⟩ := folded
      obtain ⟨buf, wrote, rfl⟩ := Option.map_eq_some_iff.mp updated
      exact (ih distinct.2 folded).cons distinct.1 wrote

theorem exists_foldlM_attendOwn (distinct : (pairs.map (·.2.seqId)).Nodup)
    (roomed : ∀ pair ∈ pairs, Roomed cache pair) :
    ∃ after, pairs.foldlM attendOwn cache = some after := by
  induction pairs generalizing cache with
  | nil => exact ⟨cache, rfl⟩
  | cons pair rest ih =>
      rw [List.map_cons, List.nodup_cons] at distinct
      rw [List.forall_mem_cons] at roomed
      obtain ⟨buf, wrote⟩ := KvBuffer.exists_write roomed.1
      rw [List.foldlM_cons, attendOwn, wrote]
      refine ih distinct.2 fun other member => ?_
      have apart : other.2.seqId ≠ pair.2.seqId := fun same =>
        distinct.1 (same ▸ List.mem_map_of_mem member)
      have kept : Function.update cache pair.2.seqId (some buf) other.2.seqId =
          cache other.2.seqId := Function.update_of_ne apart _ _
      simp only [Roomed, kept]
      exact roomed.2 other member

variable {layers layer : Nat} {plan : BatchPlan} {seqs : List Sequence} {buffers after : Buffers}

theorem forwardContiguous_succ (layers : Nat) (plan : BatchPlan) (seqs : List Sequence)
    (buffers : Buffers) :
    forwardContiguous (layers + 1) plan seqs buffers =
      (forwardContiguous layers plan seqs buffers).bind fun buffers =>
        (contiguousAttention plan seqs (flatRows plan seqs) (buffers layers)).map
          (Function.update buffers layers) := by
  simp [forwardContiguous, List.range_succ, List.foldlM_append]

theorem contiguousAttention_eq
    (sizes : ∀ pair ∈ batch plan seqs, (entryTokenIds pair.1 pair.2).length = pair.1.nTokens)
    (cache : SeqId → Option KvBuffer) :
    contiguousAttention plan seqs (flatRows plan seqs) cache =
      (batch plan seqs).foldlM attendOwn cache := by
  obtain ⟨spans, offsets, each, -, named⟩ := zip_offsets (batch plan seqs) {} sizes
  have ids : ∀ pair ∈ batch plan seqs, pair.1.seqId = pair.2.seqId := by
    rintro ⟨entry, seq⟩ member
    exact (lookup_some (mem_batch.mp member).2).2.symm
  rw [contiguousAttention, flatRows, offsets, List.nil_append]
  exact foldlM_attendEntry each ids named

theorem forwardContiguous_attended (distinct : ((batch plan seqs).map (·.2.seqId)).Nodup)
    (sizes : ∀ pair ∈ batch plan seqs, (entryTokenIds pair.1 pair.2).length = pair.1.nTokens)
    (computed : forwardContiguous layers plan seqs buffers = some after) :
    (∀ layer < layers, Attended (batch plan seqs) (buffers layer) (after layer)) ∧
      ∀ layer, layers ≤ layer → after layer = buffers layer := by
  induction layers generalizing after with
  | zero =>
      obtain rfl := Option.some.inj computed
      exact ⟨fun _ below => absurd below (Nat.not_lt_zero _), fun _ _ => rfl⟩
  | succ layers ih =>
      rw [forwardContiguous_succ, Option.bind_eq_some_iff] at computed
      obtain ⟨middle, computed, last⟩ := computed
      obtain ⟨cache, attended, rfl⟩ := Option.map_eq_some_iff.mp last
      obtain ⟨done, same⟩ := ih computed
      refine ⟨fun layer below => ?_, fun layer above => ?_⟩
      · by_cases here : layer = layers
        · subst here
          rw [Function.update_self, ← same layer (Nat.le_refl layer)]
          exact attended_of_foldlM distinct (contiguousAttention_eq sizes _ ▸ attended)
        · rw [Function.update_of_ne here]
          exact done layer (by omega)
      · rw [Function.update_of_ne (by omega)]
        exact same layer (by omega)

theorem exists_forwardContiguous (distinct : ((batch plan seqs).map (·.2.seqId)).Nodup)
    (sizes : ∀ pair ∈ batch plan seqs, (entryTokenIds pair.1 pair.2).length = pair.1.nTokens)
    (roomed : ∀ layer < layers, ∀ pair ∈ batch plan seqs, Roomed (buffers layer) pair) :
    ∃ after, forwardContiguous layers plan seqs buffers = some after := by
  induction layers with
  | zero => exact ⟨buffers, rfl⟩
  | succ layers ih =>
      obtain ⟨middle, computed⟩ := ih fun layer below => roomed layer (by omega)
      have same := (forwardContiguous_attended distinct sizes computed).2 layers (Nat.le_refl _)
      obtain ⟨cache, last⟩ := exists_foldlM_attendOwn distinct
        (roomed layers (Nat.lt_succ_self layers))
      refine ⟨Function.update middle layers cache, ?_⟩
      rw [forwardContiguous_succ, computed, Option.bind_some, contiguousAttention_eq sizes, same, last,
        Option.map_some]

end LlmServing.Runner
