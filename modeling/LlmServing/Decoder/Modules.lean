import LlmServing.Kernels.FlashAttention
import LlmServing.Lib.CausalStack
import LlmServing.Lib.Writes
import LlmServing.Runner.Sampling

/-!
# The decoder

`decoder_hidden` of `model_runner.py` and its paged attention, on values. The model's own modules act
on one token's row at a time, and attention on a query's row and the keys and values it sees, in exact
arithmetic; what they compute is left open.
-/

namespace LlmServing.Decoder

open Scheduling Runner Lib Kernels

/-- A tensor of one row for each token of a flattened batch. -/
abbrev TokenRows (α : Type) := Nat → α

/-- A Llama-family model. `rotaryEmb` is `cos` and `sin` at a position; a query, key, value or output
has all its heads. -/
structure Modules where
  Hidden : Type
  Rotary : Type
  Query : Type
  Key : Type
  Value : Type
  Output : Type
  vocab : Nat
  vocab_pos : 0 < vocab
  layers : Nat
  layers_pos : 0 < layers
  embedTokens : Token → Hidden
  rotaryEmb : Nat → Rotary
  inputLayernorm : Nat → Hidden → Hidden
  qProj : Nat → Hidden → Query
  kProj : Nat → Hidden → Key
  vProj : Nat → Hidden → Value
  rotateQuery : Rotary → Query → Query
  rotateKey : Rotary → Key → Key
  attention : Query → List (Key × Value) → Output
  oProj : Nat → Output → Hidden
  postAttentionLayernorm : Nat → Hidden → Hidden
  mlp : Nat → Hidden → Hidden
  add : Hidden → Hidden → Hidden
  norm : Hidden → Hidden
  outputEmbeddings : Hidden → Row vocab

structure DeviceBatch where
  inputIds : List Token
  positionIds : List Nat
  destBlockId : List Nat
  destWithin : List Nat
  paging : PagedBatch

def DeviceBatch.dest (batch : DeviceBatch) : List (Nat × Nat) :=
  batch.destBlockId.zip batch.destWithin

namespace Modules

variable (m : Modules)

instance : NeZero m.vocab := NeZero.of_pos m.vocab_pos

def query (layer : Nat) (rotary : m.Rotary) (normed : m.Hidden) : m.Query :=
  m.rotateQuery rotary (m.qProj layer normed)

def key (layer : Nat) (rotary : m.Rotary) (normed : m.Hidden) : m.Key :=
  m.rotateKey rotary (m.kProj layer normed)

def value (layer : Nat) (normed : m.Hidden) : m.Value := m.vProj layer normed

def keyValue (layer : Nat) (rotary : m.Rotary) (normed : m.Hidden) : m.Key × m.Value :=
  (m.key layer rotary normed, m.value layer normed)

def afterAttention (layer : Nat) (hidden out : m.Hidden) : m.Hidden :=
  let hidden := m.add hidden out
  m.add hidden (m.mlp layer (m.postAttentionLayernorm layer hidden))

/-- The model on one sequence, without a cache: every position attends over those up to it. -/
def stack : CausalStack m.Hidden (m.Key × m.Value) where
  cell layer position hidden :=
    m.keyValue layer (m.rotaryEmb position) (m.inputLayernorm layer hidden)
  next layer position hidden cells :=
    m.afterAttention layer hidden (m.oProj layer
      (m.attention (m.query layer (m.rotaryEmb position) (m.inputLayernorm layer hidden)) cells))

def embedded (tokens : List Token) (position : Nat) : m.Hidden :=
  m.embedTokens (tokens.getD position 0)

def hiddenAt (tokens : List Token) (layer position : Nat) : m.Hidden :=
  m.stack.state (m.embedded tokens) layer position

def cellAt (tokens : List Token) (layer position : Nat) : m.Key × m.Value :=
  m.stack.cellAt (m.embedded tokens) layer position

def logits (tokens : List Token) : Row m.vocab :=
  m.outputEmbeddings (m.norm (m.hiddenAt tokens m.layers (tokens.length - 1)))

def projectQkv (normed : TokenRows m.Hidden) (positionEmbeddings : TokenRows m.Rotary)
    (layer : Nat) : TokenRows m.Query × TokenRows m.Key × TokenRows m.Value :=
  (fun i => m.query layer (positionEmbeddings i) (normed i),
    fun i => m.key layer (positionEmbeddings i) (normed i), fun i => m.value layer (normed i))

abbrev Attend (ρ : Type) :=
  Nat → TokenRows m.Hidden → TokenRows m.Rotary → ρ → TokenRows m.Hidden → ρ → Prop

inductive DecoderLayers {ρ : Type} (attend : m.Attend ρ) (positionEmbeddings : TokenRows m.Rotary)
    (start : TokenRows m.Hidden) (before : ρ) : Nat → TokenRows m.Hidden → ρ → Prop where
  | start : DecoderLayers attend positionEmbeddings start before 0 start before
  | layer {layer : Nat} {hidden out : TokenRows m.Hidden} {state after : ρ} :
      DecoderLayers attend positionEmbeddings start before layer hidden state →
      attend layer (fun i => m.inputLayernorm layer (hidden i)) positionEmbeddings state out after →
      DecoderLayers attend positionEmbeddings start before (layer + 1)
        (fun i => m.afterAttention layer (hidden i) (out i)) after

def embedRows (inputIds : List Token) : TokenRows m.Hidden :=
  fun i => m.embedTokens (inputIds.getD i 0)

def rotaryRows (positionIds : List Nat) : TokenRows m.Rotary :=
  fun i => m.rotaryEmb (positionIds.getD i 0)

def DecoderHidden {ρ : Type} (attend : m.Attend ρ) (inputIds : List Token) (positionIds : List Nat)
    (before : ρ) (hidden : TokenRows m.Hidden) (after : ρ) : Prop :=
  ∃ last, m.DecoderLayers attend (m.rotaryRows positionIds) (m.embedRows inputIds) before m.layers
    last after ∧ hidden = fun i => m.norm (last i)

/-- `_k_pool` and `_v_pool`, by layer and then `(block, offset)`. -/
structure Pools where
  k : Nat → Nat × Nat → m.Key
  v : Nat → Nat × Nat → m.Value

def Pools.cell {m : Modules} (pools : m.Pools) (layer : Nat) (slot : Nat × Nat) : m.Key × m.Value :=
  (pools.k layer slot, pools.v layer slot)

structure WriteKvAndProjectQ (normed : TokenRows m.Hidden) (positionEmbeddings : TokenRows m.Rotary)
    (layer : Nat) (dest : List (Nat × Nat)) (before : m.Pools) (q : TokenRows m.Query)
    (after : m.Pools) : Prop where
  k : Assigned dest (m.projectQkv normed positionEmbeddings layer).2.1 (before.k layer) (after.k layer)
  v : Assigned dest (m.projectQkv normed positionEmbeddings layer).2.2 (before.v layer) (after.v layer)
  others : ∀ other ≠ layer, after.k other = before.k other ∧ after.v other = before.v other
  q : q = (m.projectQkv normed positionEmbeddings layer).1

/-- What the launch leaves in its output, made by `torch.empty_like`: a row that no entry has may hold
anything. -/
def AttendPaged (blockSize : Nat) (q : TokenRows m.Query) (layer : Nat) (paging : PagedBatch)
    (pools : m.Pools) (attn : TokenRows m.Output) : Prop :=
  ∀ e < paging.entries, ∀ r < min (paging.qLen e) paging.maxQLen,
    attn (paging.qStart e + r) = m.attention (q (paging.qStart e + r))
      ((List.range (min (paging.contextLen e) (paging.queryOffset e + r + 1))).map fun p =>
        pools.cell layer (paging.blockTable e (p / blockSize), p % blockSize))

def PagedAttention (blockSize : Nat) (dest : List (Nat × Nat)) (paging : PagedBatch) :
    m.Attend m.Pools :=
  fun layer normed positionEmbeddings before out after => ∃ q attn,
    m.WriteKvAndProjectQ normed positionEmbeddings layer dest before q after ∧
    m.AttendPaged blockSize q layer paging after attn ∧ out = fun i => m.oProj layer (attn i)

end Modules

def RowsApart (paging : PagedBatch) : Prop :=
  ∀ e < paging.entries, ∀ r < min (paging.qLen e) paging.maxQLen, ∀ e' < paging.entries,
    ∀ r' < min (paging.qLen e') paging.maxQLen,
    paging.qStart e + r = paging.qStart e' + r' → e = e' ∧ r = r'

namespace Modules

variable {m : Modules} {blockSize : Nat} {paging : PagedBatch}

theorem exists_attendPaged (apart : RowsApart paging) (q : TokenRows m.Query) (layer : Nat)
    (pools : m.Pools) : ∃ attn, m.AttendPaged blockSize q layer paging pools attn := by
  classical
  let Row (i e r : Nat) : Prop :=
    e < paging.entries ∧ r < min (paging.qLen e) paging.maxQLen ∧ i = paging.qStart e + r
  let attended (e r : Nat) : m.Output := m.attention (q (paging.qStart e + r))
    ((List.range (min (paging.contextLen e) (paging.queryOffset e + r + 1))).map fun p =>
      pools.cell layer (paging.blockTable e (p / blockSize), p % blockSize))
  have each (i : Nat) : ∃ out : m.Output, ∀ e r, Row i e r → out = attended e r := by
    by_cases some : ∃ e r, Row i e r
    · obtain ⟨e, r, here⟩ := some
      refine ⟨attended e r, fun e' r' there => ?_⟩
      obtain ⟨rfl, rfl⟩ := apart e here.1 r here.2.1 e' there.1 r' there.2.1
        (here.2.2.symm.trans there.2.2)
      rfl
    · exact ⟨m.attention (q i) [], fun e r here => absurd ⟨e, r, here⟩ some⟩
  exact ⟨fun i => (each i).choose, fun e inside r row =>
    (each _).choose_spec e r ⟨inside, row, rfl⟩⟩

theorem exists_write (normed : TokenRows m.Hidden) (rotary : TokenRows m.Rotary) (layer : Nat)
    (dest : List (Nat × Nat)) (before : m.Pools) :
    ∃ q after, m.WriteKvAndProjectQ normed rotary layer dest before q after := by
  obtain ⟨k, writtenK⟩ := Assigned.exists dest (m.projectQkv normed rotary layer).2.1 (before.k layer)
  obtain ⟨v, writtenV⟩ := Assigned.exists dest (m.projectQkv normed rotary layer).2.2 (before.v layer)
  refine ⟨_, ⟨Function.update before.k layer k, Function.update before.v layer v⟩, ?_, ?_, ?_, rfl⟩
  · simpa using writtenK
  · simpa using writtenV
  · intro other different
    exact ⟨Function.update_of_ne different _ _, Function.update_of_ne different _ _⟩

theorem exists_decoderLayers (apart : RowsApart paging) (dest : List (Nat × Nat))
    (rotary : TokenRows m.Rotary) (start : TokenRows m.Hidden) (before : m.Pools) (done : Nat) :
    ∃ hidden after, m.DecoderLayers (m.PagedAttention blockSize dest paging) rotary start before done
      hidden after := by
  induction done with
  | zero => exact ⟨start, before, .start⟩
  | succ layer ih =>
      obtain ⟨hidden, state, layers⟩ := ih
      obtain ⟨q, after, written⟩ := exists_write (fun i => m.inputLayernorm layer (hidden i)) rotary
        layer dest state
      obtain ⟨attn, attended⟩ := exists_attendPaged apart q layer after
      exact ⟨_, after, .layer layers ⟨q, attn, written, attended, rfl⟩⟩

end Modules

def sampleModules : Modules where
  Hidden := Nat
  Rotary := Nat
  Query := Nat
  Key := Nat
  Value := Nat
  Output := Nat
  vocab := 3
  vocab_pos := Nat.zero_lt_succ 2
  layers := 2
  layers_pos := Nat.zero_lt_succ 1
  embedTokens token := token + 1
  rotaryEmb position := position
  inputLayernorm _ hidden := hidden
  qProj _ hidden := hidden
  kProj layer hidden := hidden + layer
  vProj _ hidden := 2 * hidden
  rotateQuery rotary query := query + rotary
  rotateKey rotary key := key + rotary
  attention query cells := (cells.map fun cell => query * cell.1 * cell.2).sum
  oProj _ out := out
  postAttentionLayernorm _ hidden := hidden
  mlp _ hidden := hidden + 1
  add := Nat.add
  norm hidden := hidden
  outputEmbeddings hidden := fun token => if token.val = hidden % 3 then 1 else 0

end LlmServing.Decoder
