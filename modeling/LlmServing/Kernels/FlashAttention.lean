import LlmServing.Kernels.Tiles
import LlmServing.Lib.Launch
import Mathlib.Algebra.Order.Floor.Div
import Mathlib.Data.Nat.Log

/-!
# The two attention kernels

`flash_attention_2` and `paged_attention_2` of `flash_attention.py`, and the calls that launch them.
A tensor is what its pointer and strides address.
-/

namespace LlmServing.Kernels

open Lib

variable {R : Type}

def tileStarts (endN blockN : Nat) : List Nat := List.range' 0 (endN ⌈/⌉ blockN) blockN

/-- An index of a tensor of four dimensions, and of one of three. -/
abbrev Cell := Nat × Nat × Nat × Nat

abbrev PagedCell := Nat × Nat × Nat

structure FlashArgs (R : Type) where
  q : Cell → R
  k : Cell → R
  v : Cell → R
  h : Nat
  nQ : Nat
  nK : Nat
  d : Nat
  softmaxScale : R
  queryOffset : Nat
  blockM : Nat
  blockN : Nat
  blockD : Nat
  isCausal : Bool
  precision : Precision
  nGroups : Nat

namespace FlashArgs

variable (A : Arithmetic R) (args : FlashArgs R) (startM offHz : Nat)

def offsM (i : Fin args.blockM) : Nat := startM * args.blockM + i

def mMask (i : Fin args.blockM) : Bool := args.offsM startM i < args.nQ

def dMask (c : Fin args.blockD) : Bool := c < args.d

def offZ : Nat := offHz / args.h

def offH : Nat := offHz % args.h

def offKvH : Nat := args.offH offHz / args.nGroups

def queries : Tile R args.blockM args.blockD :=
  load A (fun i c => args.mMask startM i && args.dMask c) fun i c =>
    args.q (args.offZ offHz, args.offH offHz, args.offsM startM i, c)

def nMask (startN : Nat) (j : Fin args.blockN) : Bool := startN + j < args.nK

def keys (startN : Nat) : Tile R args.blockN args.blockD :=
  load A (fun j c => args.nMask startN j && args.dMask c) fun j c =>
    args.k (args.offZ offHz, args.offKvH offHz, startN + j, c)

def values (startN : Nat) : Tile R args.blockN args.blockD :=
  load A (fun j c => args.nMask startN j && args.dMask c) fun j c =>
    args.v (args.offZ offHz, args.offKvH offHz, startN + j, c)

def scoreMask (startN : Nat) (i : Fin args.blockM) (j : Fin args.blockN) : Bool :=
  args.mMask startM i && args.nMask startN j &&
    (!args.isCausal || decide (args.queryOffset + args.offsM startM i ≥ startN + j))

def loopBody (before : Accumulators R args.blockM args.blockD) (startN : Nat) :
    Accumulators R args.blockM args.blockD :=
  onlineSoftmax A args.precision args.softmaxScale (args.queries A startM offHz)
    (args.keys A offHz startN) (args.values A offHz startN) (args.scoreMask startM startN) before

def endN : Nat :=
  if args.isCausal then min (args.queryOffset + (startM + 1) * args.blockM) args.nK else args.nK

def loop (starts : List Nat) : Accumulators R args.blockM args.blockD :=
  starts.foldl (args.loopBody A startM offHz) (.initial A)

end FlashArgs

def flashAttention2 (A : Arithmetic R) (args : FlashArgs R) (startM offHz : Nat) :
    List (Cell × R) :=
  let final := args.loop A startM offHz (tileStarts (args.endN startM) args.blockN)
  store (fun i c => args.mMask startM i && args.dMask c)
    (fun i c => (args.offZ offHz, args.offH offHz, args.offsM startM i, c.val)) (final.quotient A)

def FlashArgs.launch (A : Arithmetic R) (args : FlashArgs R) (z : Nat) : Launch Cell R where
  grid := (args.nQ ⌈/⌉ args.blockM, z * args.h)
  program := flashAttention2 A args

structure PagedArgs (R : Type) where
  q : PagedCell → R
  kPool : Cell → R
  vPool : Cell → R
  blockTable : Nat → Nat → Nat
  contextLen : Nat → Nat
  queryOffsetArr : Nat → Nat
  qStart : Nat → Nat
  qLen : Nat → Nat
  h : Nat
  d : Nat
  blockSizeKv : Nat
  softmaxScale : R
  nGroups : Nat
  blockM : Nat
  blockN : Nat
  blockD : Nat
  precision : Precision

namespace PagedArgs

variable (A : Arithmetic R) (args : PagedArgs R) (startM entryIdx headIdx : Nat)

def offsM (i : Fin args.blockM) : Nat := startM * args.blockM + i

def mMask (i : Fin args.blockM) : Bool := args.offsM startM i < args.qLen entryIdx

def dMask (c : Fin args.blockD) : Bool := c < args.d

def queries : Tile R args.blockM args.blockD :=
  load A (fun i c => args.mMask startM entryIdx i && args.dMask c) fun i c =>
    args.q (headIdx, args.qStart entryIdx + args.offsM startM i, c)

def kvHeadIdx : Nat := headIdx / args.nGroups

def nMask (startN : Nat) (j : Fin args.blockN) : Bool := startN + j < args.contextLen entryIdx

def blockInTable (startN : Nat) (j : Fin args.blockN) : Nat := (startN + j) / args.blockSizeKv

def withinBlock (startN : Nat) (j : Fin args.blockN) : Nat := (startN + j) % args.blockSizeKv

def blockId (startN : Nat) (j : Fin args.blockN) : Nat :=
  if args.nMask entryIdx startN j then args.blockTable entryIdx (args.blockInTable startN j) else 0

def keys (startN : Nat) : Tile R args.blockN args.blockD :=
  load A (fun j c => args.nMask entryIdx startN j && args.dMask c) fun j c =>
    args.kPool
      (args.blockId entryIdx startN j, args.withinBlock startN j, args.kvHeadIdx headIdx, c)

def values (startN : Nat) : Tile R args.blockN args.blockD :=
  load A (fun j c => args.nMask entryIdx startN j && args.dMask c) fun j c =>
    args.vPool
      (args.blockId entryIdx startN j, args.withinBlock startN j, args.kvHeadIdx headIdx, c)

def scoreMask (startN : Nat) (i : Fin args.blockM) (j : Fin args.blockN) : Bool :=
  args.mMask startM entryIdx i && args.nMask entryIdx startN j &&
    decide (args.queryOffsetArr entryIdx + args.offsM startM i ≥ startN + j)

def loopBody (before : Accumulators R args.blockM args.blockD) (startN : Nat) :
    Accumulators R args.blockM args.blockD :=
  onlineSoftmax A args.precision args.softmaxScale (args.queries A startM entryIdx headIdx)
    (args.keys A entryIdx headIdx startN) (args.values A entryIdx headIdx startN)
    (args.scoreMask startM entryIdx startN) before

def endN : Nat :=
  min (args.queryOffsetArr entryIdx + (startM + 1) * args.blockM) (args.contextLen entryIdx)

def loop (starts : List Nat) : Accumulators R args.blockM args.blockD :=
  starts.foldl (args.loopBody A startM entryIdx headIdx) (.initial A)

end PagedArgs

def pagedAttention2 (A : Arithmetic R) (args : PagedArgs R) (startM entryHead : Nat) :
    List (PagedCell × R) :=
  let entryIdx := entryHead / args.h
  let headIdx := entryHead % args.h
  if startM * args.blockM ≥ args.qLen entryIdx then []
  else
    let final := args.loop A startM entryIdx headIdx
      (tileStarts (args.endN startM entryIdx) args.blockN)
    store (fun i c => args.mMask startM entryIdx i && args.dMask c)
      (fun i c => (headIdx, args.qStart entryIdx + args.offsM startM i, c.val)) (final.quotient A)

def PagedArgs.launch (A : Arithmetic R) (args : PagedArgs R) (entries maxQLen : Nat) :
    Launch PagedCell R where
  grid := (maxQLen ⌈/⌉ args.blockM, entries * args.h)
  program := pagedAttention2 A args

inductive Dtype where
  | float16 | bfloat16 | float32
  | other (name : String)
  deriving DecidableEq

def Dtype.name : Dtype → String
  | .float16 => "torch.float16"
  | .bfloat16 => "torch.bfloat16"
  | .float32 => "torch.float32"
  | .other name => name

def tiles : Dtype → Option (Nat × Nat)
  | .float16 => some (128, 64)
  | .bfloat16 => some (128, 64)
  | .float32 => some (64, 32)
  | .other _ => none

def tilesOf (dtype : Dtype) : Except String (Nat × Nat) :=
  match tiles dtype with
  | some blocks => pure blocks
  | none => throw (s!"unsupported dtype {dtype.name}; expected one of " ++
      "(torch.float16, torch.bfloat16, torch.float32)")

def softmaxPrecision (dtype : Dtype) : Precision := if dtype = .float32 then .ieee else .tf32

def nextPowerOf2 (n : Nat) : Nat := 2 ^ Nat.clog 2 n

structure Tensor (ι R : Type) where
  shape : ι
  dtype : Dtype
  isCuda : Bool
  value : ι → R

def check (condition : Bool) (message : String) : Except String Unit :=
  if condition then pure () else throw message

def flashArgs (softmaxScale : R) (q k v : Tensor Cell R) (isCausal : Bool)
    (queryOffset blockM blockN : Nat) : FlashArgs R :=
  let (_, h, nQ, d) := q.shape
  let (_, hKv, nK, _) := k.shape
  { q := q.value
    k := k.value
    v := v.value
    h
    nQ
    nK
    d
    softmaxScale
    queryOffset
    blockM
    blockN
    blockD := nextPowerOf2 d
    isCausal
    precision := softmaxPrecision q.dtype
    nGroups := h / hKv }

/-- The launch whose output `flash_attention_forward` returns, once its assertions hold. -/
def flashAttentionForward (A : Arithmetic R) (q k v : Tensor Cell R) (isCausal : Bool)
    (queryOffset : Nat) : Except String (Launch Cell R) := do
  let (z, h, nQ, d) := q.shape
  let (zk, hKv, nK, dk) := k.shape
  check ((z, d) = (zk, dk)) "Q and K/V must share batch and head_dim"
  check (h % hKv = 0) s!"query heads ({h}) must be a multiple of KV heads ({hKv})"
  check (k.shape = v.shape) "K, V shapes don't match"
  check (q.dtype = k.dtype ∧ k.dtype = v.dtype) "Q, K, V must share a dtype"
  let (blockM, blockN) ← tilesOf q.dtype
  check (q.isCuda && k.isCuda && v.isCuda) "Q, K, V not all CUDA tensors"
  check (queryOffset + nQ ≤ nK ∨ !isCausal)
    (s!"causal attention needs every query position covered by the cache: " ++
      s!"query_offset({queryOffset}) + N_Q({nQ}) > N_K({nK})")
  pure ((flashArgs (A.invSqrt d) q k v isCausal queryOffset blockM blockN).launch A z)

structure PagedBatch where
  entries : Nat
  blockTable : Nat → Nat → Nat
  contextLen : Nat → Nat
  queryOffset : Nat → Nat
  qStart : Nat → Nat
  qLen : Nat → Nat
  maxQLen : Nat

def pagedArgs (A : Arithmetic R) (q : Tensor PagedCell R) (kPool vPool : Tensor Cell R)
    (paging : PagedBatch) (blockSize blockM blockN : Nat) : PagedArgs R :=
  let (h, _, d) := q.shape
  let (_, _, hKv, _) := kPool.shape
  { q := q.value
    kPool := kPool.value
    vPool := vPool.value
    blockTable := paging.blockTable
    contextLen := paging.contextLen
    queryOffsetArr := paging.queryOffset
    qStart := paging.qStart
    qLen := paging.qLen
    h
    d
    blockSizeKv := blockSize
    softmaxScale := A.invSqrt d
    nGroups := h / hKv
    blockM
    blockN
    blockD := nextPowerOf2 d
    precision := softmaxPrecision q.dtype }

/-- The launch whose output `paged_attention_forward` returns, once its assertions hold. -/
def pagedAttentionForward (A : Arithmetic R) (q : Tensor PagedCell R) (kPool vPool : Tensor Cell R)
    (paging : PagedBatch) (blockSize : Nat) : Except String (Launch PagedCell R) := do
  let (h, _, _) := q.shape
  let (_, _, hKv, _) := kPool.shape
  check (q.isCuda && kPool.isCuda && vPool.isCuda) "Q, K, V not all CUDA tensors"
  check (q.dtype = kPool.dtype ∧ kPool.dtype = vPool.dtype) "Q, K, V must share a dtype"
  let (blockM, blockN) ← tilesOf q.dtype
  check (h % hKv = 0) s!"query heads ({h}) must be a multiple of KV heads ({hKv})"
  pure ((pagedArgs A q kPool vPool paging blockSize blockM blockN).launch A paging.entries
    paging.maxQLen)

end LlmServing.Kernels
