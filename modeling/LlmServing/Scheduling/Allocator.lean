import LlmServing.Scheduling.Sequence
import Mathlib.Algebra.Order.Floor.Div

/-!
# KV-cache allocators

`allocator.py`. `allocate` and `free` only ever touch the block table of the sequence they are
given, so both return the table; Python's in-place update is the caller's.
-/

namespace LlmServing.Scheduling

/-- What the scheduler uses of an allocator. The two laws hold of both implementations. -/
class KVAllocator (α : Type) where
  allocate : α → Sequence → (newTokens decodeReserve : Nat) → Option (α × BlockTable)
  free : α → BlockTable → α × BlockTable
  canEverFit : α → Sequence → Bool
  allocate_numTokens {a a' : α} {seq : Sequence} {new reserve : Nat} {table : BlockTable} :
    allocate a seq new reserve = some (a', table) →
      table.numTokens = seq.blockTable.numTokens + new
  free_numTokens (a : α) (table : BlockTable) : (free a table).2.numTokens = 0

export KVAllocator (allocate free canEverFit allocate_numTokens free_numTokens)

attribute [simp] free_numTokens

structure BlockAllocator where
  numBlocks : Nat
  blockSize : Nat
  freeBlocks : List Nat
  blockSize_pos : 0 < blockSize

namespace BlockAllocator

def fresh (numBlocks blockSize : Nat) (positive : 0 < blockSize) : BlockAllocator where
  numBlocks
  blockSize
  freeBlocks := List.range numBlocks
  blockSize_pos := positive

def neededBlocks (a : BlockAllocator) (table : BlockTable) (newTokens : Nat) : Int :=
  ((table.numTokens + newTokens) ⌈/⌉ a.blockSize : Nat) - table.physicalBlocks.length

def allocate (a : BlockAllocator) (seq : Sequence) (newTokens decodeReserve : Nat) :
    Option (BlockAllocator × BlockTable) :=
  let table := seq.blockTable
  let needed := a.neededBlocks table newTokens
  if needed + decodeReserve > a.freeBlocks.length then none
  else some (
    { a with freeBlocks := a.freeBlocks.drop needed.toNat },
    { table with
      numTokens := table.numTokens + newTokens
      physicalBlocks := table.physicalBlocks ++ a.freeBlocks.take needed.toNat })

def free (a : BlockAllocator) (table : BlockTable) : BlockAllocator × BlockTable :=
  ({ a with freeBlocks := a.freeBlocks ++ table.physicalBlocks },
    { table with physicalBlocks := [], numTokens := 0 })

def canEverFit (a : BlockAllocator) (seq : Sequence) : Bool :=
  (seq.numTokens + 1) ⌈/⌉ a.blockSize ≤ a.numBlocks

theorem allocate_eq_some {a a' : BlockAllocator} {seq : Sequence} {new reserve : Nat}
    {table : BlockTable} (granted : a.allocate seq new reserve = some (a', table)) :
    a.neededBlocks seq.blockTable new + reserve ≤ a.freeBlocks.length ∧
    a' = { a with freeBlocks := a.freeBlocks.drop (a.neededBlocks seq.blockTable new).toNat } ∧
    table = { seq.blockTable with
      numTokens := seq.blockTable.numTokens + new
      physicalBlocks := seq.blockTable.physicalBlocks ++
        a.freeBlocks.take (a.neededBlocks seq.blockTable new).toNat } := by
  simp only [allocate] at granted
  split at granted
  · cases granted
  · rename_i fits
    simp only [Option.some.injEq, Prod.mk.injEq] at granted
    exact ⟨by omega, granted.1.symm, granted.2.symm⟩

theorem allocate_eq_none {a : BlockAllocator} {seq : Sequence} {new reserve : Nat} :
    a.allocate seq new reserve = none ↔
      (a.freeBlocks.length : Int) < a.neededBlocks seq.blockTable new + reserve := by
  simp only [allocate]
  split <;> simp_all

instance : KVAllocator BlockAllocator where
  allocate := BlockAllocator.allocate
  free := BlockAllocator.free
  canEverFit := BlockAllocator.canEverFit
  allocate_numTokens granted := by rw [(allocate_eq_some granted).2.2]
  free_numTokens _ _ := rfl

end BlockAllocator

structure ContiguousAllocator where
  capacityTokens : Nat
  usedTokens : Int := 0
  deriving DecidableEq

namespace ContiguousAllocator

def reservation (seq : Sequence) : Nat := seq.promptTokens.length + seq.samplingParams.maxTokens

/-- Decode growth lands inside the sequence's own reservation: `decodeReserve` is not read. -/
def allocate (a : ContiguousAllocator) (seq : Sequence) (newTokens _decodeReserve : Nat) :
    Option (ContiguousAllocator × BlockTable) :=
  let table := seq.blockTable
  if table.reservedTokens = 0 then
    if a.usedTokens + reservation seq > a.capacityTokens then none
    else some (
      { a with usedTokens := a.usedTokens + reservation seq },
      { table with
        reservedTokens := reservation seq
        numTokens := table.numTokens + newTokens })
  else some (a, { table with numTokens := table.numTokens + newTokens })

def free (a : ContiguousAllocator) (table : BlockTable) : ContiguousAllocator × BlockTable :=
  ({ a with usedTokens := a.usedTokens - table.reservedTokens },
    { table with reservedTokens := 0, numTokens := 0 })

def canEverFit (a : ContiguousAllocator) (seq : Sequence) : Bool :=
  reservation seq ≤ a.capacityTokens

theorem allocate_table {a a' : ContiguousAllocator} {seq : Sequence} {new reserve : Nat}
    {table : BlockTable} (granted : a.allocate seq new reserve = some (a', table)) :
    table.numTokens = seq.blockTable.numTokens + new := by
  simp only [allocate] at granted
  split at granted
  · split at granted
    · cases granted
    · simp only [Option.some.injEq, Prod.mk.injEq] at granted
      rw [← granted.2]
  · simp only [Option.some.injEq, Prod.mk.injEq] at granted
    rw [← granted.2]

instance : KVAllocator ContiguousAllocator where
  allocate := ContiguousAllocator.allocate
  free := ContiguousAllocator.free
  canEverFit := ContiguousAllocator.canEverFit
  allocate_numTokens := allocate_table
  free_numTokens _ _ := rfl

end ContiguousAllocator

end LlmServing.Scheduling
