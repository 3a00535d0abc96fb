import Mathlib.Data.List.FinRange
import Mathlib.Data.List.Nodup

/-!
# Tiles

What the kernels of `flash_attention.py` compute with. `Arithmetic` is the arithmetic of the device,
of which the model assumes nothing; a tile holds one number for each of its cells.
-/

namespace LlmServing.Kernels

abbrev Tile (R : Type) (a b : Nat) := Fin a → Fin b → R

inductive Precision where
  | ieee | tf32
  deriving DecidableEq

structure Arithmetic (R : Type) where
  zero : R
  negInf : R
  add : R → R → R
  sub : R → R → R
  mul : R → R → R
  div : R → R → R
  maximum : R → R → R
  exp : R → R
  /-- `1.0 / math.sqrt(D)`. -/
  invSqrt : Nat → R
  /-- `.to(v.dtype)`. -/
  toV : R → R
  dot {a b c : Nat} : Precision → Tile R a b → Tile R b c → Tile R a c
  rowMax {a b : Nat} : Tile R a b → Fin a → R
  rowSum {a b : Nat} : Tile R a b → Fin a → R

variable {R : Type} {a b : Nat}

def trans (tile : Tile R a b) : Tile R b a := fun i j => tile j i

/-- `tl.load` with `other=0.0`. -/
def load (A : Arithmetic R) (mask : Fin a → Fin b → Bool) (ptrs : Tile R a b) : Tile R a b :=
  fun i j => if mask i j then ptrs i j else A.zero

/-- The writes of `tl.store`. -/
def store {κ : Type} (mask : Fin a → Fin b → Bool) (ptrs : Fin a → Fin b → κ) (tile : Tile R a b) :
    List (κ × R) :=
  (List.finRange a).flatMap fun i => (List.finRange b).filterMap fun j =>
    if mask i j then some (ptrs i j, tile i j) else none

structure Accumulators (R : Type) (blockM blockD : Nat) where
  runningMax : Fin blockM → R
  runningDenom : Fin blockM → R
  acc : Tile R blockM blockD

variable {blockM blockN blockD : Nat}

def Accumulators.initial (A : Arithmetic R) : Accumulators R blockM blockD where
  runningMax _ := A.negInf
  runningDenom _ := A.zero
  acc _ _ := A.zero

/-- The lines the two loops share, from the scores of a tile of keys on. -/
def onlineSoftmax (A : Arithmetic R) (precision : Precision) (softmaxScale : R)
    (q : Tile R blockM blockD) (k v : Tile R blockN blockD)
    (scoreMask : Fin blockM → Fin blockN → Bool) (before : Accumulators R blockM blockD) :
    Accumulators R blockM blockD :=
  let products := A.dot precision q (trans k)
  let s : Tile R blockM blockN := fun i j =>
    if scoreMask i j then A.mul (products i j) softmaxScale else A.negInf
  let rowMax := A.rowMax s
  let newMax := fun i => A.maximum (before.runningMax i) (rowMax i)
  let alpha := fun i => A.exp (A.sub (before.runningMax i) (newMax i))
  let p : Tile R blockM blockN := fun i j => A.exp (A.sub (s i j) (newMax i))
  let rowSum := A.rowSum p
  let values := A.dot precision (fun i j => A.toV (p i j)) v
  { runningMax := newMax
    runningDenom := fun i => A.add (A.mul (alpha i) (before.runningDenom i)) (rowSum i)
    acc := fun i c => A.add (A.mul (before.acc i c) (alpha i)) (values i c) }

def Accumulators.quotient (A : Arithmetic R) (final : Accumulators R blockM blockD) :
    Tile R blockM blockD :=
  fun i c => A.div (final.acc i c) (final.runningDenom i)

variable {κ : Type} {mask : Fin a → Fin b → Bool} {ptrs : Fin a → Fin b → κ} {tile : Tile R a b}

theorem mem_store {k : κ} {x : R} :
    (k, x) ∈ store mask ptrs tile ↔
      ∃ i j, mask i j = true ∧ ptrs i j = k ∧ tile i j = x := by
  simp only [store, List.mem_flatMap, List.mem_filterMap, List.mem_finRange, true_and]
  constructor
  · rintro ⟨i, j, here⟩
    split at here
    · cases here
      exact ⟨i, j, ‹_›, rfl, rfl⟩
    · cases here
  · rintro ⟨i, j, inside, rfl, rfl⟩
    exact ⟨i, j, if_pos inside⟩

theorem mem_store_keys {k : κ} :
    k ∈ (store mask ptrs tile).map Prod.fst ↔ ∃ i j, mask i j = true ∧ ptrs i j = k := by
  simp [mem_store]

theorem store_nil (nothing : ∀ i j, mask i j = false) : store mask ptrs tile = [] := by
  refine List.flatMap_eq_nil_iff.mpr fun i _ => List.filterMap_eq_nil_iff.mpr fun j _ => ?_
  rw [nothing]
  rfl

theorem map_store {κ' : Type} (f : κ → κ') :
    (store mask ptrs tile).map (Prod.map f id) = store mask (fun i j => f (ptrs i j)) tile := by
  rw [store, List.map_flatMap]
  refine List.flatMap_congr fun i _ => ?_
  rw [List.map_filterMap]
  refine List.filterMap_congr fun j _ => ?_
  cases mask i j <;> rfl

theorem nodup_store
    (injective : ∀ i j i' j', ptrs i j = ptrs i' j' → i = i' ∧ j = j') :
    ((store mask ptrs tile).map Prod.fst).Nodup := by
  have keys : (store mask ptrs tile).map Prod.fst =
      (List.finRange a).flatMap fun i =>
        ((List.finRange b).filter fun j => mask i j).map (ptrs i) := by
    rw [store, List.map_flatMap]
    refine List.flatMap_congr fun i _ => ?_
    rw [List.map_filterMap, ← List.filterMap_eq_map, ← List.filterMap_eq_filter,
      List.filterMap_filterMap]
    refine List.filterMap_congr fun j _ => ?_
    cases inside : mask i j <;> simp [Option.guard, inside]
  rw [keys, List.nodup_flatMap]
  refine ⟨fun i _ => ?_, (List.nodup_finRange a).imp_of_mem ?_⟩
  · exact ((List.nodup_finRange b).filter _).map fun j j' same => (injective i j i j' same).2
  · intro i i' _ _ different k here there
    obtain ⟨j, -, rfl⟩ := List.mem_map.mp here
    obtain ⟨j', -, same⟩ := List.mem_map.mp there
    exact different (injective i' j' i j same).1.symm

end LlmServing.Kernels
