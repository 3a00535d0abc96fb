import LlmServing.Kernels.FlashAttention

/-!
# Which cells a program writes

One program writes the rows of one tile of queries, for one head. Those of a launch write each output
cell at most once.
-/

namespace LlmServing.Kernels

open Lib

variable {R : Type} {A : Arithmetic R}

theorem row_inj {blockM startM startM' : Nat} {i i' : Fin blockM}
    (same : startM * blockM + i = startM' * blockM + i') : startM = startM' ∧ i = i' := by
  have back (m : Nat) (j : Fin blockM) : (m * blockM + j) / blockM = m := by
    rw [Nat.mul_comm, Nat.mul_add_div (Nat.zero_lt_of_lt j.isLt), Nat.div_eq_of_lt j.isLt,
      Nat.add_zero]
  have tile : startM = startM' := by rw [← back startM i, same, back]
  subst tile
  exact ⟨rfl, Fin.ext (Nat.add_left_cancel same)⟩

theorem lt_ceilDiv {row rows blockM : Nat} (positive : 1 ≤ blockM) (inside : row < rows) :
    row / blockM < rows ⌈/⌉ blockM := by
  by_contra outside
  have bound := (ceilDiv_le_iff_le_mul positive).mp (Nat.le_of_not_lt outside)
  have back := Nat.mul_div_le row blockM
  omega

theorem divMod_inj {h y y' : Nat} (quotient : y / h = y' / h) (remainder : y % h = y' % h) :
    y = y' := by
  rw [← Nat.div_add_mod y h, ← Nat.div_add_mod y' h, quotient, remainder]

theorem mul_add_div_mod {h z head : Nat} (inside : head < h) :
    (z * h + head) / h = z ∧ (z * h + head) % h = head := by
  constructor
  · rw [Nat.mul_comm, Nat.mul_add_div (Nat.zero_lt_of_lt inside), Nat.div_eq_of_lt inside,
      Nat.add_zero]
  · rw [Nat.mul_comm, Nat.mul_add_mod, Nat.mod_eq_of_lt inside]

theorem le_nextPowerOf2 (n : Nat) : n ≤ nextPowerOf2 n := Nat.le_pow_clog Nat.one_lt_two n

namespace FlashArgs

variable (args : FlashArgs R)

theorem separate (z : Nat) : (args.launch A z).Separate := by
  refine Launch.separate_of (fun startM offHz => nodup_store fun i c i' c' same => ?_) ?_
  · simp only [Prod.mk.injEq] at same
    exact ⟨(row_inj same.2.2.1).2, Fin.ext same.2.2.2⟩
  · intro startM offHz startM' offHz' cell here there _ _
    obtain ⟨i, c, -, rfl⟩ := mem_store_keys.mp here
    obtain ⟨i', c', -, same⟩ := mem_store_keys.mp there
    simp only [Prod.mk.injEq] at same
    exact ⟨(row_inj same.2.2.1).1.symm, (divMod_inj same.1 same.2.1).symm⟩

theorem program_of_row {z batch head row c : Nat} (positive : 1 ≤ args.blockM)
    (wide : args.d ≤ args.blockD) (batch_lt : batch < z) (head_lt : head < args.h)
    (row_lt : row < args.nQ) (c_lt : c < args.d) :
    ∃ startM offHz i, ∃ lane : Fin args.blockD,
      (startM < (args.launch A z).grid.1 ∧ offHz < (args.launch A z).grid.2) ∧
      args.offZ offHz = batch ∧ args.offH offHz = head ∧ args.offsM startM i = row ∧
      lane.val = c ∧ args.mMask startM i = true ∧ args.dMask lane = true := by
  obtain ⟨quotient, remainder⟩ := mul_add_div_mod (z := batch) head_lt
  have whole : row / args.blockM * args.blockM + row % args.blockM = row := Nat.div_add_mod' row _
  have last : batch * args.h + head < z * args.h := by
    have step : (batch + 1) * args.h ≤ z * args.h := Nat.mul_le_mul_right args.h batch_lt
    rw [Nat.succ_mul] at step
    omega
  refine ⟨row / args.blockM, batch * args.h + head, ⟨row % args.blockM, Nat.mod_lt row positive⟩,
    ⟨c, by omega⟩, ⟨lt_ceilDiv positive row_lt, last⟩, quotient, remainder, whole, rfl, ?_,
    decide_eq_true c_lt⟩
  rw [mMask, offsM, whole]
  exact decide_eq_true row_lt

end FlashArgs

theorem check_bind_ok {α : Type} {condition : Bool} {message : String}
    {next : Unit → Except String α} {result : α}
    (ok : check condition message >>= next = .ok result) :
    condition = true ∧ next () = .ok result := by
  cases condition with
  | false => cases ok
  | true => exact ⟨rfl, ok⟩

theorem tilesOf_ok {dtype : Dtype} {blockM blockN : Nat} (ok : tilesOf dtype = .ok (blockM, blockN)) :
    1 ≤ blockM ∧ 1 ≤ blockN := by
  cases dtype <;> cases ok <;> decide

theorem flashAttentionForward_ok {q k v : Tensor Cell R} {isCausal : Bool} {queryOffset : Nat}
    {l : Launch Cell R} (ok : flashAttentionForward A q k v isCausal queryOffset = .ok l) :
    ∃ blockM blockN, tilesOf q.dtype = .ok (blockM, blockN) ∧
      (isCausal = true → queryOffset + q.shape.2.2.1 ≤ k.shape.2.2.1) ∧
      l = (flashArgs (A.invSqrt q.shape.2.2.2) q k v isCausal queryOffset blockM blockN).launch A
        q.shape.1 := by
  simp only [flashAttentionForward] at ok
  obtain ⟨-, ok⟩ := check_bind_ok ok
  obtain ⟨-, ok⟩ := check_bind_ok ok
  obtain ⟨-, ok⟩ := check_bind_ok ok
  obtain ⟨-, ok⟩ := check_bind_ok ok
  cases blocks : tilesOf q.dtype with
  | error message =>
      rw [blocks] at ok
      cases ok
  | ok sizes =>
      rw [blocks] at ok
      obtain ⟨-, ok⟩ := check_bind_ok ok
      obtain ⟨covered, ok⟩ := check_bind_ok ok
      cases ok
      refine ⟨sizes.1, sizes.2, rfl, fun causal => ?_, rfl⟩
      simpa [causal] using covered

theorem flashAttentionForward_launches {q k v : Tensor Cell R} {queryOffset blockM blockN : Nat}
    (dims : (q.shape.1, q.shape.2.2.2) = (k.shape.1, k.shape.2.2.2))
    (groups : q.shape.2.1 % k.shape.2.1 = 0) (shapes : k.shape = v.shape)
    (dtypes : q.dtype = k.dtype ∧ k.dtype = v.dtype)
    (blocks : tilesOf q.dtype = .ok (blockM, blockN))
    (cuda : (q.isCuda && k.isCuda && v.isCuda) = true)
    (covered : queryOffset + q.shape.2.2.1 ≤ k.shape.2.2.1) :
    flashAttentionForward A q k v true queryOffset = .ok
      ((flashArgs (A.invSqrt q.shape.2.2.2) q k v true queryOffset blockM blockN).launch A
        q.shape.1) := by
  have pass {α : Type} {condition : Bool} (holds : condition = true) (message : String)
      (next : Unit → Except String α) : check condition message >>= next = next () := by
    rw [holds]
    rfl
  simp only [flashAttentionForward]
  rw [pass (decide_eq_true dims), pass (decide_eq_true groups), pass (decide_eq_true shapes),
    pass (decide_eq_true dtypes), blocks]
  change (check (q.isCuda && k.isCuda && v.isCuda) _ >>= _) = _
  rw [pass cuda]
  change (check (queryOffset + q.shape.2.2.1 ≤ k.shape.2.2.1 ∨ !true) _ >>= _) = _
  rw [pass (decide_eq_true (.inl covered))]
  rfl

theorem pagedAttentionForward_ok {q : Tensor PagedCell R} {kPool vPool : Tensor Cell R}
    {paging : PagedBatch} {blockSize : Nat} {l : Launch PagedCell R}
    (ok : pagedAttentionForward A q kPool vPool paging blockSize = .ok l) :
    ∃ blockM blockN, tilesOf q.dtype = .ok (blockM, blockN) ∧
      q.dtype = kPool.dtype ∧ kPool.dtype = vPool.dtype ∧
      (q.isCuda = true ∧ kPool.isCuda = true ∧ vPool.isCuda = true) ∧
      q.shape.1 % kPool.shape.2.2.1 = 0 ∧
      l = (pagedArgs A q kPool vPool paging blockSize blockM blockN).launch A paging.entries
        paging.maxQLen := by
  simp only [pagedAttentionForward] at ok
  obtain ⟨cuda, ok⟩ := check_bind_ok ok
  obtain ⟨dtypes, ok⟩ := check_bind_ok ok
  cases blocks : tilesOf q.dtype with
  | error message =>
      rw [blocks] at ok
      cases ok
  | ok sizes =>
      rw [blocks] at ok
      obtain ⟨groups, ok⟩ := check_bind_ok ok
      cases ok
      rw [Bool.and_eq_true, Bool.and_eq_true, and_assoc] at cuda
      have same := of_decide_eq_true dtypes
      exact ⟨sizes.1, sizes.2, rfl, same.1, same.2, cuda, of_decide_eq_true groups, rfl⟩

end LlmServing.Kernels
