import LlmServing.Kernels.Programs
import LlmServing.Lib.Spans

/-!
# Paged attention is contiguous attention

Each entry's programs of `paged_attention_2` do what `flash_attention_2` does on that entry's queries
and on the keys and values gathered through its block table, operation for operation.
-/

namespace LlmServing.Kernels

open Lib

variable {R : Type} (A : Arithmetic R)

namespace PagedArgs

variable (args : PagedArgs R)

def gather (pool : Cell → R) (entryIdx : Nat) : Cell → R := fun (_, head, p, c) =>
  pool (args.blockTable entryIdx (p / args.blockSizeKv), p % args.blockSizeKv, head, c)

abbrev entry (entryIdx : Nat) : FlashArgs R where
  q := fun (_, head, row, c) => args.q (head, args.qStart entryIdx + row, c)
  k := args.gather args.kPool entryIdx
  v := args.gather args.vPool entryIdx
  h := args.h
  nQ := args.qLen entryIdx
  nK := args.contextLen entryIdx
  d := args.d
  softmaxScale := args.softmaxScale
  queryOffset := args.queryOffsetArr entryIdx
  blockM := args.blockM
  blockN := args.blockN
  blockD := args.blockD
  isCausal := true
  precision := args.precision
  nGroups := args.nGroups

variable {args} (startM entryIdx : Nat) {headIdx : Nat}

def place (args : PagedArgs R) (entryIdx : Nat) : Cell → PagedCell := fun (_, head, row, c) =>
  (head, args.qStart entryIdx + row, c)

/-! ## Operation for operation -/

theorem queries_entry (head : headIdx % args.h = headIdx) :
    args.queries A startM entryIdx headIdx = (args.entry entryIdx).queries A startM headIdx := by
  funext i c
  simp only [queries, FlashArgs.queries, FlashArgs.offH, head, load]
  rfl

theorem load_gather (head : headIdx % args.h = headIdx) (pool : Cell → R) (startN : Nat) :
    load A (fun j c => args.nMask entryIdx startN j && args.dMask c) (fun j c =>
      pool (args.blockId entryIdx startN j, args.withinBlock startN j, args.kvHeadIdx headIdx, c)) =
    load A (fun j c => (args.entry entryIdx).nMask startN j && (args.entry entryIdx).dMask c)
      fun j c => args.gather pool entryIdx ((args.entry entryIdx).offZ headIdx,
        (args.entry entryIdx).offKvH headIdx, startN + j, c) := by
  funext j c
  have same : (args.entry entryIdx).nMask startN j = args.nMask entryIdx startN j := rfl
  have lane : (args.entry entryIdx).dMask c = args.dMask c := rfl
  simp only [load, same, lane]
  by_cases cached : args.nMask entryIdx startN j = true
  · simp only [blockId, cached, if_true, gather, FlashArgs.offKvH, FlashArgs.offH, head]
    rfl
  · rw [Bool.eq_false_of_not_eq_true cached]
    rfl

theorem loopBody_entry (head : headIdx % args.h = headIdx)
    (before : Accumulators R args.blockM args.blockD) (startN : Nat) :
    args.loopBody A startM entryIdx headIdx before startN =
      (args.entry entryIdx).loopBody A startM headIdx before startN := by
  unfold loopBody FlashArgs.loopBody
  rw [queries_entry A startM entryIdx head, keys, load_gather A entryIdx head, values,
    load_gather A entryIdx head]
  rfl

theorem loop_entry (head : headIdx % args.h = headIdx) (starts : List Nat) :
    args.loop A startM entryIdx headIdx starts =
      (args.entry entryIdx).loop A startM headIdx starts := by
  unfold loop FlashArgs.loop
  have bodies : args.loopBody A startM entryIdx headIdx =
      (args.entry entryIdx).loopBody A startM headIdx := by
    funext before startN
    exact loopBody_entry A startM entryIdx head before startN
  rw [bodies]

theorem pagedAttention2_eq (args : PagedArgs R) (entryHead : Nat) :
    pagedAttention2 A args startM entryHead =
      (flashAttention2 A (args.entry (entryHead / args.h)) startM (entryHead % args.h)).map
        (Prod.map (args.place (entryHead / args.h)) id) := by
  have head : entryHead % args.h % args.h = entryHead % args.h := Nat.mod_mod _ _
  rw [flashAttention2, map_store]
  simp only [pagedAttention2]
  by_cases beyond : startM * args.blockM ≥ args.qLen (entryHead / args.h)
  · rw [if_pos beyond, store_nil]
    intro i c
    have outside : ¬startM * args.blockM + i < args.qLen (entryHead / args.h) := by omega
    rw [FlashArgs.mMask, FlashArgs.offsM, decide_eq_false outside]
    rfl
  · rw [if_neg beyond, loop_entry A startM _ head]
    simp only [place, FlashArgs.offH, head]
    rfl

end PagedArgs

theorem flashAttention2_congr (args : FlashArgs R) {k v : Cell → R}
    (keys : ∀ z head c, ∀ j < args.nK, k (z, head, j, c) = args.k (z, head, j, c))
    (values : ∀ z head c, ∀ j < args.nK, v (z, head, j, c) = args.v (z, head, j, c)) :
    flashAttention2 A { args with k, v } = flashAttention2 A args := by
  have loaded {pool pool' : Cell → R}
      (agree : ∀ z head c, ∀ j < args.nK, pool (z, head, j, c) = pool' (z, head, j, c))
      (z head startN : Nat) :
      load A (fun j c => args.nMask startN j && args.dMask c)
          (fun j c => pool (z, head, startN + j, c)) =
        load A (fun j c => args.nMask startN j && args.dMask c)
          (fun j c => pool' (z, head, startN + j, c)) := by
    funext j c
    by_cases inside : startN + j < args.nK
    · simp only [load, agree z head c _ inside]
    · have masked : args.nMask startN j = false := decide_eq_false inside
      simp only [load, masked, Bool.false_and]
      rfl
  have bodies (startM offHz : Nat) :
      FlashArgs.loopBody A { args with k, v } startM offHz = args.loopBody A startM offHz := by
    funext before startN
    have tileK : FlashArgs.keys A { args with k, v } offHz startN = args.keys A offHz startN :=
      loaded keys _ _ startN
    have tileV : FlashArgs.values A { args with k, v } offHz startN = args.values A offHz startN :=
      loaded values _ _ startN
    unfold FlashArgs.loopBody
    rw [tileK, tileV]
    rfl
  funext startM offHz
  unfold flashAttention2 FlashArgs.loop
  rw [bodies]
  rfl

namespace PagedArgs

structure Agree (args : PagedArgs R) (kPool vPool : Cell → R) (blockTable : Nat → Nat → Nat)
    (entryIdx : Nat) : Prop where
  cells : ∀ cell < args.contextLen entryIdx ⌈/⌉ args.blockSizeKv,
    blockTable entryIdx cell = args.blockTable entryIdx cell
  slots : ∀ p < args.contextLen entryIdx, ∀ head c,
    let slot := (args.blockTable entryIdx (p / args.blockSizeKv), p % args.blockSizeKv, head, c)
    kPool slot = args.kPool slot ∧ vPool slot = args.vPool slot

theorem pagedAttention2_congr {args : PagedArgs R} (positive : 1 ≤ args.blockSizeKv)
    {kPool vPool : Cell → R} {blockTable : Nat → Nat → Nat} {entryHead : Nat}
    (agree : args.Agree kPool vPool blockTable (entryHead / args.h)) (startM : Nat) :
    pagedAttention2 A { args with kPool, vPool, blockTable } startM entryHead =
      pagedAttention2 A args startM entryHead := by
  have cell {p : Nat} (cached : p < args.contextLen (entryHead / args.h)) :
      blockTable (entryHead / args.h) (p / args.blockSizeKv) =
        args.blockTable (entryHead / args.h) (p / args.blockSizeKv) :=
    agree.cells _ (lt_ceilDiv positive cached)
  rw [pagedAttention2_eq, pagedAttention2_eq]
  have same := flashAttention2_congr A (args.entry (entryHead / args.h))
    (k := gather { args with kPool, vPool, blockTable } kPool (entryHead / args.h))
    (v := gather { args with kPool, vPool, blockTable } vPool (entryHead / args.h))
    (fun z head c p cached => by
      simp only [gather, cell cached]
      exact (agree.slots p cached head c).1)
    (fun z head c p cached => by
      simp only [gather, cell cached]
      exact (agree.slots p cached head c).2)
  exact congrArg (List.map _) (congrFun (congrFun same startM) (entryHead % args.h))

variable (args : PagedArgs R)

/-- The entries as the batch lays them out, one after the other. A padding entry may start anywhere. -/
structure LaidOut (entries maxQLen : Nat) : Prop where
  starts : ∀ e < entries, 0 < args.qLen e → args.qStart e = spanStart args.qLen e
  longest : ∀ e < entries, args.qLen e ≤ maxQLen

variable {A} {args} {entries maxQLen : Nat}

theorem LaidOut.inSpan (laid : args.LaidOut entries maxQLen) {e row : Nat} (e_lt : e < entries)
    (inside : row < args.qLen e) : InSpan args.qLen e (args.qStart e + row) := by
  rw [laid.starts e e_lt (by omega)]
  exact ⟨Nat.le_add_right _ _, Nat.add_lt_add_left inside _⟩

theorem cell_of_program {startM entryHead : Nat} {cell : PagedCell}
    (here : cell ∈ (pagedAttention2 A args startM entryHead).map Prod.fst) :
    ∃ (i : Fin args.blockM) (c : Fin args.blockD),
      args.offsM startM i < args.qLen (entryHead / args.h) ∧
      cell = (entryHead % args.h, args.qStart (entryHead / args.h) + args.offsM startM i, c.val) := by
  simp only [pagedAttention2] at here
  by_cases beyond : startM * args.blockM ≥ args.qLen (entryHead / args.h)
  · rw [if_pos beyond] at here
    cases here
  · rw [if_neg beyond] at here
    obtain ⟨i, c, kept, rfl⟩ := mem_store_keys.mp here
    rw [Bool.and_eq_true] at kept
    exact ⟨i, c, of_decide_eq_true kept.1, rfl⟩

theorem LaidOut.separate (laid : args.LaidOut entries maxQLen) :
    (args.launch A entries maxQLen).Separate := by
  refine Launch.separate_of (fun startM entryHead => ?_) ?_
  · change ((pagedAttention2 A args startM entryHead).map Prod.fst).Nodup
    simp only [pagedAttention2]
    by_cases beyond : startM * args.blockM ≥ args.qLen (entryHead / args.h)
    · rw [if_pos beyond]
      exact List.nodup_nil
    · rw [if_neg beyond]
      refine nodup_store fun i c i' c' same => ?_
      simp only [Prod.mk.injEq] at same
      exact ⟨(row_inj (Nat.add_left_cancel same.2.1)).2, Fin.ext same.2.2⟩
  · intro startM entryHead startM' entryHead' cell here there bound bound'
    obtain ⟨i, c, inside, rfl⟩ := cell_of_program here
    obtain ⟨i', c', inside', same⟩ := cell_of_program there
    simp only [Prod.mk.injEq] at same
    have entry_lt {y : Nat} (bound : y < entries * args.h) : y / args.h < entries :=
      Nat.div_lt_of_lt_mul (Nat.mul_comm entries args.h ▸ bound)
    have span := laid.inSpan (entry_lt bound) inside
    rw [same.2.1] at span
    have entry := span.unique (laid.inSpan (entry_lt bound') inside')
    have rows := same.2.1
    rw [entry] at rows
    exact ⟨(row_inj (Nat.add_left_cancel rows)).1, divMod_inj entry same.1⟩

theorem LaidOut.exists_program (laid : args.LaidOut entries maxQLen) (positive : 1 ≤ args.blockM)
    (wide : args.d ≤ args.blockD) {e head row c : Nat} (e_lt : e < entries) (head_lt : head < args.h)
    (row_lt : row < args.qLen e) (c_lt : c < args.d) :
    ∃ startM x, startM < args.qLen e ⌈/⌉ args.blockM ∧ startM < maxQLen ⌈/⌉ args.blockM ∧
      ((0, head, row, c), x) ∈ flashAttention2 A (args.entry e) startM head ∧
      ((head, args.qStart e + row, c), x) ∈ pagedAttention2 A args startM (e * args.h + head) := by
  obtain ⟨startM, offHz, i, lane, ⟨tile, -⟩, batch, remainder, rfl, rfl, stored, kept⟩ :=
    (args.entry e).program_of_row (A := A) positive wide (show 0 < 1 from Nat.zero_lt_one) head_lt
      row_lt c_lt
  -- With one batch the program's second coordinate is the head.
  obtain rfl : offHz = head := by
    have whole := Nat.div_add_mod offHz args.h
    rw [show offHz / args.h = 0 from batch, Nat.mul_zero, Nat.zero_add] at whole
    exact whole.symm.trans remainder
  obtain ⟨entryIdx, headIdx⟩ := mul_add_div_mod (z := e) head_lt
  have member : ((0, offHz, (args.entry e).offsM startM i, lane.val),
      ((args.entry e).loop A startM offHz
        (tileStarts ((args.entry e).endN startM) args.blockN)).quotient A i lane) ∈
      flashAttention2 A (args.entry e) startM offHz := by
    refine mem_store.mpr ⟨i, lane, ?_, ?_, rfl⟩
    · rw [stored, kept]
      rfl
    · rw [batch, remainder]
  refine ⟨startM, _, tile, ?_, member, ?_⟩
  · have fewer := (ceilDiv_le_iff_le_mul positive).mp (le_refl (maxQLen ⌈/⌉ args.blockM))
    have bound := (ceilDiv_le_iff_le_mul positive).mpr ((laid.longest e e_lt).trans fewer)
    exact Nat.lt_of_lt_of_le tile bound
  · rw [pagedAttention2_eq, entryIdx, headIdx]
    exact List.mem_map_of_mem member

theorem LaidOut.written (laid : args.LaidOut entries maxQLen) (positive : 1 ≤ args.blockM)
    (wide : args.d ≤ args.blockD) {before after : PagedCell → R}
    (result : (args.launch A entries maxQLen).Result before after) {e head row c : Nat}
    (e_lt : e < entries) (head_lt : head < args.h) (row_lt : row < args.qLen e) (c_lt : c < args.d)
    {before' after' : Cell → R} (alone : ((args.entry e).launch A 1).Result before' after') :
    after (head, args.qStart e + row, c) = after' (0, head, row, c) := by
  obtain ⟨startM, x, tile, tile', contiguous, paged⟩ :=
    laid.exists_program (A := A) positive wide e_lt head_lt row_lt c_lt
  have last : e * args.h + head < entries * args.h := by
    have step : (e + 1) * args.h ≤ entries * args.h := Nat.mul_le_mul_right args.h e_lt
    rw [Nat.succ_mul] at step
    omega
  have own : head < 1 * args.h := by rwa [Nat.one_mul]
  rw [result.written laid.separate ⟨tile', last⟩ paged,
    alone.written ((args.entry e).separate 1) ⟨tile, own⟩ contiguous]

theorem LaidOut.one_writer (laid : args.LaidOut entries maxQLen) (positive : 1 ≤ args.blockM)
    (wide : args.d ≤ args.blockD) {head row c : Nat} (head_lt : head < args.h)
    (row_lt : row < spanStart args.qLen entries) (c_lt : c < args.d) :
    ∃! e, e < entries ∧ ∃ startM < maxQLen ⌈/⌉ args.blockM,
      (head, row, c) ∈ (pagedAttention2 A args startM (e * args.h + head)).map Prod.fst := by
  obtain ⟨e, e_lt, span⟩ := exists_span row_lt
  have inside : row - spanStart args.qLen e < args.qLen e := by
    have bounds := span
    simp only [InSpan] at bounds
    omega
  obtain ⟨startM, x, -, tile, -, paged⟩ :=
    laid.exists_program (A := A) positive wide e_lt head_lt inside c_lt
  rw [laid.starts e e_lt (by omega), Nat.add_sub_cancel' span.1] at paged
  refine ⟨e, ⟨e_lt, startM, tile, List.mem_map_of_mem paged⟩, ?_⟩
  rintro e' ⟨e'_lt, startM', -, written⟩
  obtain ⟨i, lane, bound, same⟩ := cell_of_program written
  rw [(mul_add_div_mod head_lt).1] at bound same
  simp only [Prod.mk.injEq] at same
  refine (span.unique ?_).symm
  rw [same.2.1]
  exact laid.inSpan e'_lt bound

end PagedArgs

/-- The launch of a batch writes, operation for operation, what the contiguous kernel computes on each
entry alone: every row once, by its own entry, from nothing but that entry's cached positions. -/
theorem paged_refines_contiguous (A : Arithmetic R) (args : PagedArgs R) (entries maxQLen : Nat)
    (laid : args.LaidOut entries maxQLen) (blockM : 1 ≤ args.blockM)
    (blockSize : 1 ≤ args.blockSizeKv) (wide : args.d ≤ args.blockD) :
    (∀ startM e starts, ∀ head < args.h, args.loop A startM e head starts =
      (args.entry e).loop A startM head starts) ∧
    (∀ startM e, ∀ head < args.h, pagedAttention2 A args startM (e * args.h + head) =
      (flashAttention2 A (args.entry e) startM head).map (Prod.map (args.place e) id)) ∧
    (∀ before after, (args.launch A entries maxQLen).Result before after →
      ∀ e < entries, ∀ before' after', ((args.entry e).launch A 1).Result before' after' →
        ∀ head < args.h, ∀ row < args.qLen e, ∀ c < args.d,
          after (head, args.qStart e + row, c) = after' (0, head, row, c)) ∧
    (args.launch A entries maxQLen).Separate ∧
    (∀ head < args.h, ∀ row < spanStart args.qLen entries, ∀ c < args.d,
      ∃! e, e < entries ∧ ∃ startM < maxQLen ⌈/⌉ args.blockM,
        (head, row, c) ∈ (pagedAttention2 A args startM (e * args.h + head)).map Prod.fst) ∧
    (∀ startM e, ∀ head < args.h, args.qLen e = 0 →
      pagedAttention2 A args startM (e * args.h + head) = []) ∧
    ∀ e kPool vPool blockTable, args.Agree kPool vPool blockTable e → ∀ startM, ∀ head < args.h,
      pagedAttention2 A { args with kPool, vPool, blockTable } startM (e * args.h + head) =
        pagedAttention2 A args startM (e * args.h + head) := by
  refine ⟨?_, ?_, ?_, laid.separate, ?_, ?_, ?_⟩
  · intro startM e starts head head_lt
    exact PagedArgs.loop_entry A startM e (Nat.mod_eq_of_lt head_lt) starts
  · intro startM e head head_lt
    obtain ⟨entryIdx, headIdx⟩ := mul_add_div_mod (z := e) head_lt
    rw [PagedArgs.pagedAttention2_eq, entryIdx, headIdx]
  · intro before after result e e_lt before' after' alone head head_lt row row_lt c c_lt
    exact laid.written blockM wide result e_lt head_lt row_lt c_lt alone
  · intro head head_lt row row_lt c c_lt
    exact laid.one_writer blockM wide head_lt row_lt c_lt
  · intro startM e head head_lt padding
    simp only [pagedAttention2]
    rw [(mul_add_div_mod head_lt).1, padding, if_pos (Nat.zero_le _)]
  · intro e kPool vPool blockTable agree startM head head_lt
    refine PagedArgs.pagedAttention2_congr A blockSize ?_ startM
    rwa [(mul_add_div_mod head_lt).1]

def sampleArithmetic : Arithmetic Int where
  zero := 0
  negInf := -1000
  add := (· + ·)
  sub := (· - ·)
  mul := (· * ·)
  div := (· / ·)
  maximum := max
  exp x := if x < 0 then 0 else 1
  invSqrt _ := 1
  toV x := x
  dot _ x y := fun i c => (List.ofFn fun j => x i j * y j c).sum
  rowMax tile i := (List.ofFn (tile i)).foldl max (-1000)
  rowSum tile i := (List.ofFn (tile i)).sum

def sampleBatch (q : PagedCell → R) (kPool vPool : Cell → R) (softmaxScale : R) : PagedArgs R where
  q := q
  kPool := kPool
  vPool := vPool
  blockTable e cell := [[4, 2], [0, 0], [1, 0]].getD e [] |>.getD cell 0
  contextLen e := [3, 0, 2].getD e 0
  queryOffsetArr e := [1, 0, 1].getD e 0
  qStart e := [0, 1, 2].getD e 0
  qLen e := [2, 0, 1].getD e 0
  h := 2
  d := 1
  blockSizeKv := 2
  softmaxScale := softmaxScale
  nGroups := 2
  blockM := 2
  blockN := 2
  blockD := 1
  precision := .ieee

theorem paged_refines_contiguous_sample :
    ∃! e : Nat, e < 3 ∧ ∃ startM < (2 : Nat) ⌈/⌉ (2 : Nat), (1, 2, 0) ∈ (pagedAttention2 sampleArithmetic
      (sampleBatch (fun _ => 1) (fun _ => 2) (fun _ => 3) 1) startM (e * 2 + 1)).map Prod.fst :=
  (paged_refines_contiguous sampleArithmetic
    (sampleBatch (fun _ => 1) (fun _ => 2) (fun _ => 3) 1) 3 2 ⟨by decide, by decide⟩ (by decide)
    (by decide) (by decide)).2.2.2.2.1 1 (by decide) 2 (by decide) 0 (by decide)

end LlmServing.Kernels
