import LlmServing.Paged.Stall
import Mathlib.Algebra.Order.BigOperators.Group.List

/-!
# What the decode pass preempts

`_plan_decodes` keeps the longest prefix of `running` that the pool affords one more token for each
of its DECODING sequences, once everything behind that prefix is freed.
-/

namespace LlmServing.Paged

open Scheduling Runner Engine Lib

section

variable {α : Type} [KVAllocator α]

/-- `_preempt_until_allocated` for `seq`, at index `i`, with the `IndexError` of a pop from an empty
`running` as `none`. -/
def preemptUntilAllocatedOrRaise (seq : Sequence) (i : Nat) (st : Planning α) :
    Option (Bool × Planning α) :=
  match allocate st.allocator seq 1 0 with
  | some (allocator, table) =>
      some (true, { st with
        running := st.running.set i { seq with blockTable := table }
        allocator })
  | none =>
      if _empty : st.running = [] then none
      else if st.running.length = i + 1 then some (false, preemptTail st)
      else preemptUntilAllocatedOrRaise seq i (preemptTail st)
termination_by st.running.length
decreasing_by
  have := List.length_pos_iff.mpr _empty
  rw [preemptTail_running, List.length_dropLast]
  omega

theorem preemptUntilAllocatedOrRaise_length_le {seq : Sequence} {i : Nat} {st st' : Planning α}
    {served : Bool} (returned : preemptUntilAllocatedOrRaise seq i st = some (served, st')) :
    st'.running.length ≤ st.running.length := by
  fun_induction preemptUntilAllocatedOrRaise seq i st with
  | case1 =>
      cases returned
      simp
  | case2 => cases returned
  | case3 =>
      cases returned
      simp [preemptTail_running]
  | case4 st refused empty more ih =>
      have shrinks := ih returned
      rw [preemptTail_running, List.length_dropLast] at shrinks
      omega

def planDecodesOrRaise (i : Nat) (st : Planning α) : Option (Planning α) :=
  if _inside : i < st.running.length then
    let seq := st.running[i]
    if seq.status = .decoding then
      match _tried : preemptUntilAllocatedOrRaise seq i st with
      | none => none
      | some (served, st') =>
          planDecodesOrRaise (i + 1)
            (if served then { st' with plan := st'.plan.add seq 1 } else st')
    else planDecodesOrRaise (i + 1) st
  else some st
termination_by st.running.length - i
decreasing_by
  · have shrinks := preemptUntilAllocatedOrRaise_length_le _tried
    split
    · simp only
      omega
    · omega
  · omega

theorem preemptUntilAllocatedOrRaise_eq {i : Nat} {st : Planning α}
    (inside : i < st.running.length) :
    preemptUntilAllocatedOrRaise st.running[i] i st = some (preemptUntilAllocated i st) := by
  fun_induction preemptUntilAllocated i st with
  | case1 st inside seq a table granted =>
      rw [preemptUntilAllocatedOrRaise, granted]
  | case2 st inside seq refused last =>
      have some : st.running ≠ [] := List.ne_nil_of_length_pos (by omega)
      rw [preemptUntilAllocatedOrRaise, refused]
      simp only [dif_neg some, if_pos last.symm]
  | case3 st inside' seq refused more ih =>
      have some : st.running ≠ [] := List.ne_nil_of_length_pos (by omega)
      have shorter : i < (preemptTail st).running.length := by
        rw [preemptTail_running, List.length_dropLast]
        omega
      have same : (preemptTail st).running[i] = st.running[i] := by
        simp only [preemptTail_running, List.getElem_dropLast]
      have later := ih shorter
      rw [same] at later
      rw [preemptUntilAllocatedOrRaise, refused]
      simp only [dif_neg some, if_neg (Ne.symm more)]
      exact later
  | case4 st outside => exact absurd inside outside

theorem planDecodesOrRaise_eq (i : Nat) (st : Planning α) :
    planDecodesOrRaise i st = some (planDecodesFrom i st) := by
  fun_induction planDecodesFrom i st with
  | case1 i st inside seq status tried served ih =>
      have same : preemptUntilAllocatedOrRaise st.running[i] i st = some (true, tried.2) :=
        (preemptUntilAllocatedOrRaise_eq inside).trans (by rw [← served])
      rw [planDecodesOrRaise, dif_pos inside]
      simp only
      rw [if_pos status]
      split
      · rename_i raised
        cases raised.symm.trans same
      · rename_i result
        cases result.symm.trans same
        exact ih
  | case2 i st inside seq status tried refused ih =>
      have same : preemptUntilAllocatedOrRaise st.running[i] i st = some (false, tried.2) :=
        (preemptUntilAllocatedOrRaise_eq inside).trans (by
          rw [← Bool.eq_false_iff.mpr refused])
      rw [planDecodesOrRaise, dif_pos inside]
      simp only
      rw [if_pos status]
      split
      · rename_i raised
        cases raised.symm.trans same
      · rename_i result
        cases result.symm.trans same
        exact ih
  | case3 i st inside seq status ih =>
      rw [planDecodesOrRaise, dif_pos inside]
      simp only
      rw [if_neg status, ih]
  | case4 i st outside => rw [planDecodesOrRaise, dif_neg outside]

end

/-! ## The longest prefix the pool affords -/

def decodeNeed (a : BlockAllocator) (seq : Sequence) : Int :=
  if seq.status = .decoding then a.neededBlocks seq.blockTable 1 else 0

def decodeNeeds (a : BlockAllocator) (seqs : List Sequence) : Int := (seqs.map (decodeNeed a)).sum

def Affordable (a : BlockAllocator) (running : List Sequence) (k : Nat) : Prop :=
  decodeNeeds a (running.take k) ≤ a.freeBlocks.length + heldBy (running.drop k)

instance (a : BlockAllocator) (running : List Sequence) (k : Nat) :
    Decidable (Affordable a running k) := by
  unfold Affordable
  infer_instance

/-- The length of the longest affordable prefix of `running`. -/
def keptCount (a : BlockAllocator) (running : List Sequence) : Nat :=
  Nat.findGreatest (Affordable a running) running.length

structure Keeps (a : BlockAllocator) (running : List Sequence) (k : Nat) : Prop where
  le : k ≤ running.length
  affordable : Affordable a running k
  largest : ∀ j ≤ running.length, Affordable a running j → j ≤ k

@[simp] theorem decodeNeeds_nil (a : BlockAllocator) : decodeNeeds a [] = 0 := rfl

@[simp] theorem decodeNeeds_cons (a : BlockAllocator) (seq : Sequence) (seqs : List Sequence) :
    decodeNeeds a (seq :: seqs) = decodeNeed a seq + decodeNeeds a seqs := rfl

@[simp] theorem decodeNeeds_append (a : BlockAllocator) (first second : List Sequence) :
    decodeNeeds a (first ++ second) = decodeNeeds a first + decodeNeeds a second := by
  simp [decodeNeeds]

theorem keptCount_keeps (a : BlockAllocator) (running : List Sequence) :
    Keeps a running (keptCount a running) where
  le := Nat.findGreatest_le _
  affordable := by
    have none : Affordable a running 0 := by
      simp only [Affordable, List.take_zero, decodeNeeds_nil]
      omega
    exact Nat.findGreatest_spec (Nat.zero_le _) none
  largest _ within affordable := Nat.le_findGreatest within affordable

variable {a a' : BlockAllocator} {seq victim : Sequence} {behind rest : List Sequence} {k : Nat}

theorem decodeNeed_congr (same : a'.blockSize = a.blockSize) : decodeNeed a' = decodeNeed a := by
  funext seq
  simp only [decodeNeed, BlockAllocator.neededBlocks, same]

theorem decodeNeeds_congr (same : a'.blockSize = a.blockSize) : decodeNeeds a' = decodeNeeds a := by
  funext seqs
  rw [decodeNeeds, decodeNeeds, decodeNeed_congr same]

theorem decodeNeed_nonneg (filled : TableFilled a.blockSize seq.blockTable) :
    0 ≤ decodeNeed a seq := by
  have grows : seq.blockTable.numTokens ⌈/⌉ a.blockSize ≤
      (seq.blockTable.numTokens + 1) ⌈/⌉ a.blockSize :=
    (gc_mul_ceilDiv a.blockSize_pos).monotone_l (Nat.le_add_right _ _)
  rw [TableFilled] at filled
  unfold decodeNeed BlockAllocator.neededBlocks
  split <;> omega

theorem decodeNeeds_nonneg {seqs : List Sequence}
    (filled : ∀ seq ∈ seqs, TableFilled a.blockSize seq.blockTable) : 0 ≤ decodeNeeds a seqs :=
  List.sum_nonneg fun need member => by
    obtain ⟨seq, found, rfl⟩ := List.mem_map.mp member
    exact decodeNeed_nonneg (filled seq found)

theorem affordable_cons (same : a'.blockSize = a.blockSize)
    (paid : (a'.freeBlocks.length : Int) + decodeNeed a seq = a.freeBlocks.length) (j : Nat) :
    Affordable a (seq :: behind) (j + 1) ↔ Affordable a' behind j := by
  simp only [Affordable, List.take_succ_cons, List.drop_succ_cons, decodeNeeds_cons,
    decodeNeeds_congr same]
  omega

theorem Keeps.serve (keeps : Keeps a (seq :: behind) k) (same : a'.blockSize = a.blockSize)
    (paid : (a'.freeBlocks.length : Int) + decodeNeed a seq = a.freeBlocks.length) :
    ∃ j, k = j + 1 ∧ Keeps a' behind j := by
  have one : Affordable a (seq :: behind) (0 + 1) := by
    simp only [Affordable, Nat.zero_add, List.take_succ_cons, List.take_zero, decodeNeeds_cons,
      decodeNeeds_nil]
    omega
  have some := keeps.largest _ (by simp) one
  obtain ⟨j, rfl⟩ : ∃ j, k = j + 1 := ⟨k - 1, by omega⟩
  refine ⟨j, rfl, by simpa using keeps.le, (affordable_cons same paid j).mp keeps.affordable,
    fun i within affordable => ?_⟩
  have less := keeps.largest (i + 1) (by simpa using within) ((affordable_cons same paid i).mpr affordable)
  omega

theorem affordable_concat (same : a'.blockSize = a.blockSize)
    (freed : a'.freeBlocks.length = a.freeBlocks.length + victim.blockTable.physicalBlocks.length)
    {j : Nat} (within : j ≤ rest.length) :
    Affordable a (rest ++ [victim]) j ↔ Affordable a' rest j := by
  simp only [Affordable, List.take_append_of_le_length within, List.drop_append_of_le_length within,
    heldBy_append, heldBy_cons, heldBy_nil, decodeNeeds_congr same]
  omega

theorem Keeps.pop (keeps : Keeps a (rest ++ [victim]) k)
    (filled : ∀ seq ∈ rest ++ [victim], TableFilled a.blockSize seq.blockTable)
    (head : (rest ++ [victim]).head? = some seq)
    (refused : (a.freeBlocks.length : Int) < decodeNeed a seq) (same : a'.blockSize = a.blockSize)
    (freed : a'.freeBlocks.length = a.freeBlocks.length + victim.blockTable.physicalBlocks.length) :
    Keeps a' rest k := by
  have within : k ≤ rest.length := by
    by_contra whole
    have le := keeps.le
    have all : (rest ++ [victim]).length = k := by
      simp only [List.length_append, List.length_singleton] at le ⊢
      omega
    obtain ⟨tail, split⟩ := List.head?_eq_some_iff.mp head
    have others : 0 ≤ decodeNeeds a tail :=
      decodeNeeds_nonneg fun other member => filled other (by simp [split, member])
    have paid := keeps.affordable
    rw [Affordable, ← all, List.take_length, List.drop_length, split, decodeNeeds_cons] at paid
    simp only [heldBy_nil] at paid
    omega
  refine ⟨within, (affordable_concat same freed within).mp keeps.affordable,
    fun j less affordable => keeps.largest j ?_ ((affordable_concat same freed less).mpr affordable)⟩
  simp only [List.length_append, List.length_singleton]
  omega

/-! ## The closed form of the pass -/

def requeued (seq : Sequence) : Sequence :=
  { seq with
    blockTable := { seq.blockTable with physicalBlocks := [], numTokens := 0 }
    prefillProgress := 0
    status := .waiting }

def decodeEntries (seqs : List Sequence) : List BatchEntry :=
  (seqs.filter (·.status = .decoding)).map fun seq => ⟨seq.seqId, 1, false⟩

def Grown (a : BlockAllocator) (seq seq' : Sequence) : Prop :=
  ∃ blocks : List Nat, (blocks.length : Int) = decodeNeed a seq ∧
    seq' = { seq with blockTable := { seq.blockTable with
      physicalBlocks := seq.blockTable.physicalBlocks ++ blocks
      numTokens := seq.blockTable.numTokens + if seq.status = .decoding then 1 else 0 } }

theorem grown_waiting (a : BlockAllocator) (status : seq.status ≠ .decoding) : Grown a seq seq :=
  ⟨[], by rw [decodeNeed, if_neg status]; rfl, by rw [if_neg status, List.append_nil]; rfl⟩

theorem grown_granted {table : BlockTable} (status : seq.status = .decoding)
    (filled : TableFilled a.blockSize seq.blockTable)
    (granted : allocate a seq 1 0 = some (a', table)) :
    Grown a seq { seq with blockTable := table } ∧ a'.blockSize = a.blockSize ∧
      (a'.freeBlocks.length : Int) + decodeNeed a seq = a.freeBlocks.length := by
  have positive := decodeNeed_nonneg filled
  obtain ⟨fits, rfl, rfl⟩ := BlockAllocator.allocate_eq_some granted
  rw [decodeNeed, if_pos status] at positive
  refine ⟨⟨a.freeBlocks.take (a.neededBlocks seq.blockTable 1).toNat, ?_, ?_⟩, rfl, ?_⟩
  · rw [decodeNeed, if_pos status, List.length_take]
    omega
  · rw [if_pos status]
  · rw [decodeNeed, if_pos status, List.length_drop]
    omega

structure Decoded (a a' : BlockAllocator) (running served : List Sequence) (k : Nat) : Prop where
  grown : List.Forall₂ (Grown a) (running.take k) served
  blockSize : a'.blockSize = a.blockSize
  freeBlocks : (a'.freeBlocks.length : Int) + decodeNeeds a (running.take k) =
    a.freeBlocks.length + heldBy (running.drop k)

theorem Decoded.serve {a₁ : BlockAllocator} {seq' : Sequence} {served : List Sequence} {j : Nat}
    (decoded : Decoded a₁ a' behind served j) (grown : Grown a seq seq')
    (same : a₁.blockSize = a.blockSize)
    (paid : (a₁.freeBlocks.length : Int) + decodeNeed a seq = a.freeBlocks.length) :
    Decoded a a' (seq :: behind) (seq' :: served) (j + 1) where
  grown := by
    rw [List.take_succ_cons]
    refine .cons grown ?_
    have later := decoded.grown
    unfold Grown at later
    rwa [decodeNeed_congr same] at later
  blockSize := decoded.blockSize.trans same
  freeBlocks := by
    have later := decoded.freeBlocks
    rw [decodeNeeds_congr same] at later
    simp only [List.take_succ_cons, List.drop_succ_cons, decodeNeeds_cons]
    omega

theorem Decoded.pop {a₁ : BlockAllocator} {served : List Sequence}
    (decoded : Decoded a₁ a' rest served k) (within : k ≤ rest.length)
    (freed : Freed a a₁ victim.blockTable.physicalBlocks.length) :
    Decoded a a' (rest ++ [victim]) served k where
  grown := by
    have later := decoded.grown
    unfold Grown at later
    rw [decodeNeed_congr freed.blockSize] at later
    rwa [List.take_append_of_le_length within]
  blockSize := decoded.blockSize.trans freed.blockSize
  freeBlocks := by
    have later := decoded.freeBlocks
    have count := freed.count
    rw [decodeNeeds_congr freed.blockSize] at later
    rw [List.take_append_of_le_length within, List.drop_append_of_le_length within, heldBy_append]
    simp only [heldBy_cons, heldBy_nil]
    omega

theorem planDecodesFrom_keeps (front : List Sequence) {todo : List Sequence}
    (waiting : List Sequence) {a : BlockAllocator} (plan : BatchPlan) {k : Nat}
    (filled : ∀ seq ∈ todo, TableFilled a.blockSize seq.blockTable) (keeps : Keeps a todo k) :
    ∃ a' served,
      planDecodesFrom front.length ⟨front ++ todo, waiting, a, plan⟩ =
        ⟨front ++ served, (todo.drop k).map requeued ++ waiting, a',
          { plan with
            entries := plan.entries ++ decodeEntries (todo.take k)
            preempted := plan.preempted ++ ((todo.drop k).map (·.seqId)).reverse }⟩ ∧
      Decoded a a' todo served k := by
  -- One sequence fewer is left to reach with every move: the head served or passed over, or the
  -- tail popped.
  induction size : todo.length using Nat.strong_induction_on
    generalizing front todo waiting a plan k with
  | _ n ih =>
  cases todo with
  | nil =>
      obtain rfl : k = 0 := Nat.le_zero.mp keeps.le
      rw [planDecodesFrom_stop (by simp)]
      exact ⟨a, [], by simp [decodeEntries], .nil, rfl, by simp⟩
  | cons seq behind =>
      by_cases status : seq.status = .decoding
      · cases granted : allocate a seq 1 0 with
        | some result =>
            obtain ⟨a₁, table⟩ := result
            obtain ⟨grown, same, paid⟩ := grown_granted status (filled seq (by simp)) granted
            obtain ⟨j, rfl, later⟩ := keeps.serve same paid
            obtain ⟨a', served, done, decoded⟩ := ih behind.length (by simp at size; omega)
              (front ++ [{ seq with blockTable := table }]) waiting (plan.add seq 1)
              (fun other member => same ▸ filled other (by simp [member])) later rfl
            rw [planDecodesFrom_serve _ _ _ _ status granted, done]
            exact ⟨a', _, by simp [decodeEntries, status], decoded.serve grown same paid⟩
        | none =>
            obtain ⟨rest, victim, split⟩ : ∃ rest victim, seq :: behind = rest ++ [victim] :=
              ⟨_, _, (List.dropLast_append_getLast (List.cons_ne_nil seq behind)).symm⟩
            have head : (rest ++ [victim]).head? = some seq := by rw [← split]; rfl
            have refused : (a.freeBlocks.length : Int) < decodeNeed a seq := by
              rw [decodeNeed, if_pos status]
              exact refused_iff.mp granted
            have freed := freed_free a victim.blockTable
            rw [split] at filled keeps size ⊢
            have later := keeps.pop filled head refused freed.blockSize freed.count
            obtain ⟨a', served, done, decoded⟩ := ih rest.length (by simp at size; omega) front
              (requeued victim :: waiting)
              { plan with preempted := plan.preempted ++ [victim.seqId] }
              (fun other member => freed.blockSize ▸ filled other (by simp [member])) later rfl
            have popped := planDecodesFrom_pop front waiting plan head status granted
            rw [popped]
            refine ⟨a', served, done.trans ?_, decoded.pop later.le freed⟩
            rw [List.take_append_of_le_length later.le, List.drop_append_of_le_length later.le]
            simp
      · have none : decodeNeed a seq = 0 := if_neg status
        obtain ⟨j, rfl, later⟩ := keeps.serve rfl (by omega)
        obtain ⟨a', served, done, decoded⟩ := ih behind.length (by simp at size; omega)
          (front ++ [seq]) waiting plan (fun other member => filled other (by simp [member])) later rfl
        rw [planDecodesFrom_pass _ _ _ _ _ status, done]
        exact ⟨a', _, by simp [decodeEntries, status],
          decoded.serve (grown_waiting a status) rfl (by omega)⟩

theorem planDecodes_kept {a : BlockAllocator} {running : List Sequence}
    (filled : ∀ seq ∈ running, TableFilled a.blockSize seq.blockTable) (waiting : List Sequence) :
    ∃ a' served,
      planDecodes ⟨running, waiting, a, {}⟩ =
        ⟨served, (running.drop (keptCount a running)).map requeued ++ waiting, a',
          { entries := decodeEntries (running.take (keptCount a running))
            preempted := ((running.drop (keptCount a running)).map (·.seqId)).reverse }⟩ ∧
      Decoded a a' running served (keptCount a running) :=
  planDecodesFrom_keeps [] waiting {} filled (keptCount_keeps a running)

/-- The decode pass keeps the longest affordable prefix and plans one token for each sequence that
decodes in it; what is behind goes to the head of `waiting`, and no pop ever finds `running` empty. -/
theorem longest_affordable_prefix {a : BlockAllocator} {running : List Sequence}
    (filled : ∀ seq ∈ running, TableFilled a.blockSize seq.blockTable) (waiting : List Sequence) :
    Keeps a running (keptCount a running) ∧
    ∃ a' served,
      planDecodes ⟨running, waiting, a, {}⟩ =
        ⟨served, (running.drop (keptCount a running)).map requeued ++ waiting, a',
          { entries := decodeEntries (running.take (keptCount a running))
            preempted := ((running.drop (keptCount a running)).map (·.seqId)).reverse }⟩ ∧
      planDecodesOrRaise 0 ⟨running, waiting, a, {}⟩ =
        some (planDecodes ⟨running, waiting, a, {}⟩) ∧
      Decoded a a' running served (keptCount a running) := by
  have keeps := keptCount_keeps a running
  obtain ⟨a', served, done, decoded⟩ := planDecodesFrom_keeps [] waiting {} filled keeps
  exact ⟨keeps, a', served, done, planDecodesOrRaise_eq 0 _, decoded⟩

def fullSequence (seqId : SeqId) (block : Nat) : Sequence :=
  { sequenceFromIngress (sampleRequest seqId 5 [6, 7, 8] 255) with
    generatedTokens := [9]
    blockTable := { physicalBlocks := [block], numTokens := 4 }
    status := .decoding
    prefillProgress := 4 }

def crowdedPool : BlockAllocator := { samplePool 3 3 with freeBlocks := [] }

def crowd : List Sequence := [fullSequence 1 0, fullSequence 2 1, fullSequence 3 2]

theorem longest_affordable_prefix_crowd :
    Keeps crowdedPool crowd (keptCount crowdedPool crowd) ∧
    ∃ a' served,
      planDecodes ⟨crowd, [], crowdedPool, {}⟩ =
        ⟨served, (crowd.drop (keptCount crowdedPool crowd)).map requeued ++ [], a',
          { entries := decodeEntries (crowd.take (keptCount crowdedPool crowd))
            preempted := ((crowd.drop (keptCount crowdedPool crowd)).map (·.seqId)).reverse }⟩ ∧
      planDecodesOrRaise 0 ⟨crowd, [], crowdedPool, {}⟩ =
        some (planDecodes ⟨crowd, [], crowdedPool, {}⟩) ∧
      Decoded crowdedPool a' crowd served (keptCount crowdedPool crowd) :=
  longest_affordable_prefix (by decide) []

example : keptCount crowdedPool crowd = 1 := by decide

end LlmServing.Paged
