import LlmServing.Lib.Keyed
import LlmServing.Scheduling.Scheduler
import Mathlib.Data.List.Perm.Basic
import Mathlib.Logic.Relation
import Mathlib.Tactic.Tauto

/-!
# What one scheduler step can do

`PlanStep` lists the elementary moves of the three passes: a decode slot, a preemption, a prefill
chunk, a rejection, an admission. `schedulerStep` is a chain of them, so an invariant of the moves
is an invariant of every step.
-/

namespace LlmServing.Scheduling

variable {α : Type} [KVAllocator α]

def Unplanned (plan : BatchPlan) (seq : Sequence) : Prop := seq.seqId ∉ plan.ids

def Scheduler.chunk (scheduler : Scheduler) (left budget : Nat) : Nat :=
  min (min left budget) scheduler.maxPrefillChunk

inductive PlanStep (scheduler : Scheduler) (now : Time) : Planning α → Planning α → Prop where
  | decode {front behind waiting : List Sequence} {seq : Sequence} {a a' : α} {plan : BatchPlan}
      {table : BlockTable} :
      seq.status = .decoding → Unplanned plan seq → allocate a seq 1 0 = some (a', table) →
      PlanStep scheduler now ⟨front ++ seq :: behind, waiting, a, plan⟩
        ⟨front ++ { seq with blockTable := table } :: behind, waiting, a', plan.add seq 1⟩
  | preempt {front waiting : List Sequence} {victim served : Sequence} {a : α}
      {plan : BatchPlan} :
      Unplanned plan victim → served ∈ front ++ [victim] → served.status = .decoding →
      allocate a served 1 0 = none →
      PlanStep scheduler now ⟨front ++ [victim], waiting, a, plan⟩
        ⟨front, requeue victim (free a victim.blockTable).2 :: waiting,
          (free a victim.blockTable).1,
          { plan with preempted := plan.preempted ++ [victim.seqId] }⟩
  | continue {front behind waiting : List Sequence} {seq : Sequence} {a a' : α}
      {plan : BatchPlan} {table : BlockTable} {budget chunk : Nat} :
      seq.status = .prefilling → Unplanned plan seq → 0 < budget →
      chunk = scheduler.chunk (seq.numTokens - seq.prefillProgress) budget →
      allocate a seq chunk 0 = some (a', table) →
      PlanStep scheduler now ⟨front ++ seq :: behind, waiting, a, plan⟩
        ⟨front ++ advancePrefill { seq with blockTable := table } chunk :: behind, waiting, a',
          plan.add seq chunk true⟩
  | reject {before after running : List Sequence} {seq : Sequence} {a : α} {plan : BatchPlan} :
      canEverFit a seq = false →
      PlanStep scheduler now ⟨running, before ++ seq :: after, a, plan⟩
        ⟨running, before ++ after, a, { plan with rejected := plan.rejected ++ [seq] }⟩
  | admission {before after running : List Sequence} {seq : Sequence} {a a' : α} {plan : BatchPlan}
      {table : BlockTable} {budget chunk : Nat} :
      canEverFit a seq = true → 0 < budget → running.length < scheduler.maxRunning →
      chunk = scheduler.chunk seq.numTokens budget →
      allocate a seq chunk running.length = some (a', table) →
      PlanStep scheduler now ⟨running, before ++ seq :: after, a, plan⟩
        ⟨running ++ [stampAdmission now (advancePrefill { seq with blockTable := table } chunk)],
          skipHead before ++ after, a', plan.add seq chunk true⟩

abbrev PlanSteps (scheduler : Scheduler) (now : Time) : Planning α → Planning α → Prop :=
  Relation.ReflTransGen (PlanStep scheduler now)

@[simp] theorem seqId_requeue (victim : Sequence) (table : BlockTable) :
    (requeue victim table).seqId = victim.seqId := rfl

@[simp] theorem seqId_advancePrefill (seq : Sequence) (chunk : Nat) :
    (advancePrefill seq chunk).seqId = seq.seqId := rfl

@[simp] theorem seqId_stampAdmission (now : Time) (seq : Sequence) :
    (stampAdmission now seq).seqId = seq.seqId := rfl

@[simp] theorem map_seqId_skipHead (waiting : List Sequence) :
    (skipHead waiting).map (·.seqId) = waiting.map (·.seqId) := by
  cases waiting <;> rfl

def Planning.live (st : Planning α) : List Sequence := st.running ++ st.waiting ++ st.plan.rejected

structure Planning.Distinct (st : Planning α) : Prop where
  ids : (st.live.map (·.seqId)).Nodup
  entries : st.plan.ids.Nodup
  planned : ∀ id ∈ st.plan.ids, id ∈ st.running.map (·.seqId)

section

variable {st : Planning α}

omit [KVAllocator α]

theorem Planning.Distinct.parts (distinct : st.Distinct) :
    (st.running.map (·.seqId) ++ (st.waiting.map (·.seqId) ++ st.plan.rejected.map (·.seqId))).Nodup := by
  have ids := distinct.ids
  simp only [Planning.live, List.map_append, List.append_assoc] at ids
  exact ids

theorem Planning.Distinct.running_nodup (distinct : st.Distinct) :
    (st.running.map (·.seqId)).Nodup := distinct.parts.of_append_left

theorem Planning.Distinct.rejected_nodup (distinct : st.Distinct) :
    (st.plan.rejected.map (·.seqId)).Nodup := distinct.parts.of_append_right.of_append_right

theorem Planning.Distinct.running_not_rejected (distinct : st.Distinct) {id : SeqId}
    (member : id ∈ st.running.map (·.seqId)) : id ∉ st.plan.rejected.map (·.seqId) := fun named =>
  List.disjoint_of_nodup_append distinct.parts member (List.mem_append_right _ named)

theorem Planning.Distinct.running_not_waiting (distinct : st.Distinct) {id : SeqId}
    (member : id ∈ st.running.map (·.seqId)) : id ∉ st.waiting.map (·.seqId) := fun waiting =>
  List.disjoint_of_nodup_append distinct.parts member (List.mem_append_left _ waiting)

theorem Planning.Distinct.waiting_not_rejected (distinct : st.Distinct) {id : SeqId}
    (member : id ∈ st.waiting.map (·.seqId)) : id ∉ st.plan.rejected.map (·.seqId) := fun named =>
  List.disjoint_of_nodup_append distinct.parts.of_append_right member named

theorem Planning.Distinct.unplanned_waiting (distinct : st.Distinct) {seq : Sequence}
    (member : seq ∈ st.waiting) : Unplanned st.plan seq := fun planned =>
  List.disjoint_of_nodup_append distinct.parts (distinct.planned _ planned)
    (List.mem_append_left _ (List.mem_map_of_mem member))

end

theorem Unplanned.add_nodup {plan : BatchPlan} {seq : Sequence} (unplanned : Unplanned plan seq)
    (entries : plan.ids.Nodup) (n : Nat) (chunk : Bool) : (plan.add seq n chunk).ids.Nodup := by
  rw [BatchPlan.add_ids, ← List.concat_eq_append]
  exact entries.concat unplanned

theorem mem_add_ids {plan : BatchPlan} {seq : Sequence} {n : Nat} {chunk : Bool} {id : SeqId} :
    id ∈ (plan.add seq n chunk).ids ↔ id ∈ plan.ids ∨ id = seq.seqId := by simp

theorem Unplanned.add {plan : BatchPlan} {seq other : Sequence} {n : Nat} {chunk : Bool}
    (unplanned : Unplanned plan other) (different : seq.seqId ≠ other.seqId) :
    Unplanned (plan.add seq n chunk) other := by
  rw [Unplanned, mem_add_ids, not_or]
  exact ⟨unplanned, different.symm⟩

theorem PlanStep.ids_perm {scheduler : Scheduler} {now : Time} {st st' : Planning α}
    (step : PlanStep scheduler now st st') :
    (st.live.map (·.seqId)).Perm (st'.live.map (·.seqId)) := by
  cases step with
  | decode status unplanned granted => simp [Planning.live]
  | preempt unplanned served status refused => simp [Planning.live]
  | «continue» status unplanned positive chunk granted => simp [Planning.live]
  | @reject before after running seq a plan unfit =>
      refine List.Perm.map _ ?_
      simp only [Planning.live, List.append_assoc]
      refine List.Perm.append_left _ (List.Perm.append_left _ ?_)
      exact (List.perm_append_singleton seq (after ++ plan.rejected)).symm.trans (by simp)
  | @admission before after running seq a a' plan table budget chunk fits positive room size granted =>
      simp only [Planning.live, List.map_append, List.map_cons, List.map_nil, seqId_stampAdmission,
        seqId_advancePrefill, map_seqId_skipHead, List.append_assoc]
      exact List.Perm.append_left _ (by simp)

theorem PlanStep.distinct {scheduler : Scheduler} {now : Time} {st st' : Planning α}
    (step : PlanStep scheduler now st st') (distinct : st.Distinct) : st'.Distinct := by
  have unplannedWaiting := @Planning.Distinct.unplanned_waiting _ _ distinct
  have ids := step.ids_perm.nodup_iff.mp distinct.ids
  obtain ⟨-, entries, planned⟩ := distinct
  cases step with
  | decode status unplanned granted =>
      refine ⟨ids, unplanned.add_nodup entries _ _, fun id member => ?_⟩
      rcases mem_add_ids.mp member with member | rfl
      · simpa using planned id member
      · simp
  | preempt unplanned served status refused =>
      refine ⟨ids, entries, fun id member => ?_⟩
      have before := planned id member
      simp only [List.map_append, List.mem_append, List.map_cons, List.map_nil,
        List.mem_singleton] at before
      rcases before with before | rfl
      · exact before
      · exact absurd member unplanned
  | «continue» status unplanned positive chunk granted =>
      refine ⟨ids, unplanned.add_nodup entries _ _, fun id member => ?_⟩
      rcases mem_add_ids.mp member with member | rfl
      · simpa using planned id member
      · simp
  | reject unfit => exact ⟨ids, entries, planned⟩
  | admission fits positive room size granted =>
      refine ⟨ids, (unplannedWaiting (by simp)).add_nodup entries _ _, fun id member => ?_⟩
      rcases mem_add_ids.mp member with member | rfl
      · have before := planned id member
        simp only [List.map_append, List.mem_append]
        exact Or.inl before
      · simp

theorem PlanSteps.ids_perm {scheduler : Scheduler} {now : Time} {st st' : Planning α}
    (steps : PlanSteps scheduler now st st') :
    (st.live.map (·.seqId)).Perm (st'.live.map (·.seqId)) := by
  induction steps with
  | refl => exact .refl _
  | tail _ step ih => exact ih.trans step.ids_perm

theorem PlanSteps.distinct {scheduler : Scheduler} {now : Time} {st st' : Planning α}
    (steps : PlanSteps scheduler now st st') (distinct : st.Distinct) : st'.Distinct := by
  induction steps with
  | refl => exact distinct
  | tail _ step ih => exact step.distinct ih

/-! ## The passes are chains of moves -/

theorem preemptTail_concat (front waiting : List Sequence) (victim : Sequence) (a : α)
    (plan : BatchPlan) :
    preemptTail ⟨front ++ [victim], waiting, a, plan⟩ =
      ⟨front, requeue victim (free a victim.blockTable).2 :: waiting,
        (free a victim.blockTable).1,
        { plan with preempted := plan.preempted ++ [victim.seqId] }⟩ := by
  simp [preemptTail]

theorem preemptUntilAllocated_at (front behind waiting : List Sequence) (seq : Sequence) (a : α)
    (plan : BatchPlan) :
    preemptUntilAllocated front.length ⟨front ++ seq :: behind, waiting, a, plan⟩ =
      match allocate a seq 1 0 with
      | some (a', table) =>
          (true, ⟨front ++ { seq with blockTable := table } :: behind, waiting, a', plan⟩)
      | none =>
          if behind = [] then
            (false, preemptTail ⟨front ++ seq :: behind, waiting, a, plan⟩)
          else
            preemptUntilAllocated front.length
              (preemptTail ⟨front ++ seq :: behind, waiting, a, plan⟩) := by
  rw [preemptUntilAllocated, dif_pos (by simp)]
  simp only [List.getElem_append_right (Nat.le_refl _), Nat.sub_self, List.getElem_cons_zero]
  cases allocate a seq 1 0 with
  | some result => simp
  | none => simp

/-- Serving `running[i]` preempts part of what stands behind it, and the sequence itself only once
nothing does. -/
theorem preemptUntilAllocated_spec (scheduler : Scheduler) (now : Time)
    (front behind waiting : List Sequence) (seq : Sequence) (a : α) (plan : BatchPlan)
    (status : seq.status = .decoding) (unplanned : ∀ other ∈ seq :: behind, Unplanned plan other) :
    ∃ mid : Planning α,
      PlanSteps scheduler now ⟨front ++ seq :: behind, waiting, a, plan⟩ mid ∧
      mid.plan.entries = plan.entries ∧
      ((∃ kept a' table, kept <+: behind ∧ mid.running = front ++ seq :: kept ∧
          allocate mid.allocator seq 1 0 = some (a', table) ∧
          preemptUntilAllocated front.length ⟨front ++ seq :: behind, waiting, a, plan⟩ =
            (true, { mid with
              running := front ++ { seq with blockTable := table } :: kept
              allocator := a' })) ∨
        (mid.running = front ∧
          preemptUntilAllocated front.length ⟨front ++ seq :: behind, waiting, a, plan⟩ =
            (false, mid))) := by
  -- Induction over what stands behind `seq`, popped from its end.
  induction behind using List.reverseRecOn generalizing waiting a plan with
  | nil =>
      rw [preemptUntilAllocated_at]
      cases granted : allocate a seq 1 0 with
      | some result =>
          exact ⟨_, .refl, rfl, .inl ⟨[], result.1, result.2, List.prefix_rfl, rfl, granted, rfl⟩⟩
      | none =>
          refine ⟨_, .single (.preempt (unplanned seq (by simp)) (by simp) status granted), rfl,
            .inr ⟨rfl, ?_⟩⟩
          simp [preemptTail_concat]
  | append_singleton rest victim ih =>
      rw [preemptUntilAllocated_at]
      cases granted : allocate a seq 1 0 with
      | some result =>
          exact ⟨_, .refl, rfl, .inl ⟨_, result.1, result.2, List.prefix_rfl, rfl, granted, rfl⟩⟩
      | none =>
          have split : front ++ seq :: (rest ++ [victim]) = (front ++ seq :: rest) ++ [victim] := by
            simp
          have popped : PlanStep scheduler now ⟨(front ++ seq :: rest) ++ [victim], waiting, a, plan⟩
              _ := .preempt (unplanned victim (by simp)) (by simp) status granted
          obtain ⟨mid, steps, entries, served⟩ := ih
            (requeue victim (free a victim.blockTable).2 :: waiting) (free a victim.blockTable).1
            { plan with preempted := plan.preempted ++ [victim.seqId] }
            (fun other member => unplanned other (by
              simp only [List.mem_cons, List.mem_append] at member ⊢
              tauto))
          refine ⟨mid, .head (split ▸ popped) steps, entries, ?_⟩
          simp only [split, preemptTail_concat, List.append_eq_nil_iff, List.cons_ne_self, and_false,
            if_false]
          rcases served with ⟨kept, a', table, shorter, outcome⟩ | outcome
          · exact .inl ⟨kept, a', table, shorter.trans (List.prefix_append _ _), outcome⟩
          · exact .inr outcome

theorem preemptUntilAllocated_entries (i : Nat) (st : Planning α) :
    (preemptUntilAllocated i st).2.plan.entries = st.plan.entries := by
  have popped (st : Planning α) : (preemptTail st).plan.entries = st.plan.entries := by
    unfold preemptTail
    split <;> rfl
  fun_induction preemptUntilAllocated i st with
  | case1 | case4 => rfl
  | case2 => exact popped _
  | case3 st inside seq refused last ih => exact ih.trans (popped st)

theorem planDecodesFrom_stop {i : Nat} {st : Planning α} (stop : st.running.length ≤ i) :
    planDecodesFrom i st = st := by
  rw [planDecodesFrom, dif_neg (by omega)]

theorem planDecodesFrom_at (front behind waiting : List Sequence) (seq : Sequence) (a : α)
    (plan : BatchPlan) :
    planDecodesFrom front.length ⟨front ++ seq :: behind, waiting, a, plan⟩ =
      if seq.status = .decoding then
        let tried := preemptUntilAllocated front.length ⟨front ++ seq :: behind, waiting, a, plan⟩
        if tried.1 then
          planDecodesFrom (front.length + 1) { tried.2 with plan := tried.2.plan.add seq 1 }
        else planDecodesFrom (front.length + 1) tried.2
      else planDecodesFrom (front.length + 1) ⟨front ++ seq :: behind, waiting, a, plan⟩ := by
  rw [planDecodesFrom, dif_pos (by simp)]
  simp only [List.getElem_append_right (Nat.le_refl _), Nat.sub_self, List.getElem_cons_zero]

theorem planDecodesFrom_pass (front behind waiting : List Sequence) {seq : Sequence} (a : α)
    (plan : BatchPlan) (status : seq.status ≠ .decoding) :
    planDecodesFrom front.length ⟨front ++ seq :: behind, waiting, a, plan⟩ =
      planDecodesFrom (front ++ [seq]).length ⟨(front ++ [seq]) ++ behind, waiting, a, plan⟩ := by
  rw [planDecodesFrom_at, if_neg status, List.append_assoc, List.singleton_append,
    List.length_append, List.length_singleton]

theorem planDecodesFrom_serve (front behind waiting : List Sequence) {seq : Sequence} {a a' : α}
    (plan : BatchPlan) {table : BlockTable} (status : seq.status = .decoding)
    (granted : allocate a seq 1 0 = some (a', table)) :
    planDecodesFrom front.length ⟨front ++ seq :: behind, waiting, a, plan⟩ =
      planDecodesFrom (front ++ [{ seq with blockTable := table }]).length
        ⟨(front ++ [{ seq with blockTable := table }]) ++ behind, waiting, a', plan.add seq 1⟩ := by
  rw [planDecodesFrom_at, if_pos status, preemptUntilAllocated_at, granted, List.append_assoc,
    List.singleton_append, List.length_append, List.length_singleton]
  rfl

/-- A refused head costs the tail its place, which may be the head itself. -/
theorem planDecodesFrom_pop (front waiting : List Sequence) {rest : List Sequence}
    {seq victim : Sequence} {a : α} (plan : BatchPlan)
    (head : (rest ++ [victim]).head? = some seq) (status : seq.status = .decoding)
    (refused : allocate a seq 1 0 = none) :
    planDecodesFrom front.length ⟨front ++ (rest ++ [victim]), waiting, a, plan⟩ =
      planDecodesFrom front.length
        ⟨front ++ rest, requeue victim (free a victim.blockTable).2 :: waiting,
          (free a victim.blockTable).1,
          { plan with preempted := plan.preempted ++ [victim.seqId] }⟩ := by
  cases rest with
  | nil =>
      obtain rfl : victim = seq := by simpa using head
      rw [List.nil_append, planDecodesFrom_at, if_pos status, preemptUntilAllocated_at, refused]
      simp only [if_true, preemptTail_concat, Bool.false_eq_true, if_false, List.append_nil]
      rw [planDecodesFrom_stop (by simp), planDecodesFrom_stop (by simp)]
  | cons first rest =>
      obtain rfl : first = seq := by simpa using head
      have split : front ++ (first :: rest ++ [victim]) = (front ++ first :: rest) ++ [victim] := by
        simp
      rw [List.cons_append, planDecodesFrom_at, if_pos status, preemptUntilAllocated_at, refused,
        planDecodesFrom_at, if_pos status, ← List.cons_append, split, preemptTail_concat]
      simp only [List.append_eq_nil_iff, List.cons_ne_self, and_false, if_false]

/-- From index `i` on, the decode pass is a chain of moves, and leaves an entry for exactly the
DECODING sequences. -/
theorem planDecodesFrom_steps (scheduler : Scheduler) (now : Time)
    (front todo waiting : List Sequence) (a : α) (plan : BatchPlan)
    (distinct : ((front ++ todo).map (·.seqId)).Nodup)
    (unplanned : ∀ seq ∈ todo, Unplanned plan seq)
    (served : ∀ seq ∈ front, seq.status = .decoding ↔ seq.seqId ∈ plan.ids) :
    PlanSteps scheduler now ⟨front ++ todo, waiting, a, plan⟩
        (planDecodesFrom front.length ⟨front ++ todo, waiting, a, plan⟩) ∧
      ∀ seq ∈ (planDecodesFrom front.length ⟨front ++ todo, waiting, a, plan⟩).running,
        seq.status = .decoding ↔
          seq.seqId ∈ (planDecodesFrom front.length ⟨front ++ todo, waiting, a, plan⟩).plan.ids := by
  induction size : todo.length using Nat.strong_induction_on
    generalizing front todo waiting a plan with
  | _ n ih =>
  cases todo with
  | nil =>
      rw [planDecodesFrom_stop (by simp)]
      exact ⟨.refl, by simpa using served⟩
  | cons seq behind =>
      rw [planDecodesFrom_at]
      by_cases status : seq.status = .decoding
      · rw [if_pos status]
        obtain ⟨mid, steps, entries, ⟨kept, a', table, shorter, running, granted, tried⟩ |
          ⟨running, tried⟩⟩ := preemptUntilAllocated_spec scheduler now front behind waiting seq a
            plan status unplanned
        · -- Served: the loop goes on behind the grown sequence with what preemption left.
          have ids : mid.plan.ids = plan.ids := by simp [BatchPlan.ids, entries]
          obtain ⟨midRunning, midWaiting, midAllocator, midPlan⟩ := mid
          subst running
          have move : PlanStep scheduler now ⟨front ++ seq :: kept, midWaiting, midAllocator, midPlan⟩
              ⟨front ++ { seq with blockTable := table } :: kept, midWaiting, a', midPlan.add seq 1⟩ :=
            .decode status (by
              rw [Unplanned, ids]
              exact unplanned seq (by simp)) granted
          have sublist : (front ++ seq :: kept).Sublist (front ++ seq :: behind) :=
            List.Sublist.append_left (shorter.sublist.cons_cons seq) front
          have distinct' := distinct.sublist (sublist.map (·.seqId))
          have others := Lib.Keyed.ne_of_nodup_cons distinct'
          have rest := ih kept.length (by
              have := shorter.length_le
              simp only [List.length_cons] at size
              omega)
            (front ++ [{ seq with blockTable := table }]) kept midWaiting a' (midPlan.add seq 1)
            (by simpa using distinct')
            (fun other member => by
              have before : Unplanned midPlan other := by
                rw [Unplanned, ids]
                exact unplanned other (by simp [shorter.subset member])
              exact before.add (others other (by simp [member])))
            (fun other member => by
              simp only [List.mem_append, List.mem_singleton] at member
              rcases member with member | rfl
              · have different := (others other (by simp [member])).symm
                rw [served other member, mem_add_ids, ids]
                simp [different]
              · simp [status])
            rfl
          rw [tried]
          simp only [if_true]
          rw [List.append_assoc, List.singleton_append, List.length_append, List.length_singleton] at rest
          exact ⟨(steps.tail move).trans rest.1, rest.2⟩
        · -- The sequence itself was preempted: nothing is left behind `front`.
          rw [tried]
          simp only [Bool.false_eq_true, if_false]
          rw [planDecodesFrom_stop (by simp [running])]
          refine ⟨steps, fun other member => ?_⟩
          rw [running] at member
          rw [served other member, BatchPlan.ids, BatchPlan.ids, entries]
      · rw [if_neg status]
        have rest := ih behind.length (by simp only [List.length_cons] at size; omega)
          (front ++ [seq]) behind waiting a plan (by simpa using distinct)
          (fun other member => unplanned other (by simp [member]))
          (fun other member => by
            simp only [List.mem_append, List.mem_singleton] at member
            rcases member with member | rfl
            · exact served other member
            · exact iff_of_false status (unplanned other (by simp)))
          rfl
        rw [List.append_assoc, List.singleton_append, List.length_append, List.length_singleton] at rest
        exact rest

def DecodingPlanned (running : List Sequence) (plan : BatchPlan) : Prop :=
  ∀ seq ∈ running, seq.status = .decoding → seq.seqId ∈ plan.ids

theorem continuePrefills_steps (scheduler : Scheduler) (now : Time)
    (front todo waiting : List Sequence) (budget : Nat) (a : α) (plan : BatchPlan)
    (distinct : ((front ++ todo).map (·.seqId)).Nodup)
    (unplanned : ∀ seq ∈ todo, seq.status = .prefilling → Unplanned plan seq)
    (served : DecodingPlanned (front ++ todo) plan) :
    let result := continuePrefills scheduler budget a plan todo
    PlanSteps scheduler now ⟨front ++ todo, waiting, a, plan⟩
        ⟨front ++ result.1, waiting, result.2.1, result.2.2.1⟩ ∧
      DecodingPlanned (front ++ result.1) result.2.2.1 := by
  induction todo generalizing front budget a plan with
  | nil => exact ⟨.refl, served⟩
  | cons seq rest ih =>
      simp only [continuePrefills]
      split
      · have later := ih (front ++ [seq]) budget a plan (by simpa using distinct)
          (fun other member => unplanned other (by simp [member])) (by simpa using served)
        simpa using later
      · rename_i active
        simp only [ne_eq, not_or, Decidable.not_not] at active
        split
        · exact ⟨.refl, served⟩
        · rename_i a' table granted
          have fresh := unplanned seq (by simp) active.1
          have move : PlanStep scheduler now ⟨front ++ seq :: rest, waiting, a, plan⟩
              ⟨front ++ advancePrefill { seq with blockTable := table }
                (scheduler.chunk (seq.numTokens - seq.prefillProgress) budget) :: rest, waiting, a',
                plan.add seq (scheduler.chunk (seq.numTokens - seq.prefillProgress) budget) true⟩ :=
            .continue active.1 fresh (Nat.pos_of_ne_zero active.2) rfl granted
          have later := ih
            (front ++ [advancePrefill { seq with blockTable := table }
              (scheduler.chunk (seq.numTokens - seq.prefillProgress) budget)])
            (budget - scheduler.chunk (seq.numTokens - seq.prefillProgress) budget) a'
            (plan.add seq (scheduler.chunk (seq.numTokens - seq.prefillProgress) budget) true)
            (by simpa using distinct)
            (fun other member status => (unplanned other (by simp [member]) status).add
              (Lib.Keyed.ne_of_nodup_cons distinct other (by simp [member])))
            (fun other member status => by
              rw [mem_add_ids]
              simp only [List.append_assoc, List.singleton_append, List.mem_append,
                List.mem_cons] at member
              rcases member with member | rfl | member
              · exact .inl (served other (by simp [member]) status)
              · exact .inr rfl
              · exact .inl (served other (by simp [member]) status))
          simp only [List.append_assoc, List.singleton_append] at later
          exact ⟨.head move later.1, later.2⟩

theorem length_continuePrefills (scheduler : Scheduler) (budget : Nat) (a : α) (plan : BatchPlan)
    (todo : List Sequence) :
    (continuePrefills scheduler budget a plan todo).1.length = todo.length := by
  induction todo generalizing budget a plan with
  | nil => rfl
  | cons seq rest ih =>
      simp only [continuePrefills]
      split
      · exact congrArg (· + 1) (ih budget a plan)
      · split
        · rfl
        · exact congrArg (· + 1) (ih _ _ _)

theorem continuePrefills_plan (scheduler : Scheduler) (budget : Nat) (a : α) (plan : BatchPlan)
    (todo : List Sequence) :
    ∃ entries, (continuePrefills scheduler budget a plan todo).2.2.1 = { plan with entries } := by
  induction todo generalizing budget a plan with
  | nil => exact ⟨_, rfl⟩
  | cons seq rest ih =>
      simp only [continuePrefills]
      split
      · exact ih budget a plan
      · split
        · exact ⟨_, rfl⟩
        · exact ih _ _ _

theorem planAdmissionsFrom_preempted (scheduler : Scheduler) (now : Time) (cap index budget : Nat)
    (st : Planning α) :
    (planAdmissionsFrom scheduler now cap index budget st).plan.preempted = st.plan.preempted := by
  fun_induction planAdmissionsFrom scheduler now cap index budget st with
  | case1 | case5 | case6 => rfl
  | case2 index budget st inside room frozen seq fits chunk refused ih => exact ih
  | case3 index budget st inside room frozen seq fits chunk a' table granted admitted ih => exact ih
  | case4 index budget st inside room frozen seq unfit ih => exact ih

theorem schedulerStep_preempted (scheduler : Scheduler) (now : Time)
    (running waiting : List Sequence) (a : α) :
    (schedulerStep scheduler now running waiting a).plan.preempted =
      (planDecodes ⟨running, waiting, a, {}⟩).plan.preempted := by
  simp only [schedulerStep, planAdmissions, planPrefillContinuations]
  rw [planAdmissionsFrom_preempted]
  obtain ⟨entries, same⟩ := continuePrefills_plan scheduler scheduler.tokenBudget
    (planDecodes ⟨running, waiting, a, {}⟩).allocator (planDecodes ⟨running, waiting, a, {}⟩).plan
    (planDecodes ⟨running, waiting, a, {}⟩).running
  simp only [same]

omit [KVAllocator α] in
theorem takeAdmitted_split (before after : List Sequence) (seq : Sequence) :
    takeAdmitted (before ++ seq :: after) before.length = skipHead before ++ after := by
  cases before with
  | nil => simp [takeAdmitted, skipHead]
  | cons head rest => simp [takeAdmitted, skipHead, List.eraseIdx_append_of_length_le]

theorem admissionCap_le (scheduler : Scheduler) (running : List Sequence) :
    scheduler.admissionCap running ≤ scheduler.maxRunning := by
  unfold Scheduler.admissionCap
  split
  · exact Nat.le_refl _
  · split <;> omega

omit [KVAllocator α] in
theorem exists_split {list : List Sequence} {index : Nat} (inside : index < list.length) :
    ∃ before after, before.length = index ∧ list = before ++ list[index] :: after :=
  ⟨list.take index, list.drop (index + 1), by simp; omega, by simp⟩

theorem planAdmissionsFrom_steps (scheduler : Scheduler) (now : Time) (cap index budget : Nat)
    (st : Planning α) (capped : cap ≤ scheduler.maxRunning) :
    PlanSteps scheduler now st (planAdmissionsFrom scheduler now cap index budget st) := by
  fun_induction planAdmissionsFrom scheduler now cap index budget st with
  | case1 | case5 | case6 => exact .refl
  | case2 index budget st inside room frozen seq fits chunk refused ih => exact ih
  | case3 index budget st inside room frozen seq fits chunk a' table granted admitted ih =>
      refine .head ?_ ih
      obtain ⟨running, waiting, a, plan⟩ := st
      obtain ⟨before, after, rfl, split⟩ := exists_split inside
      have move : PlanStep scheduler now
          ⟨running, before ++ waiting[before.length] :: after, a, plan⟩ _ :=
        .admission fits room.1 (room.2.trans_le capped) rfl granted
      rw [← split, ← takeAdmitted_split, ← split] at move
      exact move
  | case4 index budget st inside room frozen seq unfit ih =>
      refine .head ?_ ih
      obtain ⟨running, waiting, a, plan⟩ := st
      obtain ⟨before, after, rfl, split⟩ := exists_split inside
      have move : PlanStep scheduler now
          ⟨running, before ++ waiting[before.length] :: after, a, plan⟩ _ :=
        .reject (Bool.eq_false_iff.mpr unfit)
      have erased : waiting.eraseIdx before.length = before ++ after :=
        (congrArg (·.eraseIdx before.length) split).trans (by
          simp [List.eraseIdx_append_of_length_le])
      rw [← split, ← erased] at move
      exact move

theorem DecodingPlanned.admissions {scheduler : Scheduler} {now : Time} {cap index budget : Nat}
    {st : Planning α} (served : DecodingPlanned st.running st.plan) :
    DecodingPlanned (planAdmissionsFrom scheduler now cap index budget st).running
      (planAdmissionsFrom scheduler now cap index budget st).plan := by
  fun_induction planAdmissionsFrom scheduler now cap index budget st with
  | case1 | case5 | case6 => exact served
  | case2 index budget st inside room frozen seq fits chunk refused ih => exact ih served
  | case3 index budget st inside room frozen seq fits chunk a' table granted admitted ih =>
      refine ih fun other member status => ?_
      rw [mem_add_ids]
      rcases List.mem_append.mp member with member | member
      · exact .inl (served other member status)
      · rw [List.mem_singleton.mp member]
        exact .inr rfl
  | case4 index budget st inside room frozen seq unfit ih => exact ih served

omit [KVAllocator α] in
theorem Planning.Distinct.start {running waiting : List Sequence} (a : α)
    (distinct : ((running ++ waiting).map (·.seqId)).Nodup) :
    (⟨running, waiting, a, {}⟩ : Planning α).Distinct :=
  ⟨by simpa [Planning.live] using distinct, List.nodup_nil, List.forall_mem_nil _⟩

theorem continued_steps (scheduler : Scheduler) (now : Time) (running waiting : List Sequence)
    (a : α) (distinct : ((running ++ waiting).map (·.seqId)).Nodup) :
    PlanSteps scheduler now ⟨running, waiting, a, {}⟩
        (planPrefillContinuations scheduler (planDecodes ⟨running, waiting, a, {}⟩)).1 ∧
      DecodingPlanned
        (planPrefillContinuations scheduler (planDecodes ⟨running, waiting, a, {}⟩)).1.running
        (planPrefillContinuations scheduler (planDecodes ⟨running, waiting, a, {}⟩)).1.plan := by
  have start := Planning.Distinct.start a distinct
  obtain ⟨decodes, served⟩ := planDecodesFrom_steps scheduler now [] running waiting a {}
    start.running_nodup (fun _ _ => List.not_mem_nil) (by simp)
  simp only [planDecodes, planPrefillContinuations]
  simp only [List.nil_append, List.length_nil] at decodes served
  have between := PlanSteps.distinct decodes start
  generalize planDecodesFrom 0 ⟨running, waiting, a, {}⟩ = decoded at decodes served between ⊢
  obtain ⟨continues, planned⟩ := continuePrefills_steps scheduler now [] decoded.running
    decoded.waiting scheduler.tokenBudget decoded.allocator decoded.plan between.running_nodup
    (fun seq member status entry => by
      rw [(served seq member).mpr entry] at status
      cases status)
    (fun seq member status => (served seq member).mp status)
  exact ⟨decodes.trans continues, planned⟩

theorem schedulerStep_steps (scheduler : Scheduler) (now : Time) (running waiting : List Sequence)
    (a : α) (distinct : ((running ++ waiting).map (·.seqId)).Nodup) :
    PlanSteps scheduler now ⟨running, waiting, a, {}⟩
        (schedulerStep scheduler now running waiting a) ∧
      DecodingPlanned (schedulerStep scheduler now running waiting a).running
        (schedulerStep scheduler now running waiting a).plan := by
  obtain ⟨before, served⟩ := continued_steps scheduler now running waiting a distinct
  exact ⟨before.trans (planAdmissionsFrom_steps scheduler now _ _ _ _ (admissionCap_le scheduler _)),
    DecodingPlanned.admissions served⟩

theorem schedulerStep_distinct (scheduler : Scheduler) (now : Time)
    (running waiting : List Sequence) (a : α)
    (distinct : ((running ++ waiting).map (·.seqId)).Nodup) :
    (schedulerStep scheduler now running waiting a).Distinct :=
  PlanSteps.distinct (schedulerStep_steps scheduler now running waiting a distinct).1
    (Planning.Distinct.start a distinct)

theorem schedulerStep_ids_perm (scheduler : Scheduler) (now : Time)
    (running waiting : List Sequence) (a : α)
    (distinct : ((running ++ waiting).map (·.seqId)).Nodup) :
    ((running ++ waiting).map (·.seqId)).Perm
      ((schedulerStep scheduler now running waiting a).live.map (·.seqId)) := by
  simpa [Planning.live] using
    PlanSteps.ids_perm (schedulerStep_steps scheduler now running waiting a distinct).1

/-! ## What a pass plans -/

theorem planDecodesFrom_entries {i : Nat} {st : Planning α}
    (some : st.plan.entries ≠ []) : (planDecodesFrom i st).plan.entries ≠ [] := by
  fun_induction planDecodesFrom i st with
  | case1 i st inside seq status tried served ih => exact ih (by simp)
  | case2 i st inside seq status tried refused ih =>
      exact ih ((preemptUntilAllocated_entries i st).symm ▸ some)
  | case3 i st inside seq status ih => exact ih some
  | case4 => exact some

theorem planDecodesFrom_leading (done front rest waiting : List Sequence) (a : α)
    (plan : BatchPlan) (prefilling : ∀ seq ∈ front, seq.status = .prefilling) :
    planDecodesFrom done.length ⟨done ++ (front ++ rest), waiting, a, plan⟩ =
      planDecodesFrom (done ++ front).length ⟨done ++ (front ++ rest), waiting, a, plan⟩ := by
  induction front generalizing done with
  | nil => rw [List.append_nil]
  | cons seq front ih =>
      have status := prefilling seq (by simp)
      have later := ih (done ++ [seq]) fun other member => prefilling other (by simp [member])
      rw [List.cons_append, planDecodesFrom_at, if_neg (by simp [status])]
      simpa using later

theorem planDecodesFrom_idle (done todo waiting : List Sequence) (a : α) (plan : BatchPlan)
    (granted : ∀ seq ∈ todo, seq.status = .decoding → allocate a seq 1 0 ≠ none)
    (empty : (planDecodesFrom done.length ⟨done ++ todo, waiting, a, plan⟩).plan.entries = []) :
    (∀ seq ∈ todo, seq.status ≠ .decoding) ∧
      planDecodesFrom done.length ⟨done ++ todo, waiting, a, plan⟩ =
        ⟨done ++ todo, waiting, a, plan⟩ := by
  induction todo generalizing done with
  | nil => exact ⟨List.forall_mem_nil _, planDecodesFrom_stop (by simp)⟩
  | cons seq rest ih =>
      by_cases status : seq.status = .decoding
      · obtain ⟨result, served⟩ :=
          Option.ne_none_iff_exists'.mp (granted seq (by simp) status)
        rw [planDecodesFrom_serve done rest waiting plan status served] at empty
        exact absurd empty (planDecodesFrom_entries (by simp))
      · rw [planDecodesFrom_pass done rest waiting a plan status] at empty ⊢
        obtain ⟨others, same⟩ := ih (done ++ [seq])
          (fun other member => granted other (by simp [member])) empty
        refine ⟨List.forall_mem_cons.mpr ⟨status, others⟩, same.trans ?_⟩
        rw [List.append_assoc, List.singleton_append]

theorem continuePrefills_entries {scheduler : Scheduler} {budget : Nat} {a : α}
    {plan : BatchPlan} {todo : List Sequence} (some : plan.entries ≠ []) :
    (continuePrefills scheduler budget a plan todo).2.2.1.entries ≠ [] := by
  induction todo generalizing budget a plan with
  | nil => exact some
  | cons seq rest ih =>
      simp only [continuePrefills]
      split
      · exact ih some
      · split
        · exact some
        · exact ih (by simp)

theorem continuePrefills_granted {scheduler : Scheduler} {budget : Nat} {a : α} {plan : BatchPlan}
    {head : Sequence} {rest : List Sequence} (status : head.status = .prefilling)
    (positive : 0 < budget)
    (granted : allocate a head
      (scheduler.chunk (head.numTokens - head.prefillProgress) budget) 0 ≠ none) :
    (continuePrefills scheduler budget a plan (head :: rest)).2.2.1.entries ≠ [] := by
  unfold Scheduler.chunk at granted
  rw [continuePrefills, if_neg (by simp [status, Nat.pos_iff_ne_zero.mp positive])]
  simp only
  split
  · rename_i none
    exact absurd none granted
  · exact continuePrefills_entries (by simp)

theorem planAdmissionsFrom_entries {scheduler : Scheduler} {now : Time} {cap index budget : Nat}
    {st : Planning α} (some : st.plan.entries ≠ []) :
    (planAdmissionsFrom scheduler now cap index budget st).plan.entries ≠ [] := by
  fun_induction planAdmissionsFrom scheduler now cap index budget st with
  | case1 | case5 | case6 => exact some
  | case2 index budget st inside room frozen seq fits chunk refused ih => exact ih some
  | case3 index budget st inside room frozen seq fits chunk a' table granted admitted ih =>
      exact ih (by simp)
  | case4 index budget st inside room frozen seq unfit ih => exact ih some

theorem planAdmissionsFrom_spent (scheduler : Scheduler) (now : Time) (cap index : Nat)
    (st : Planning α) : planAdmissionsFrom scheduler now cap index 0 st = st := by
  rw [planAdmissionsFrom]
  simp

theorem admissionCap_nil (scheduler : Scheduler) :
    scheduler.admissionCap [] = scheduler.maxRunning := by
  unfold Scheduler.admissionCap
  cases scheduler.kind <;> rfl

theorem planAdmissionsFrom_idle (scheduler : Scheduler) (now : Time) {cap budget : Nat}
    {waiting : List Sequence} {a : α} {plan : BatchPlan} (room : 0 < cap) (positive : 0 < budget)
    (grants : ∀ seq ∈ waiting, canEverFit a seq = true → ∀ n ≤ seq.numTokens,
      allocate a seq n 0 ≠ none)
    (empty : (planAdmissionsFrom scheduler now cap 0 budget
      ⟨[], waiting, a, plan⟩).plan.entries = []) :
    (planAdmissionsFrom scheduler now cap 0 budget ⟨[], waiting, a, plan⟩).running = [] ∧
      (planAdmissionsFrom scheduler now cap 0 budget ⟨[], waiting, a, plan⟩).waiting = [] := by
  induction waiting generalizing plan with
  | nil =>
      rw [planAdmissionsFrom, dif_neg (by simp)]
      exact ⟨rfl, rfl⟩
  | cons seq rest ih =>
      rw [planAdmissionsFrom, dif_pos (by simp), if_pos ⟨positive, room⟩, if_neg (by simp)] at empty ⊢
      simp only [List.getElem_cons_zero] at empty ⊢
      split at empty
      · rename_i fits
        have chunk_le : min (min seq.numTokens budget) scheduler.maxPrefillChunk ≤ seq.numTokens := by
          omega
        split at empty
        · rename_i refused
          exact absurd refused (grants seq (by simp) fits _ chunk_le)
        · exact absurd empty (planAdmissionsFrom_entries (by simp))
      · rename_i unfit
        rw [if_neg unfit]
        exact ih (fun other member => grants other (by simp [member])) empty

/-! ## The rule for invariants of single sequences -/

def entryFor (plan : BatchPlan) (id : SeqId) : Option BatchEntry :=
  plan.entries.find? (·.seqId = id)

theorem entryFor_eq_none {plan : BatchPlan} {id : SeqId} : entryFor plan id = none ↔ id ∉ plan.ids :=
  Lib.Keyed.find?_eq_none

theorem entryFor_some {plan : BatchPlan} {id : SeqId} {entry : BatchEntry}
    (found : entryFor plan id = some entry) : entry ∈ plan.entries ∧ entry.seqId = id :=
  Lib.Keyed.find?_some found

theorem entryFor_of_mem {plan : BatchPlan} {entry : BatchEntry} (distinct : plan.ids.Nodup)
    (member : entry ∈ plan.entries) : entryFor plan entry.seqId = some entry :=
  Lib.Keyed.find?_of_mem distinct member

theorem entryFor_add_self {plan : BatchPlan} {seq : Sequence} (unplanned : Unplanned plan seq)
    (n : Nat) (chunk : Bool) :
    entryFor (plan.add seq n chunk) seq.seqId = some ⟨seq.seqId, n, chunk⟩ := by
  have none := entryFor_eq_none.mpr unplanned
  unfold entryFor at none ⊢
  simp [none]

theorem entryFor_add_other {plan : BatchPlan} {seq : Sequence} {id : SeqId}
    (other : seq.seqId ≠ id) (n : Nat) (chunk : Bool) :
    entryFor (plan.add seq n chunk) id = entryFor plan id := by
  simp [entryFor, other]

/-- What each move has to establish for `P` to hold of every running sequence and its entry, `Q`
of every waiting or rejected sequence and `R` of the allocator, at every point of a scheduler
step. `freed` says that the sequence was preempted earlier in the step. -/
structure PlanRule (scheduler : Scheduler) (now : Time) (R : α → Prop)
    (P : Prop → Option BatchEntry → Sequence → Prop) (Q : Prop → Sequence → Prop) : Prop where
  grant {a a' : α} {seq : Sequence} {n reserve : Nat} {table : BlockTable} :
    R a → allocate a seq n reserve = some (a', table) → R a'
  release {a : α} {table : BlockTable} : R a → R (free a table).1
  decode {a a' : α} {seq : Sequence} {table : BlockTable} {freed : Prop} :
    R a → seq.status = .decoding → P freed none seq → allocate a seq 1 0 = some (a', table) →
    P freed (some ⟨seq.seqId, 1, false⟩) { seq with blockTable := table }
  preempt {a : α} {victim : Sequence} {freed : Prop} :
    R a → P freed none victim → Q True (requeue victim (free a victim.blockTable).2)
  «continue» {a a' : α} {seq : Sequence} {table : BlockTable} {budget : Nat} {freed : Prop} :
    R a → seq.status = .prefilling → P freed none seq → 0 < budget →
    allocate a seq (scheduler.chunk (seq.numTokens - seq.prefillProgress) budget) 0 =
      some (a', table) →
    P freed (some ⟨seq.seqId, scheduler.chunk (seq.numTokens - seq.prefillProgress) budget, true⟩)
      (advancePrefill { seq with blockTable := table }
        (scheduler.chunk (seq.numTokens - seq.prefillProgress) budget))
  admission {a a' : α} {seq : Sequence} {table : BlockTable} {budget reserve : Nat} {freed : Prop} :
    R a → Q freed seq → canEverFit a seq = true → 0 < budget →
    allocate a seq (scheduler.chunk seq.numTokens budget) reserve = some (a', table) →
    P freed (some ⟨seq.seqId, scheduler.chunk seq.numTokens budget, true⟩)
      (stampAdmission now (advancePrefill { seq with blockTable := table }
        (scheduler.chunk seq.numTokens budget)))
  skip {seq : Sequence} {skips : Nat} {freed : Prop} :
    Q freed seq → Q freed { seq with admissionSkips := skips }

theorem PlanRule.and {scheduler : Scheduler} {now : Time} {R R' : α → Prop}
    {P P' : Prop → Option BatchEntry → Sequence → Prop} {Q Q' : Prop → Sequence → Prop}
    (first : PlanRule scheduler now R P Q) (second : PlanRule scheduler now R' P' Q') :
    PlanRule scheduler now (fun a => R a ∧ R' a)
      (fun freed entry seq => P freed entry seq ∧ P' freed entry seq)
      (fun freed seq => Q freed seq ∧ Q' freed seq) where
  grant ok granted := ⟨first.grant ok.1 granted, second.grant ok.2 granted⟩
  release ok := ⟨first.release ok.1, second.release ok.2⟩
  decode ok status here granted :=
    ⟨first.decode ok.1 status here.1 granted, second.decode ok.2 status here.2 granted⟩
  preempt ok here := ⟨first.preempt ok.1 here.1, second.preempt ok.2 here.2⟩
  «continue» ok status here positive granted :=
    ⟨first.continue ok.1 status here.1 positive granted,
      second.continue ok.2 status here.2 positive granted⟩
  admission ok here fits positive granted :=
    ⟨first.admission ok.1 here.1 fits positive granted,
      second.admission ok.2 here.2 fits positive granted⟩
  skip here := ⟨first.skip here.1, second.skip here.2⟩

structure Planning.Holds (R : α → Prop) (P : Prop → Option BatchEntry → Sequence → Prop)
    (Q : Prop → Sequence → Prop) (st : Planning α) : Prop where
  allocator : R st.allocator
  running : ∀ seq ∈ st.running,
    P (seq.seqId ∈ st.plan.preempted) (entryFor st.plan seq.seqId) seq
  waiting : ∀ seq ∈ st.waiting, Q (seq.seqId ∈ st.plan.preempted) seq
  rejected : ∀ seq ∈ st.plan.rejected, Q (seq.seqId ∈ st.plan.preempted) seq

theorem forall_planned {P : Prop → Option BatchEntry → Sequence → Prop}
    {front behind : List Sequence} {seq seq' : Sequence} {plan : BatchPlan} {n : Nat}
    {chunk : Bool} (unplanned : Unplanned plan seq)
    (others : ∀ other ∈ front ++ behind, seq.seqId ≠ other.seqId ∧
      P (other.seqId ∈ plan.preempted) (entryFor plan other.seqId) other)
    (same : seq'.seqId = seq.seqId)
    (here : P (seq.seqId ∈ plan.preempted) (some ⟨seq.seqId, n, chunk⟩) seq') :
    ∀ other ∈ front ++ seq' :: behind,
      P (other.seqId ∈ plan.preempted) (entryFor (plan.add seq n chunk) other.seqId) other := by
  intro other member
  by_cases this : other = seq'
  · rw [this, same, entryFor_add_self unplanned]
    exact here
  · obtain ⟨different, before⟩ := others other (by
      simp only [List.mem_append, List.mem_cons] at member ⊢
      tauto)
    rw [entryFor_add_other different]
    exact before

theorem mem_skipHead {waiting : List Sequence} {seq : Sequence} (member : seq ∈ skipHead waiting) :
    ∃ other ∈ waiting, ∃ skips, seq = { other with admissionSkips := skips } := by
  cases waiting with
  | nil => cases member
  | cons head rest =>
      rcases List.mem_cons.mp member with rfl | member
      · exact ⟨head, by simp, _, rfl⟩
      · exact ⟨seq, by simp [member], seq.admissionSkips, rfl⟩

theorem mem_takeAdmitted {waiting : List Sequence} {index : Nat} {seq : Sequence}
    (member : seq ∈ takeAdmitted waiting index) :
    ∃ other ∈ waiting, ∃ skips, seq = { other with admissionSkips := skips } := by
  unfold takeAdmitted at member
  split at member
  · obtain ⟨other, found, skips, same⟩ := mem_skipHead member
    exact ⟨other, List.mem_of_mem_eraseIdx found, skips, same⟩
  · exact ⟨seq, List.mem_of_mem_eraseIdx member, seq.admissionSkips, rfl⟩

theorem planAdmissionsFrom_source (scheduler : Scheduler) (now : Time) (cap index budget : Nat)
    (st : Planning α) {seq : Sequence}
    (member : seq ∈ (planAdmissionsFrom scheduler now cap index budget st).waiting ++
      (planAdmissionsFrom scheduler now cap index budget st).plan.rejected) :
    ∃ source ∈ st.waiting ++ st.plan.rejected, ∃ skips,
      seq = { source with admissionSkips := skips } := by
  fun_induction planAdmissionsFrom scheduler now cap index budget st with
  | case1 | case5 | case6 => exact ⟨seq, member, seq.admissionSkips, rfl⟩
  | case2 index budget st inside room frozen first fits chunk refused ih => exact ih member
  | case3 index budget st inside room frozen first fits chunk a' table granted admitted ih =>
      obtain ⟨source, found, skips, rfl⟩ := ih member
      rcases List.mem_append.mp found with found | found
      · obtain ⟨other, waits, skips', rfl⟩ := mem_takeAdmitted found
        exact ⟨other, List.mem_append_left _ waits, skips, rfl⟩
      · exact ⟨source, List.mem_append_right _ found, skips, rfl⟩
  | case4 index budget st inside room frozen first unfit ih =>
      obtain ⟨source, found, skips, rfl⟩ := ih member
      refine ⟨source, ?_, skips, rfl⟩
      rcases List.mem_append.mp found with found | found
      · exact List.mem_append_left _ (List.mem_of_mem_eraseIdx found)
      · rcases List.mem_append.mp found with found | found
        · exact List.mem_append_right _ found
        · rw [List.mem_singleton.mp found]
          exact List.mem_append_left _ (List.getElem_mem inside)

theorem PlanStep.holds {scheduler : Scheduler} {now : Time} {R : α → Prop}
    {P : Prop → Option BatchEntry → Sequence → Prop} {Q : Prop → Sequence → Prop}
    (rule : PlanRule scheduler now R P Q) {st st' : Planning α}
    (step : PlanStep scheduler now st st') (distinct : st.Distinct)
    (holds : st.Holds R P Q) : st'.Holds R P Q := by
  have unplannedWaiting := @Planning.Distinct.unplanned_waiting _ st distinct
  have nodup := distinct.running_nodup
  have ids := distinct.ids
  obtain ⟨allocator, running, waiting, rejected⟩ := holds
  cases step with
  | @decode front behind _ seq a a' plan table status unplanned granted =>
      have here := running seq (by simp)
      rw [entryFor_eq_none.mpr unplanned] at here
      refine ⟨rule.grant allocator granted, ?_, waiting, rejected⟩
      exact forall_planned unplanned (Lib.Keyed.forall_besides nodup running) rfl
        (rule.decode allocator status here granted)
  | @preempt front others victim _ a plan unplanned served status refused =>
      -- `freed` changes for the victim alone.
      have stays (other : Sequence) (member : other ∈ front ++ others ++ plan.rejected) :
          (other.seqId ∈ plan.preempted ++ [victim.seqId]) = (other.seqId ∈ plan.preempted) := by
        have apart : ((front ++ victim :: (others ++ plan.rejected)).map (·.seqId)).Nodup := by
          simpa [Planning.live] using ids
        have different := Lib.Keyed.ne_of_nodup_cons apart other (by simpa using member)
        simp [different.symm]
      have here := running victim (by simp)
      rw [entryFor_eq_none.mpr unplanned] at here
      refine ⟨rule.release allocator, fun other member => ?_, fun other member => ?_,
        fun other member => ?_⟩
      · simp only [stays other (by simp [member])]
        exact running other (by simp [member])
      · rcases List.mem_cons.mp member with rfl | member
        · simpa using rule.preempt allocator here
        · simp only [stays other (by simp [member])]
          exact waiting other member
      · simp only [stays other (by simp [member])]
        exact rejected other member
  | @«continue» front behind _ seq a a' plan table budget chunk status unplanned positive size
      granted =>
      subst size
      have here := running seq (by simp)
      rw [entryFor_eq_none.mpr unplanned] at here
      refine ⟨rule.grant allocator granted, ?_, waiting, rejected⟩
      exact forall_planned unplanned (Lib.Keyed.forall_besides nodup running) rfl
        (rule.continue allocator status here positive granted)
  | @reject before after _ seq a plan unfit =>
      refine ⟨allocator, running, fun other member => waiting other (by
        simp only [List.mem_append, List.mem_cons] at member ⊢
        tauto), ?_⟩
      intro other member
      rcases List.mem_append.mp member with member | member
      · exact rejected other member
      · rw [List.mem_singleton.mp member]
        exact waiting seq (by simp)
  | @admission before after runningNow seq a a' plan table budget chunk fits positive room size
      granted =>
      subst size
      refine ⟨rule.grant allocator granted, ?_, ?_, rejected⟩
      · refine forall_planned (unplannedWaiting (by simp)) ?_ rfl
          (rule.admission allocator (waiting seq (by simp)) fits positive granted)
        intro other member
        rw [List.append_nil] at member
        refine ⟨fun same => ?_, running other member⟩
        exact distinct.running_not_waiting (List.mem_map_of_mem member) (by simp [← same])
      · intro other member
        rcases List.mem_append.mp member with member | member
        · obtain ⟨source, found, skips, rfl⟩ := mem_skipHead member
          exact rule.skip (waiting source (by simp [found]))
        · exact waiting other (by simp [member])

theorem PlanRule.allocator {scheduler : Scheduler} {now : Time} {R : α → Prop}
    {P : Prop → Option BatchEntry → Sequence → Prop} {Q : Prop → Sequence → Prop}
    (rule : PlanRule scheduler now R P Q) {st st' : Planning α}
    (steps : PlanSteps scheduler now st st') (holds : R st.allocator) : R st'.allocator := by
  induction steps with
  | refl => exact holds
  | tail _ step ih =>
      cases step with
      | decode status unplanned granted => exact rule.grant ih granted
      | preempt unplanned served status refused => exact rule.release ih
      | «continue» status unplanned positive size granted => exact rule.grant ih granted
      | reject unfit => exact ih
      | admission fits positive room size granted => exact rule.grant ih granted

/-- The rule applied to a whole scheduler step, together with an invariant of the moves that relies
on it. -/
theorem PlanRule.schedulerStep_keeps {scheduler : Scheduler} {now : Time} {R : α → Prop}
    {P : Prop → Option BatchEntry → Sequence → Prop} {Q : Prop → Sequence → Prop}
    (rule : PlanRule scheduler now R P Q) {I : Planning α → Prop}
    (kept : ∀ st st', PlanStep scheduler now st st' → st.Distinct → st.Holds R P Q → I st → I st')
    {running waiting : List Sequence} {a : α}
    (distinct : ((running ++ waiting).map (·.seqId)).Nodup) (allocator : R a)
    (runs : ∀ seq ∈ running, P False none seq) (waits : ∀ seq ∈ waiting, Q False seq)
    (start : I ⟨running, waiting, a, {}⟩) :
    (schedulerStep scheduler now running waiting a).Holds R P Q ∧
      I (schedulerStep scheduler now running waiting a) := by
  have steps := (schedulerStep_steps scheduler now running waiting a distinct).1
  have holds : (⟨running, waiting, a, {}⟩ : Planning α).Holds R P Q :=
    ⟨allocator, by simpa [entryFor] using runs, by simpa using waits,
      fun _ member => absurd member List.not_mem_nil⟩
  suffices both : ∀ st, PlanSteps scheduler now ⟨running, waiting, a, {}⟩ st →
      st.Distinct ∧ st.Holds R P Q ∧ I st from (both _ steps).2
  intro st steps
  induction steps with
  | refl => exact ⟨Planning.Distinct.start a distinct, holds, start⟩
  | tail _ step ih =>
      exact ⟨step.distinct ih.1, step.holds rule ih.1 ih.2.1, kept _ _ step ih.1 ih.2.1 ih.2.2⟩

theorem PlanRule.schedulerStep {scheduler : Scheduler} {now : Time} {R : α → Prop}
    {P : Prop → Option BatchEntry → Sequence → Prop} {Q : Prop → Sequence → Prop}
    (rule : PlanRule scheduler now R P Q) {running waiting : List Sequence} {a : α}
    (distinct : ((running ++ waiting).map (·.seqId)).Nodup) (allocator : R a)
    (runs : ∀ seq ∈ running, P False none seq) (waits : ∀ seq ∈ waiting, Q False seq) :
    (schedulerStep scheduler now running waiting a).Holds R P Q :=
  (rule.schedulerStep_keeps (I := fun _ => True) (fun _ _ _ _ _ _ => trivial) distinct allocator
    runs waits trivial).1

end LlmServing.Scheduling
