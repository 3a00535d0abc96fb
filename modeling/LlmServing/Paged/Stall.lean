import LlmServing.Paged.Ownership
import Mathlib.Data.List.TakeWhile

/-!
# When a scheduler step plans nothing

An empty plan should leave nothing running, since the scheduler thread then waits for a new request.
It does, but where a PREFILLING sequence at the head of `running` waits for blocks that only
sequences as stuck as itself hold.
-/

namespace LlmServing.Paged

open Scheduling Runner Engine Lib

def heldBy (seqs : List Sequence) : Nat := (seqs.map (·.blockTable.physicalBlocks.length)).sum

def leading (running : List Sequence) : List Sequence := running.takeWhile (·.status = .prefilling)

def following (running : List Sequence) : List Sequence :=
  running.dropWhile (·.status = .prefilling)

/-- The first of `seqs` finds no block for its next token though all behind it are preempted. -/
def DecodesRefused (a : BlockAllocator) : List Sequence → Prop
  | [] => True
  | first :: behind => a.freeBlocks.length + heldBy behind < a.neededBlocks first.blockTable 1

/-- The chunk of the head of `running` needs more blocks than are free once the decodes have
preempted each other. -/
def PrefillBlocked (scheduler : Scheduler) (a : BlockAllocator) (running : List Sequence) : Prop :=
  match leading running with
  | [] => False
  | head :: _ =>
      DecodesRefused a (following running) ∧
      a.freeBlocks.length + heldBy (following running) <
        a.neededBlocks head.blockTable
          (scheduler.chunk (head.numTokens - head.prefillProgress) scheduler.tokenBudget)

instance (a : BlockAllocator) (seqs : List Sequence) : Decidable (DecodesRefused a seqs) := by
  unfold DecodesRefused
  cases seqs <;> infer_instance

instance (scheduler : Scheduler) (a : BlockAllocator) (running : List Sequence) :
    Decidable (PrefillBlocked scheduler a running) := by
  unfold PrefillBlocked
  cases leading running <;> infer_instance

@[simp] theorem heldBy_nil : heldBy [] = 0 := rfl

@[simp] theorem heldBy_cons (seq : Sequence) (seqs : List Sequence) :
    heldBy (seq :: seqs) = seq.blockTable.physicalBlocks.length + heldBy seqs := rfl

@[simp] theorem heldBy_append (first second : List Sequence) :
    heldBy (first ++ second) = heldBy first + heldBy second := by simp [heldBy]

variable {numBlocks blockSize : Nat}

theorem Owned.heldBy_eq {a : BlockAllocator} {running : List Sequence}
    (owned : Owned numBlocks a running) : a.freeBlocks.length + heldBy running = numBlocks := by
  have total := Partitioned.length_eq owned
  simpa [holdings, heldBy, Function.comp_def] using total

/-! ## The decode pass -/

structure Freed (a a' : BlockAllocator) (gone : Nat) : Prop where
  numBlocks : a'.numBlocks = a.numBlocks
  blockSize : a'.blockSize = a.blockSize
  count : a'.freeBlocks.length = a.freeBlocks.length + gone

theorem Freed.neededBlocks {a a' : BlockAllocator} {gone : Nat} (freed : Freed a a' gone)
    (table : BlockTable) (n : Nat) : a'.neededBlocks table n = a.neededBlocks table n := by
  rw [BlockAllocator.neededBlocks, BlockAllocator.neededBlocks, freed.blockSize]

theorem freed_free (a : BlockAllocator) (table : BlockTable) :
    Freed a (free a table).1 table.physicalBlocks.length :=
  ⟨rfl, rfl, List.length_append⟩

theorem Freed.trans {a b c : BlockAllocator} {m n : Nat} (first : Freed a b m)
    (second : Freed b c n) : Freed a c (m + n) :=
  ⟨second.numBlocks.trans first.numBlocks, second.blockSize.trans first.blockSize, by
    rw [second.count, first.count, Nat.add_assoc]⟩

theorem refused_iff {a : BlockAllocator} {seq : Sequence} {n : Nat} :
    allocate a seq n 0 = none ↔ (a.freeBlocks.length : Int) < a.neededBlocks seq.blockTable n := by
  refine BlockAllocator.allocate_eq_none.trans ?_
  rw [Nat.cast_zero, Int.add_zero]

theorem preemptUntilAllocated_refused (front behind waiting : List Sequence) (seq : Sequence)
    (a : BlockAllocator) (plan : BatchPlan) (refused : DecodesRefused a (seq :: behind)) :
    ∃ a' waiting' preempted,
      preemptUntilAllocated front.length ⟨front ++ seq :: behind, waiting, a, plan⟩ =
        (false, ⟨front, waiting', a', { plan with preempted }⟩) ∧
      Freed a a' (heldBy (seq :: behind)) ∧
      ∀ other ∈ waiting', other ∈ waiting ∨ Released other.blockTable := by
  -- Induction over what stands behind `seq`, popped from its end.
  induction behind using List.reverseRecOn generalizing waiting a plan with
  | nil =>
      have none : allocate a seq 1 0 = none := refused_iff.mpr (by
        simpa [DecodesRefused] using refused)
      rw [preemptUntilAllocated_at, none]
      simp only [if_true, preemptTail_concat]
      refine ⟨_, _, _, rfl, freed_free a seq.blockTable, fun other member => ?_⟩
      rcases List.mem_cons.mp member with rfl | member
      · exact .inr ⟨rfl, rfl⟩
      · exact .inl member
  | append_singleton rest victim ih =>
      have none : allocate a seq 1 0 = none := refused_iff.mpr (by
        simp only [DecodesRefused, heldBy_append, Nat.cast_add] at refused
        omega)
      have popped := freed_free a victim.blockTable
      have later : DecodesRefused (free a victim.blockTable).1 (seq :: rest) := by
        simp only [DecodesRefused, popped.neededBlocks, popped.count, heldBy_append, heldBy_cons,
          heldBy_nil] at refused ⊢
        omega
      obtain ⟨a', waiting', preempted, done, freed, released⟩ := ih
        (requeue victim (free a victim.blockTable).2 :: waiting) _
        { plan with preempted := plan.preempted ++ [victim.seqId] } later
      have split : front ++ seq :: (rest ++ [victim]) = (front ++ seq :: rest) ++ [victim] := by simp
      rw [preemptUntilAllocated_at, none, split, preemptTail_concat]
      simp only [List.append_eq_nil_iff, List.cons_ne_self, and_false, if_false]
      refine ⟨a', waiting', preempted, done, ?_, fun other member => ?_⟩
      · have both := popped.trans freed
        simp only [heldBy_append, heldBy_cons, heldBy_nil, Nat.add_zero] at both ⊢
        rwa [Nat.add_comm, Nat.add_assoc] at both
      · rcases released other member with member | released
        · rcases List.mem_cons.mp member with rfl | member
          · exact .inr ⟨rfl, rfl⟩
          · exact .inl member
        · exact .inr released

theorem preemptUntilAllocated_served (front behind waiting : List Sequence) (seq : Sequence)
    (a : BlockAllocator) (plan : BatchPlan) (fits : ¬DecodesRefused a (seq :: behind)) :
    (preemptUntilAllocated front.length ⟨front ++ seq :: behind, waiting, a, plan⟩).1 = true := by
  induction behind using List.reverseRecOn generalizing waiting a plan with
  | nil =>
      rw [preemptUntilAllocated_at]
      cases granted : allocate a seq 1 0 with
      | some result => rfl
      | none => exact absurd (by simpa [DecodesRefused] using refused_iff.mp granted) fits
  | append_singleton rest victim ih =>
      rw [preemptUntilAllocated_at]
      cases granted : allocate a seq 1 0 with
      | some result => rfl
      | none =>
          have popped := freed_free a victim.blockTable
          have split : front ++ seq :: (rest ++ [victim]) = (front ++ seq :: rest) ++ [victim] := by
            simp
          rw [split, preemptTail_concat]
          simp only [List.append_eq_nil_iff, List.cons_ne_self, and_false, if_false]
          refine ih _ _ _ fun refused => fits ?_
          simp only [DecodesRefused, popped.neededBlocks, popped.count, heldBy_append, heldBy_cons,
            heldBy_nil] at refused ⊢
          omega

theorem planDecodes_refused (waiting : List Sequence) {front rest : List Sequence}
    {a : BlockAllocator}
    (prefilling : ∀ seq ∈ front, seq.status = .prefilling)
    (decoding : ∀ first, rest.head? = some first → first.status = .decoding)
    (refused : DecodesRefused a rest) :
    ∃ a' waiting' preempted,
      planDecodes ⟨front ++ rest, waiting, a, {}⟩ = ⟨front, waiting', a', { preempted }⟩ ∧
      Freed a a' (heldBy rest) ∧
      ∀ other ∈ waiting', other ∈ waiting ∨ Released other.blockTable := by
  have skipped := planDecodesFrom_leading [] front rest waiting a {} prefilling
  simp only [List.nil_append, List.length_nil] at skipped
  rw [planDecodes, skipped]
  cases rest with
  | nil =>
      rw [planDecodesFrom_stop (by simp), List.append_nil]
      exact ⟨a, waiting, [], rfl, ⟨rfl, rfl, rfl⟩, fun _ member => .inl member⟩
  | cons first behind =>
      obtain ⟨a', waiting', preempted, tried, freed, released⟩ :=
        preemptUntilAllocated_refused front behind waiting first a {} refused
      rw [planDecodesFrom_at, if_pos (decoding first rfl), tried]
      simp only [Bool.false_eq_true, if_false]
      rw [planDecodesFrom_stop (by simp)]
      exact ⟨a', waiting', preempted, rfl, freed, released⟩

theorem planDecodes_served (waiting : List Sequence) {front rest : List Sequence}
    {a : BlockAllocator}
    (prefilling : ∀ seq ∈ front, seq.status = .prefilling)
    (decoding : ∀ first, rest.head? = some first → first.status = .decoding)
    (fits : ¬DecodesRefused a rest) :
    (planDecodes ⟨front ++ rest, waiting, a, {}⟩).plan.entries ≠ [] := by
  have skipped := planDecodesFrom_leading [] front rest waiting a {} prefilling
  simp only [List.nil_append, List.length_nil] at skipped
  rw [planDecodes, skipped]
  cases rest with
  | nil => exact absurd trivial fits
  | cons first behind =>
      have served := preemptUntilAllocated_served front behind waiting first a {} fits
      rw [planDecodesFrom_at, if_pos (decoding first rfl)]
      simp only [served, if_true]
      exact planDecodesFrom_entries (by simp)

theorem continuePrefills_refused {scheduler : Scheduler} {budget : Nat} {a : BlockAllocator}
    (plan : BatchPlan) {head : Sequence} (rest : List Sequence)
    (status : head.status = .prefilling) (positive : 0 < budget)
    (refused : (a.freeBlocks.length : Int) < a.neededBlocks head.blockTable
      (scheduler.chunk (head.numTokens - head.prefillProgress) budget)) :
    continuePrefills scheduler budget a plan (head :: rest) = (head :: rest, a, plan, 0) := by
  have none := refused_iff.mpr refused
  unfold Scheduler.chunk at none
  rw [continuePrefills, if_neg (by simp [status, Nat.pos_iff_ne_zero.mp positive])]
  simp only [none]

theorem allocate_whole {a : BlockAllocator} (whole : a.freeBlocks.length = a.numBlocks)
    {seq : Sequence} (released : Released seq.blockTable) (fits : canEverFit a seq = true) {n : Nat}
    (le : n ≤ seq.numTokens) : allocate a seq n 0 ≠ none := by
  intro refused
  have short := refused_iff.mp refused
  have ever : (seq.numTokens + 1) ⌈/⌉ a.blockSize ≤ a.numBlocks := of_decide_eq_true fits
  have less := (gc_mul_ceilDiv a.blockSize_pos).monotone_l (le.trans (Nat.le_add_right _ 1))
  obtain ⟨none, zero⟩ := released
  simp only [BlockAllocator.neededBlocks, none, zero, List.length_nil, Nat.zero_add] at short
  omega

theorem leading_append_following (running : List Sequence) :
    leading running ++ following running = running := List.takeWhile_append_dropWhile

theorem prefilling_leading {running : List Sequence} :
    ∀ seq ∈ leading running, seq.status = .prefilling := by
  intro seq member
  simpa using List.mem_takeWhile_imp member

theorem decoding_following {running : List Sequence}
    (started : ∀ seq ∈ running, seq.status = .prefilling ∨ seq.status = .decoding) :
    ∀ first, (following running).head? = some first → first.status = .decoding := by
  intro first head
  have member : first ∈ running :=
    (List.dropWhile_sublist _).subset (List.mem_of_mem_head? (Option.mem_def.mpr head))
  have stops := List.head?_dropWhile_not (fun seq : Sequence => seq.status = .prefilling) running
  rw [following] at head
  rw [head] at stops
  exact (started first member).resolve_left (by simpa using stops)

theorem schedulerStep_blocked {scheduler : Scheduler} {a : BlockAllocator}
    {running waiting : List Sequence} (now : Time) (budget : 0 < scheduler.tokenBudget)
    (started : ∀ seq ∈ running, seq.status = .prefilling ∨ seq.status = .decoding)
    (blocked : PrefillBlocked scheduler a running) :
    (schedulerStep scheduler now running waiting a).plan.entries = [] ∧
      (schedulerStep scheduler now running waiting a).running ≠ [] := by
  have prefilling := @prefilling_leading running
  have split := leading_append_following running
  unfold PrefillBlocked at blocked
  cases front : leading running with
  | nil => simp [front] at blocked
  | cons head rest =>
      rw [front] at blocked prefilling split
      obtain ⟨refused, chunk⟩ := blocked
      obtain ⟨a', waiting', preempted, decoded, freed, -⟩ :=
        planDecodes_refused waiting prefilling (decoding_following started) refused
      have stuck := continuePrefills_refused { preempted } rest (prefilling head (by simp)) budget (by
          rw [freed.neededBlocks, freed.count, Nat.cast_add]
          exact chunk)
      rw [split] at decoded
      simp only [schedulerStep, decoded, planPrefillContinuations, stuck, planAdmissions,
        planAdmissionsFrom_spent]
      exact ⟨trivial, List.cons_ne_nil _ _⟩

theorem schedulerStep_unblocked {scheduler : Scheduler} {a : BlockAllocator}
    {running waiting : List Sequence} {now : Time} (budget : 0 < scheduler.tokenBudget)
    (room : 0 < scheduler.maxRunning)
    (started : ∀ seq ∈ running, seq.status = .prefilling ∨ seq.status = .decoding)
    (released : ∀ seq ∈ waiting, Released seq.blockTable)
    (whole : a.freeBlocks.length + heldBy running = a.numBlocks)
    (free : ¬PrefillBlocked scheduler a running)
    (empty : (schedulerStep scheduler now running waiting a).plan.entries = []) :
    (schedulerStep scheduler now running waiting a).running = [] ∧
      (schedulerStep scheduler now running waiting a).waiting = [] := by
  have prefilling := @prefilling_leading running
  have decoding := decoding_following started
  have split := leading_append_following running
  simp only [schedulerStep, planPrefillContinuations, planAdmissions] at empty ⊢
  by_cases refused : DecodesRefused a (following running)
  · obtain ⟨a', waiting', preempted, decoded, freed, back⟩ :=
      planDecodes_refused waiting prefilling decoding refused
    rw [split] at decoded
    simp only [decoded] at empty ⊢
    unfold PrefillBlocked at free
    cases front : leading running with
    | nil =>
        -- Nobody is left running, so the whole pool is free for the admissions.
        rw [front] at empty split
        rw [List.nil_append] at split
        simp only [continuePrefills, admissionCap_nil] at empty ⊢
        have free : a'.freeBlocks.length = a'.numBlocks := by
          rw [freed.count, freed.numBlocks, split, whole]
        exact planAdmissionsFrom_idle scheduler now room budget
          (fun seq member fits _ le =>
            allocate_whole free ((back seq member).elim (released seq) id) fits le) empty
    | cons head rest =>
        rw [front] at free empty prefilling
        have fits : ¬(a'.freeBlocks.length : Int) < a'.neededBlocks head.blockTable
            (scheduler.chunk (head.numTokens - head.prefillProgress) scheduler.tokenBudget) := by
          rw [freed.neededBlocks, freed.count, Nat.cast_add]
          exact fun short => free ⟨refused, short⟩
        exact absurd empty (planAdmissionsFrom_entries (continuePrefills_granted
          (prefilling head (by simp)) budget fun refused => fits (refused_iff.mp refused)))
  · have served := planDecodes_served waiting prefilling decoding refused
    rw [split] at served
    exact absurd empty (planAdmissionsFrom_entries (continuePrefills_entries served))

variable {ρ : Type} {runner : ModelRunner ρ} {scheduler : Scheduler}

def EmptyPlanIdle (scheduler : Scheduler) (now : Time) (s : EngineState BlockAllocator ρ) : Prop :=
  (planned scheduler now s).plan.entries = [] →
    (planned scheduler now s).running = [] ∧ (planned scheduler now s).waiting = []

def Unblocked (scheduler : Scheduler) (s : EngineState BlockAllocator ρ) (event : Event) : Prop :=
  ∀ now, event = .schedule now → ¬PrefillBlocked scheduler s.allocator s.running

theorem emptyPlanIdle_iff (budget : 0 < scheduler.tokenBudget) (room : 0 < scheduler.maxRunning)
    (now : Time) {s : EngineState BlockAllocator ρ} (ok : Consistent runner s)
    (owns : Ownership numBlocks blockSize s) (idle : s.inFlight = none)
    (serving : s.phase = .serving) :
    EmptyPlanIdle scheduler now s ↔ ¬PrefillBlocked scheduler s.allocator s.running := by
  have started : ∀ seq ∈ s.running, seq.status = .prefilling ∨ seq.status = .decoding :=
    fun seq member => (ok.idle serving idle seq member).imp And.left And.left
  constructor
  · intro leaves blocked
    obtain ⟨empty, left⟩ :=
      schedulerStep_blocked now budget started blocked
    exact left (leaves empty).1
  · exact fun free => schedulerStep_unblocked budget room started owns.waiting
      (owns.owned.heldBy_eq.trans owns.sized.numBlocks.symm) free

/-- In every reachable state an empty plan leaves nothing to do exactly when no prefill is blocked;
so a run that never schedules while one is blocked waits for requests only when it has none. -/
theorem empty_plan_idle (runner : ModelRunner ρ) (scheduler : Scheduler)
    (budget : 0 < scheduler.tokenBudget) (room : 0 < scheduler.maxRunning)
    {numBlocks blockSize : Nat} (positive : 0 < blockSize) (start : ρ) :
    (∀ s, (loop runner scheduler (.fresh numBlocks blockSize positive) start).Reachable s →
      s.inFlight = none → s.phase = .serving → ∀ now,
      (EmptyPlanIdle scheduler now s ↔ ¬PrefillBlocked scheduler s.allocator s.running)) ∧
    ∀ s now t,
      ((loop runner scheduler (.fresh numBlocks blockSize positive) start).guarded
        (Unblocked scheduler)).Reachable s →
      ((loop runner scheduler (.fresh numBlocks blockSize positive) start).guarded
        (Unblocked scheduler)).step s (.schedule now) t →
      t.inFlight = none → t.running = [] ∧ t.waiting = [] := by
  refine ⟨fun s reachable idle serving now => emptyPlanIdle_iff budget room now
    (consistent reachable) (ownership reachable) idle serving, ?_⟩
  rintro s now _ reachable ⟨free, step⟩ empty
  have before := Machine.guarded_reachable reachable
  have ok := consistent before
  cases step with
  | schedule idle serving =>
      rw [schedule_running _ _ _ ok.live_distinct, schedule_waiting]
      exact (emptyPlanIdle_iff budget room now ok (ownership before) idle serving).mpr
        (free now rfl) (schedule_empty _ _ now empty)

abbrev stallLoop : Machine (EngineState BlockAllocator Caches) Event :=
  loop (hfRunner [] List.length) sampleScheduler (.fresh 4 4 (by decide)) fun _ => []

def stallArrived : EngineState BlockAllocator Caches where
  allocator := .fresh 4 4 (by decide)
  runner _ := []
  waiting :=
    [sequenceFromIngress (sampleRequest 0 1 (List.replicate 11 1) 3),
      sequenceFromIngress (sampleRequest 1 1 (List.replicate 11 1) 3)]

def chunkApplied (plan : BatchPlan) (s : EngineState BlockAllocator Caches) :
    EngineState BlockAllocator Caches :=
  { s with
    runner := (forwardHf List.length plan s.running s.runner).1
    inFlight := none }

def chunkPlan : BatchPlan := { entries := [⟨0, 4, true⟩, ⟨1, 4, true⟩] }

def stallState : EngineState BlockAllocator Caches :=
  chunkApplied chunkPlan (schedule (hfRunner [] List.length) sampleScheduler 0
    (chunkApplied chunkPlan (schedule (hfRunner [] List.length) sampleScheduler 0 stallArrived)))

theorem chunkApplied_reachable (plan : BatchPlan) {s : EngineState BlockAllocator Caches}
    (reachable : stallLoop.Reachable s) (inFlight : s.inFlight = some ⟨plan, s.running, none⟩)
    (nothing : owed plan s.running = []) : stallLoop.Reachable (chunkApplied plan s) := by
  let flight : InFlight := ⟨plan, s.running, some (.results [])⟩
  let computed : EngineState BlockAllocator Caches :=
    { s with
      runner := (forwardHf List.length plan s.running s.runner).1
      inFlight := some flight }
  have forward : Step (hfRunner [] List.length) sampleScheduler s (.forward (.results [])) computed :=
    .forward inFlight rfl ⟨rfl, by simp [nothing, emitTokens]⟩
  have applied : applyOutcome (hfRunner [] List.length) 0 flight (.results []) computed =
    chunkApplied plan s := rfl
  rw [← applied]
  exact .next (.next reachable forward) (.apply rfl rfl)

theorem stallState_reachable : stallLoop.Reachable stallState := by
  let empty : EngineState BlockAllocator Caches :=
    { allocator := .fresh 4 4 (by decide), runner := fun _ => [] }
  let one : EngineState BlockAllocator Caches := { empty with
    waiting :=
      [sequenceFromIngress (sampleRequest 0 1 (List.replicate 11 1) 3)] }
  have first : Step (hfRunner [] List.length) sampleScheduler empty
      (.arrive (sampleRequest 0 1 (List.replicate 11 1) 3)) one :=
    .arrive rfl nofun nofun
  have second : Step (hfRunner [] List.length) sampleScheduler one
      (.arrive (sampleRequest 1 1 (List.replicate 11 1) 3)) stallArrived :=
    .arrive rfl nofun (by decide)
  have arrived : stallLoop.Reachable stallArrived := .next (.next (.initial rfl) first) second
  have once : stallLoop.Reachable (schedule (hfRunner [] List.length) sampleScheduler 0 stallArrived) :=
    .next arrived (.schedule rfl rfl)
  have chunked := chunkApplied_reachable chunkPlan once (by decide +kernel) (by decide +kernel)
  have phase := schedule_phase (hfRunner [] List.length) sampleScheduler 0 stallArrived
  have twice : stallLoop.Reachable (schedule (hfRunner [] List.length) sampleScheduler 0 _) :=
    .next chunked (.schedule rfl phase)
  exact chunkApplied_reachable chunkPlan twice (by decide +kernel) (by decide +kernel)

/-- Neither prompt gets its last block, and nothing can come free. -/
theorem empty_plan_idle_fails :
    stallLoop.Reachable stallState ∧ stallState.inFlight = none ∧ stallState.phase = .serving ∧
    ¬EmptyPlanIdle sampleScheduler 0 stallState := by
  refine ⟨stallState_reachable, rfl, by decide +kernel, fun leaves => ?_⟩
  have stuck : (planned sampleScheduler 0 stallState).plan.entries = [] ∧
      (planned sampleScheduler 0 stallState).running ≠ [] := by decide +kernel
  exact stuck.2 (leaves stuck.1).1

theorem empty_plan_idle_sample :
    EmptyPlanIdle sampleScheduler 0 stallState ↔
      ¬PrefillBlocked sampleScheduler stallState.allocator stallState.running :=
  (empty_plan_idle (hfRunner [] List.length) sampleScheduler (by decide) (by decide) (by decide)
    fun _ => []).1 stallState stallState_reachable rfl (by decide +kernel) 0

end LlmServing.Paged
