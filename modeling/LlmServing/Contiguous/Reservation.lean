import LlmServing.Engine.Remaining
import Mathlib.Algebra.Order.BigOperators.Group.List

/-!
# What the contiguous allocator reserves

A running sequence has the slots for its prompt and every token it may generate, so it never waits
for one.
-/

namespace LlmServing.Contiguous

open Scheduling Runner Engine Lib
open ContiguousAllocator (reservation)

def reservedBy (seqs : List Sequence) : Int := (seqs.map (·.blockTable.reservedTokens : _ → Int)).sum

@[simp] theorem reservedBy_nil : reservedBy [] = 0 := rfl

@[simp] theorem reservedBy_cons (seq : Sequence) (seqs : List Sequence) :
    reservedBy (seq :: seqs) = seq.blockTable.reservedTokens + reservedBy seqs := rfl

@[simp] theorem reservedBy_append (first second : List Sequence) :
    reservedBy (first ++ second) = reservedBy first + reservedBy second := by simp [reservedBy]

structure Accounted (capacity : Nat) (a : ContiguousAllocator) (running : List Sequence) : Prop where
  size : a.capacityTokens = capacity
  used : a.usedTokens = reservedBy running
  fits : a.usedTokens ≤ capacity

variable {capacity : Nat} {a a' : ContiguousAllocator} {seq : Sequence} {table : BlockTable}
  {n reserve : Nat} {front behind running : List Sequence}

theorem reservation_pos (seq : Sequence) : 0 < reservation seq := by
  have prompt := List.length_pos_iff.mpr seq.promptTokens_ne_nil
  unfold reservation
  omega

theorem allocate_reserved (reserved : seq.blockTable.reservedTokens ≠ 0) (a : ContiguousAllocator)
    (n reserve : Nat) : allocate a seq n reserve =
      some (a, { seq.blockTable with numTokens := seq.blockTable.numTokens + n }) :=
  if_neg reserved

theorem allocate_unreserved (none : seq.blockTable.reservedTokens = 0)
    (granted : allocate a seq n reserve = some (a', table)) :
    a.usedTokens + reservation seq ≤ a.capacityTokens ∧
    a' = { a with usedTokens := a.usedTokens + reservation seq } ∧
    table = { seq.blockTable with
      reservedTokens := reservation seq
      numTokens := seq.blockTable.numTokens + n } := by
  have granted : ContiguousAllocator.allocate a seq n reserve = some (a', table) := granted
  rw [ContiguousAllocator.allocate] at granted
  simp only [none, if_true] at granted
  split at granted
  · cases granted
  · rename_i fits
    simp only [Option.some.injEq, Prod.mk.injEq] at granted
    exact ⟨by omega, granted.1.symm, granted.2.symm⟩

theorem Accounted.grow (accounted : Accounted capacity a (front ++ seq :: behind))
    (reserved : seq.blockTable.reservedTokens ≠ 0) {seq' : Sequence}
    (granted : allocate a seq n reserve = some (a', table)) (same : seq'.blockTable = table) :
    Accounted capacity a' (front ++ seq' :: behind) := by
  rw [allocate_reserved reserved] at granted
  obtain ⟨rfl, rfl⟩ := Prod.mk.inj (Option.some.inj granted)
  refine ⟨accounted.size, accounted.used.trans ?_, accounted.fits⟩
  simp only [reservedBy_append, reservedBy_cons, same]

theorem Accounted.join (accounted : Accounted capacity a running)
    (none : seq.blockTable.reservedTokens = 0) {seq' : Sequence}
    (granted : allocate a seq n reserve = some (a', table)) (same : seq'.blockTable = table) :
    Accounted capacity a' (running ++ [seq']) := by
  obtain ⟨fits, rfl, rfl⟩ := allocate_unreserved none granted
  obtain ⟨size, used, -⟩ := accounted
  refine ⟨size, ?_, size ▸ fits⟩
  simp only [reservedBy_append, reservedBy_cons, reservedBy_nil, same]
  omega

theorem Accounted.leave (accounted : Accounted capacity a (front ++ seq :: behind)) :
    Accounted capacity (free a seq.blockTable).1 (front ++ behind) := by
  obtain ⟨size, used, fits⟩ := accounted
  simp only [reservedBy_append, reservedBy_cons] at used
  have freed : (free a seq.blockTable).1.usedTokens =
    a.usedTokens - seq.blockTable.reservedTokens := rfl
  refine ⟨size, ?_, ?_⟩
  · rw [freed, reservedBy_append]
    omega
  · rw [freed]
    omega

theorem reserving (scheduler : Scheduler) (now : Time) :
    PlanRule (α := ContiguousAllocator) scheduler now (fun _ => True)
      (fun _ _ seq => seq.blockTable.reservedTokens = reservation seq)
      (fun _ seq => seq.blockTable.reservedTokens = 0) where
  grant _ _ := trivial
  release _ := trivial
  decode {a a' seq table freed} _ _ reserved granted := by
    have some : seq.blockTable.reservedTokens ≠ 0 := reserved ▸ (reservation_pos seq).ne'
    rw [allocate_reserved some] at granted
    obtain ⟨rfl, rfl⟩ := Prod.mk.inj (Option.some.inj granted)
    exact reserved
  preempt _ _ := rfl
  «continue» {a a' seq table budget freed} _ _ reserved _ granted := by
    have some : seq.blockTable.reservedTokens ≠ 0 := reserved ▸ (reservation_pos seq).ne'
    rw [allocate_reserved some] at granted
    obtain ⟨rfl, rfl⟩ := Prod.mk.inj (Option.some.inj granted)
    exact reserved
  admission _ none _ _ granted := by
    obtain ⟨-, -, rfl⟩ := allocate_unreserved none granted
    rfl
  skip none := none

theorem accounted_planStep {scheduler : Scheduler} {now : Time}
    {st st' : Planning ContiguousAllocator} (step : PlanStep scheduler now st st')
    (running : ∀ seq ∈ st.running, seq.blockTable.reservedTokens = reservation seq)
    (waiting : ∀ seq ∈ st.waiting, seq.blockTable.reservedTokens = 0)
    (accounted : Accounted capacity st.allocator st.running ∧ st.plan.preempted = []) :
    Accounted capacity st'.allocator st'.running ∧ st'.plan.preempted = [] := by
  have reserved (seq : Sequence) (member : seq ∈ st.running) :
      seq.blockTable.reservedTokens ≠ 0 := running seq member ▸ (reservation_pos seq).ne'
  cases step with
  | decode status unplanned granted =>
      exact ⟨accounted.1.grow (reserved _ (by simp)) granted rfl, accounted.2⟩
  | preempt unplanned served status refused =>
      rw [allocate_reserved (reserved _ served)] at refused
      cases refused
  | «continue» status unplanned positive chunk granted =>
      exact ⟨accounted.1.grow (reserved _ (by simp)) granted rfl, accounted.2⟩
  | reject unfit => exact accounted
  | admission fits positive room chunk granted =>
      exact ⟨accounted.1.join (waiting _ (by simp)) granted rfl, accounted.2⟩

variable {ρ : Type} {runner : ModelRunner ρ} {scheduler : Scheduler}

structure Reservations (capacity : Nat) (s : EngineState ContiguousAllocator ρ) : Prop where
  accounted : Accounted capacity s.allocator s.running
  running : ∀ seq ∈ s.running, seq.blockTable.reservedTokens = reservation seq
  inside : ∀ seq ∈ s.running, seq.blockTable.numTokens ≤ reservation seq
  waiting : ∀ seq ∈ s.waiting, seq.blockTable.reservedTokens = 0

theorem Reservations.planned (scheduler : Scheduler) (now : Time)
    {s : EngineState ContiguousAllocator ρ} (ok : Consistent runner s)
    (reservations : Reservations capacity s) :
    (planned scheduler now s).Holds (fun _ => True)
        (fun _ _ seq => seq.blockTable.reservedTokens = reservation seq)
        (fun _ seq => seq.blockTable.reservedTokens = 0) ∧
      Accounted capacity (planned scheduler now s).allocator (planned scheduler now s).running ∧
      (planned scheduler now s).plan.preempted = [] :=
  (reserving scheduler now).schedulerStep_keeps
    (I := fun st => Accounted capacity st.allocator st.running ∧ st.plan.preempted = [])
    (fun _ _ step _ holds accounted =>
      accounted_planStep step holds.running holds.waiting accounted)
    ok.live_distinct trivial reservations.running reservations.waiting
    ⟨reservations.accounted, rfl⟩

theorem accounted_aborts {seqs : List Sequence} {st : Folding ContiguousAllocator}
    (distinct : (st.running.map (·.seqId)).Nodup) (once : (seqs.map (·.seqId)).Nodup)
    (each : ∀ seq ∈ seqs, seq ∈ st.running ∨
      (seq.blockTable.reservedTokens = 0 ∧ seq.seqId ∉ st.running.map (·.seqId)))
    (accounted : Accounted capacity st.allocator st.running) :
    Accounted capacity (seqs.foldl abortOne st).allocator (seqs.foldl abortOne st).running := by
  refine foldl_abortOne_rule (I := fun st => Accounted capacity st.allocator st.running)
    (fun _ _ _ _ _ accounted => accounted.leave) (fun seq running a _ none accounted => ?_) seqs st
    distinct once each accounted
  have nothing : (free a seq.blockTable).1 = a := by
    simp [KVAllocator.free, ContiguousAllocator.free, none]
  simp only [nothing]
  exact accounted

theorem Reservations.aborted (runner : ModelRunner ρ) {seqs : List Sequence}
    {s : EngineState ContiguousAllocator ρ} (reservations : Reservations capacity s)
    (distinct : (s.running.map (·.seqId)).Nodup) (once : (seqs.map (·.seqId)).Nodup)
    (each : ∀ seq ∈ seqs, seq ∈ s.running ∨
      (seq.blockTable.reservedTokens = 0 ∧ seq.seqId ∉ s.running.map (·.seqId))) :
    Reservations capacity (aborted runner seqs s) := by
  exact ⟨accounted_aborts distinct once each reservations.accounted,
    fun seq member => reservations.running seq (mem_released_running distinct member),
    fun seq member => reservations.inside seq (mem_released_running distinct member),
    reservations.waiting⟩

theorem reservationsRule :
    LoopRule runner scheduler Unspent (Reservations (ρ := ρ) capacity) where
  arrive _ _ reservations _ _ _ := by
    refine ⟨reservations.accounted, reservations.running, reservations.inside, ?_⟩
    intro seq member
    rcases List.mem_append.mp member with member | member
    · exact reservations.waiting seq member
    · rw [List.mem_singleton.mp member]
      rfl
  schedule {s now} ok unspent reservations idle serving := by
    have apart := planned_distinct scheduler now ok.live_distinct
    obtain ⟨holds, accounted, -⟩ := reservations.planned scheduler now ok
    have left := unspent.planned scheduler now ok
    have bookkept := ok.planned scheduler now idle serving
    have after : Reservations capacity (afterStep runner scheduler now s) := by
      refine ⟨accounted, holds.running, fun seq member => ?_, holds.waiting⟩
      have cached := (bookkept.running seq member).numTokens_le
      have few : seq.generatedTokens.length < seq.samplingParams.maxTokens :=
        left.running seq member
      unfold Sequence.numTokens at cached
      unfold reservation
      omega
    rw [schedule_aborted now idle]
    have freed := after.aborted runner apart.running_nodup apart.rejected_nodup
      fun seq member => .inr ⟨holds.rejected seq member, fun running =>
        apart.running_not_rejected running (List.mem_map_of_mem member)⟩
    unfold handOff
    split
    · exact freed
    · exact ⟨freed.accounted, freed.running, freed.inside, freed.waiting⟩
  forward _ _ reservations _ _ _ := ⟨reservations.accounted, reservations.running,
    reservations.inside, reservations.waiting⟩
  results {s now flight results folded} ok _ reservations inFlight outcome computed spec := by
    have flightOk := ok.flight flight inFlight
    refine ⟨?_, spec.running_keeps reservations.running fun _ _ reserved => reserved,
      spec.running_keeps reservations.inside fun _ _ inside => inside, reservations.waiting⟩
    refine foldResults_keeps (I := fun st => Accounted capacity st.allocator st.running)
      (fun _ _ _ _ _ _ accounted => ?_) (fun _ _ _ _ _ _ accounted => accounted.leave)
      ok.running_distinct (flightOk.results_once outcome) (flightOk.results_present outcome)
      computed reservations.accounted
    exact ⟨accounted.size, by simpa using accounted.used, accounted.fits⟩
  failed {s flight} ok _ reservations inFlight _ := by
    have flightOk := ok.flight flight inFlight
    exact reservations.aborted runner ok.running_distinct flightOk.failedBatch_nodup
      fun seq member => .inl (mem_failedBatch flightOk member)
  deviceLost _ _ reservations _ _ := ⟨reservations.accounted, reservations.running,
    reservations.inside, reservations.waiting⟩
  abortAll {s} ok _ reservations _ _ := by
    have gone : Reservations capacity (Engine.aborted runner (s.running ++ s.waiting) s) :=
      reservations.aborted runner ok.running_distinct ok.live_distinct (by
        intro seq member
        rcases List.mem_append.mp member with member | member
        · exact .inl member
        · exact .inr ⟨reservations.waiting seq member, fun running =>
            ok.running_not_waiting running (List.mem_map_of_mem member)⟩)
    exact ⟨gone.accounted, gone.running, gone.inside, List.forall_mem_nil _⟩

theorem reservations {start : ρ} {s : EngineState ContiguousAllocator ρ}
    (reachable : (loop runner scheduler { capacityTokens := capacity } start).Reachable s) :
    Reservations capacity s :=
  reservationsRule.reachable (fun _ before => unspent before)
    ⟨⟨rfl, rfl, Int.natCast_nonneg capacity⟩, List.forall_mem_nil _, List.forall_mem_nil _,
      List.forall_mem_nil _⟩ reachable

end LlmServing.Contiguous
