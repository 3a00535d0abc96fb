import LlmServing.Contiguous.Reservation
import LlmServing.Engine.Batches

/-!
# Batches on the contiguous allocator

Nothing is preempted, so whoever waits was never admitted, and the static scheduler admits only when
nothing is left of the batch before.
-/

namespace LlmServing.Contiguous

open Scheduling Runner Engine Lib

variable {ρ : Type} {runner : ModelRunner ρ} {scheduler : Scheduler} {now : Time} {capacity : Nat}
  {s : EngineState ContiguousAllocator ρ}

theorem planDecodesFrom_granted (done : List Sequence) {todo : List Sequence}
    (waiting : List Sequence) (a : ContiguousAllocator) (plan : BatchPlan)
    (grants : ∀ seq ∈ todo, ∀ a : ContiguousAllocator, allocate a seq 1 0 ≠ none) :
    ∃ served a' plan',
      planDecodesFrom done.length ⟨done ++ todo, waiting, a, plan⟩ =
        ⟨done ++ served, waiting, a', plan'⟩ ∧ served.length = todo.length := by
  induction todo generalizing done a plan with
  | nil => exact ⟨[], a, plan, planDecodesFrom_stop (by simp), rfl⟩
  | cons seq rest ih =>
      have others : ∀ other ∈ rest, ∀ a : ContiguousAllocator, allocate a other 1 0 ≠ none :=
        fun other member => grants other (List.mem_cons_of_mem _ member)
      by_cases status : seq.status = .decoding
      · obtain ⟨⟨a₁, table⟩, granted⟩ :=
          Option.ne_none_iff_exists'.mp (grants seq (List.mem_cons_self ..) a)
        obtain ⟨served, a', plan', same, length⟩ := ih (done ++ [{ seq with blockTable := table }])
          a₁ (plan.add seq 1) others
        refine ⟨{ seq with blockTable := table } :: served, a', plan', ?_, by simp [length]⟩
        rw [planDecodesFrom_serve done rest waiting plan status granted, same, List.append_assoc,
          List.singleton_append]
      · obtain ⟨served, a', plan', same, length⟩ := ih (done ++ [seq]) a plan others
        refine ⟨seq :: served, a', plan', ?_, by simp [length]⟩
        rw [planDecodesFrom_pass done rest waiting a plan status, same, List.append_assoc,
          List.singleton_append]

theorem continued_granted (scheduler : Scheduler) (reservations : Reservations capacity s) :
    (continued scheduler s).waiting = s.waiting ∧
      (continued scheduler s).running.length = s.running.length := by
  have grants (seq : Sequence) (member : seq ∈ s.running) (a : ContiguousAllocator) :
      allocate a seq 1 0 ≠ none := by
    have reserved : seq.blockTable.reservedTokens ≠ 0 :=
      reservations.running seq member ▸ (reservation_pos seq).ne'
    rw [allocate_reserved reserved]
    exact Option.some_ne_none _
  obtain ⟨served, a', plan', same, length⟩ :=
    planDecodesFrom_granted [] s.waiting s.allocator {} grants
  have decoded : planDecodes ⟨s.running, s.waiting, s.allocator, {}⟩ =
      ⟨served, s.waiting, a', plan'⟩ := same
  simp only [continued, planPrefillContinuations, decoded]
  exact ⟨trivial, (length_continuePrefills ..).trans length⟩

def Unadmitted (s : EngineState ContiguousAllocator ρ) : Prop := ∀ seq ∈ s.waiting, ¬Admitted seq

theorem unadmittedRule :
    LoopRule runner scheduler (Reservations capacity) (Unadmitted (ρ := ρ)) where
  arrive _ _ never _ _ _ := by
    intro seq member
    rcases List.mem_append.mp member with member | member
    · exact never seq member
    · rw [List.mem_singleton.mp member]
      exact fun old => old rfl
  schedule {s now} _ reservations never _ _ := by
    intro seq member
    rw [schedule_waiting] at member
    have left := (planAdmissionsFrom_fewer scheduler now _ 0 _ (continued scheduler s)).subset
      (List.mem_map_of_mem member)
    rw [(continued_granted scheduler reservations).1] at left
    obtain ⟨source, found, same⟩ := List.mem_map.mp left
    exact fun old => never source found ((admitted_brief same).mpr old)
  forward _ _ never _ _ _ := never
  results _ _ never _ _ _ _ := never
  failed _ _ never _ _ := never
  deviceLost _ _ never _ _ := never
  abortAll _ _ _ _ _ := List.forall_mem_nil _

theorem clears (static : scheduler.kind = .staticBatched) (capacity : Nat) (start : ρ) :
    Clears runner scheduler ({ capacityTokens := capacity } : ContiguousAllocator) start
      (fun _ _ => True) (fun _ => True) (fun _ => True) where
  static := static
  fitting _ _ _ _ := trivial
  reached _ _ := trivial
  cleared s batch now reachable holds _ nobody _ _ seq member old := by
    have reserved : Reservations capacity s := reservations reachable
    have never : Unadmitted s := unadmittedRule.reachable (fun _ before => reservations before)
      (List.forall_mem_nil _) reachable
    have empty : s.running = [] := by
      rw [← List.length_eq_zero_iff, ← (continued_granted scheduler reserved).2, nobody]
      rfl
    rw [empty, List.nil_append] at member
    exact absurd old (never seq member)

theorem unmixed (static : scheduler.kind = .staticBatched) {start : ρ} {event : Event}
    {st st' : EngineState ContiguousAllocator ρ × List SeqId}
    (reachable : (batches (loop runner scheduler { capacityTokens := capacity } start)).Reachable st)
    (step : (batches (loop runner scheduler { capacityTokens := capacity } start)).step st event st') :
    Unmixed st.1 st.2 st'.1 :=
  (clears static capacity start).unmixed (fun now => reserving scheduler now)
    (reachable.guarded fun _ _ => trivial) ⟨trivial, step⟩

end LlmServing.Contiguous
