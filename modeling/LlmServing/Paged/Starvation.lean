import LlmServing.Engine.Starvation
import LlmServing.Paged.Preemption

/-!
# Preemption in front of a spent head

The guard of the admissions reads the skips of `waiting[0]` alone. A sequence preempted to the head of
`waiting` with skips of its own left lets others be admitted past a sequence that has spent its skips.
-/

namespace LlmServing.Paged

open Scheduling Runner Engine Lib

variable {ρ : Type} {runner : ModelRunner ρ} {scheduler : Scheduler} {numBlocks blockSize : Nat}

/-- No scheduler step looks past a sequence that is promised to be next while the head of `waiting` was
preempted, its skips not spent. -/
def Undisturbed (scheduler : Scheduler) (st : EngineState BlockAllocator ρ × List SeqId)
    (event : Event) : Prop :=
  ∀ now, event = .schedule now → ∀ round ∈ rounds scheduler now st.1, ∀ head ∈ round.1.head?,
    ¬Spent head → Admitted head → ∀ seq ∈ round.1, ¬Promised st.1 st.2 seq

theorem overtaken_head {s : EngineState BlockAllocator ρ} {promised : List SeqId} (scheduler : Scheduler)
    (now : Time) (ok : Consistent runner s) (owns : Ownership numBlocks blockSize s)
    (admitted : ∀ seq ∈ s.running, Admitted seq) (holds : PromisesOk s promised) :
    (∀ pair ∈ overtaking scheduler now s, ∀ seq ∈ pair.1, Promised s promised seq →
      ∃ head ∈ pair.1.head?, ¬Spent head ∧ Admitted head) ∧
      Ahead (Promised s promised) (planned scheduler now s).waiting := by
  have filled : ∀ seq ∈ s.running, TableFilled s.allocator.blockSize seq.blockTable :=
    owns.sized.blockSize.symm ▸ owns.filled
  obtain ⟨a, served, done, -⟩ := planDecodes_kept filled s.waiting
  have decoded : (planDecodes ⟨s.running, s.waiting, s.allocator, {}⟩).waiting =
      (s.running.drop (keptCount s.allocator s.running)).map requeued ++ s.waiting := by rw [done]
  refine holds.planned ok decoded (fun seq member => ?_) fun seq member => ?_
  · obtain ⟨source, gone, rfl⟩ := List.mem_map.mp member
    exact ⟨source, List.mem_of_mem_drop gone, rfl, rfl⟩
  · obtain ⟨source, gone, rfl⟩ := List.mem_map.mp member
    have ran := admitted source (List.mem_of_mem_drop gone)
    exact ran

theorem promisesOk {positive : 0 < blockSize} {start : ρ}
    {st : EngineState BlockAllocator ρ × List SeqId}
    (reachable : (promises (loop runner scheduler (.fresh numBlocks blockSize positive)
      start)).Reachable st) : PromisesOk st.1 st.2 := by
  refine reachable.invariant (P := fun st => PromisesOk st.1 st.2) ?_ ?_
  · rintro ⟨_, _⟩ ⟨rfl, rfl⟩
    exact ⟨fun _ named => absurd named List.not_mem_nil, .nil⟩
  · rintro ⟨s, promised⟩ event ⟨t, later⟩ before holds ⟨step, same⟩
    obtain rfl : later = promisedAfter s promised t := same
    have move : Step runner scheduler s event t := step
    have reached := Machine.recording_reachable before
    have ok := consistent reached
    refine .after (consistent (reached.next step)) ?_
    cases event with
    | schedule now =>
        cases move with
        | schedule idle serving =>
            rw [schedule_waiting]
            exact (overtaken_head scheduler now ok (ownership reached) (admitted_running reached) holds).2
    | arrive | forward | apply | abortAll => exact holds.quiet ok move (by simp)

/-- In a run that never looks past a promised sequence from behind a preempted head with skips left, no
scheduler step admits a sequence past one that is promised to be next. In any run it is such a head that
an admission past a promised sequence has got by. `overtaking` lists whom a step admits, in order. -/
theorem starvation_guard (runner : ModelRunner ρ) (scheduler : Scheduler) {numBlocks blockSize : Nat}
    (positive : 0 < blockSize) (start : ρ) :
    (∀ st now st',
      ((promises (loop runner scheduler (.fresh numBlocks blockSize positive) start)).guarded
        (Undisturbed scheduler)).Reachable st →
      ((promises (loop runner scheduler (.fresh numBlocks blockSize positive) start)).guarded
        (Undisturbed scheduler)).step st (.schedule now) st' →
      Frozen scheduler now st.1 st.2) ∧
    (∀ st, (promises (loop runner scheduler (BlockAllocator.fresh numBlocks blockSize positive)
      start)).Reachable st → ∀ now,
      Frozen scheduler now st.1 st.2 ↔
        ∀ pair ∈ overtaking scheduler now st.1, ∀ head ∈ pair.1.head?,
          ¬Spent head → Admitted head → ∀ seq ∈ pair.1, ¬Promised st.1 st.2 seq) ∧
    ∀ (s : EngineState BlockAllocator ρ) now, (planned scheduler now s).running.map (·.seqId) =
      (planPrefillContinuations scheduler
        (planDecodes ⟨s.running, s.waiting, s.allocator, {}⟩)).1.running.map (·.seqId) ++
        (overtaking scheduler now s).map (·.2) := by
  have exact : ∀ st, (promises (loop runner scheduler (BlockAllocator.fresh numBlocks blockSize positive)
      start)).Reachable st → ∀ now,
      Frozen scheduler now st.1 st.2 ↔
        ∀ pair ∈ overtaking scheduler now st.1, ∀ head ∈ pair.1.head?,
          ¬Spent head → Admitted head → ∀ seq ∈ pair.1, ¬Promised st.1 st.2 seq := by
    rintro ⟨s, promised⟩ reachable now
    have reached := Machine.recording_reachable reachable
    have passed := (overtaken_head scheduler now (consistent reached) (ownership reached)
      (admitted_running reached) (promisesOk reachable)).1
    constructor
    · intro frozen pair member _ _ _ _
      exact frozen pair member
    · intro kept pair member seq front owed
      obtain ⟨head, first, few, admitted⟩ := passed pair member seq front owed
      exact kept pair member head first few admitted seq front owed
  refine ⟨?_, exact, fun s now => overtakingFrom_running scheduler now _ _ _ _⟩
  rintro ⟨s, promised⟩ now st' reachable ⟨undisturbed, -⟩
  refine (exact _ (Machine.guarded_reachable reachable) now).mpr fun pair member => ?_
  obtain ⟨round, looked, same⟩ := overtakingFrom_rounds scheduler now _ _ _ _ pair member
  have kept := undisturbed now rfl round looked
  rwa [same] at kept

def wideScheduler : Scheduler := ⟨.continuousBatched, 60, 10⟩

abbrev overtakenLoop : Machine (EngineState BlockAllocator Caches) Event :=
  loop (hfRunner [] List.length) wideScheduler (samplePool 27 0) fun _ => []

abbrev emptyPool : EngineState BlockAllocator Caches :=
  { allocator := samplePool 27 0, runner := fun _ => [] }

def runningOne : EngineState BlockAllocator Caches :=
  iterationHf [] List.length wideScheduler 0
    (arrived [sampleRequest 0 1 [] 8] emptyPool)

def queue : List IngressRequest :=
  [sampleRequest 1 1 (List.replicate 24 1) 0, sampleRequest 2 1 [] 8, sampleRequest 3 1 [] 8,
    sampleRequest 4 1 [] 8, sampleRequest 5 1 [] 8, sampleRequest 6 1 [] 8, sampleRequest 7 1 [] 8,
    sampleRequest 8 1 [] 8, sampleRequest 9 1 (List.replicate 9 1) 8, sampleRequest 10 1 [] 8]

def overtaken : EngineState BlockAllocator Caches :=
  iterationHf [] List.length wideScheduler 0 (arrived queue runningOne)

theorem queued_reachable :
    overtakenLoop.Reachable (arrived queue runningOne) ∧
      (arrived queue runningOne).inFlight = none ∧ (arrived queue runningOne).phase = .serving := by
  have first : overtakenLoop.Reachable (arrived [sampleRequest 0 1 [] 8] emptyPool) :=
    arrived_reachable _ (.initial rfl) rfl (by decide) (by decide) (by decide)
  obtain ⟨reachable, idle, serving⟩ := iterationHf_reachable 0 first rfl rfl
  have live : runningOne.phase ≠ .failed := fun failed => by cases serving.symm.trans failed
  exact ⟨arrived_reachable queue reachable idle live (by decide +kernel) (by decide), idle, serving⟩

/-- The prompt of ten tokens is preempted to the head of `waiting`, and the last short one admitted
past it and past the long prompt. -/
theorem starvation_guard_fails :
    ∃ promised, (promises overtakenLoop).Reachable (overtaken, promised) ∧
      overtaken.inFlight = none ∧ overtaken.phase = .serving ∧
      ¬Frozen wideScheduler 0 overtaken promised := by
  obtain ⟨reachable, idle, serving⟩ := queued_reachable
  obtain ⟨before, recorded⟩ := reachable.recording [] promisedAfter
  obtain ⟨idle', serving'⟩ : overtaken.inFlight = none ∧ overtaken.phase = .serving :=
    (iterationHf_reachable 0 reachable idle serving).2
  obtain ⟨promised, after, kept⟩ : ∃ promised,
      (promises overtakenLoop).Reachable (overtaken, promised) ∧
      ∀ seq ∈ overtaken.waiting, Promised (arrived queue runningOne) before seq →
        seq.seqId ∈ promised := by
    have always : AtSchedules fun (_ : EngineState BlockAllocator Caches × List SeqId) _ => True :=
      fun _ _ _ => trivial
    obtain ⟨promised, after, kept⟩ := promises_iteration always (recorded.guarded fun _ _ => trivial)
      trivial idle serving fun _ inFlight => (forwardPlanned_computed [] List.length inFlight).2
    exact ⟨promised, Machine.guarded_reachable after, kept⟩
  refine ⟨promised, after, idle', serving', fun frozen => ?_⟩
  have past : ∃ pair ∈ overtaking wideScheduler 0 overtaken, ∃ seq ∈ pair.1,
      seq ∈ overtaken.waiting ∧ Spent seq ∧
        skipsOf (arrived queue runningOne) seq.seqId < maxAdmissionSkips := by decide +kernel
  obtain ⟨pair, admitted, seq, front, waits, spent, few⟩ := past
  exact frozen pair admitted seq front ⟨spent, .inl (kept seq waits ⟨spent, .inr few⟩)⟩

abbrev patientLoop : Machine (EngineState BlockAllocator Caches) Event :=
  loop (hfRunner [] List.length) wideScheduler (samplePool 32 0) fun _ => []

def patientOne : EngineState BlockAllocator Caches :=
  iterationHf [] List.length wideScheduler 0
    (arrived [sampleRequest 0 1 [] 8] { allocator := samplePool 32 0, runner := fun _ => [] })

def patientQueue : EngineState BlockAllocator Caches :=
  arrived (sampleRequest 1 1 (List.replicate 29 1) 0 ::
    (List.range 9).map fun i => sampleRequest (i + 2) 1 [] 8) patientOne

def patient : EngineState BlockAllocator Caches := iterationHf [] List.length wideScheduler 0 patientQueue

def Calm (s : EngineState BlockAllocator Caches) (event : Event) : Prop :=
  ∀ now, event = .schedule now → ∀ round ∈ rounds wideScheduler now s, ∀ head ∈ round.1.head?,
    Spent head ∨ ¬Admitted head

theorem Calm.undisturbed {s : EngineState BlockAllocator Caches} {promised : List SeqId} {event : Event}
    (calm : Calm s event) : Undisturbed wideScheduler (s, promised) event := by
  intro now same round looked head first few admitted
  rcases calm now same round looked head first with spent | never
  · exact absurd spent few
  · exact absurd admitted never

theorem undisturbed_others : AtSchedules (Undisturbed (ρ := Caches) wideScheduler) :=
  fun _ _ others now same => absurd same (others now)

theorem patient_reachable : ∃ promised,
    ((promises patientLoop).guarded (Undisturbed wideScheduler)).Reachable (patient, promised) ∧
      patient.inFlight = none ∧ patient.phase = .serving ∧ 1 ∈ promised := by
  have others : AtSchedules Calm := fun _ _ others now same => absurd same (others now)
  have first : (patientLoop.guarded Calm).Reachable (arrived [sampleRequest 0 1 [] 8] _) :=
    arrived_guarded others _ (.initial rfl) rfl (by decide) (by decide) (by decide)
  have calm : ∀ round ∈ rounds wideScheduler 0 (arrived [sampleRequest 0 1 [] 8]
      { allocator := samplePool 32 0, runner := fun _ => [] : EngineState BlockAllocator Caches }),
      ∀ head ∈ round.1.head?, Spent head ∨ ¬Admitted head := by decide +kernel
  obtain ⟨reachable, idle, serving⟩ := iterationHf_guarded others first
    (fun now same => by cases same; exact calm) rfl rfl
  have live : patientOne.phase ≠ .failed := fun failed => by cases serving.symm.trans failed
  have queued : (patientLoop.guarded Calm).Reachable patientQueue :=
    arrived_guarded others _ reachable idle live (by decide +kernel) (by decide)
  obtain ⟨before, recorded⟩ : ∃ before,
      ((promises patientLoop).guarded (Undisturbed wideScheduler)).Reachable (patientQueue, before) :=
    queued.guarded_recording [] promisedAfter fun _ _ _ calm => calm.undisturbed
  have calm : ∀ round ∈ rounds wideScheduler 0 patientQueue, ∀ head ∈ round.1.head?,
      Spent head ∨ ¬Admitted head := by decide +kernel
  obtain ⟨promised, after, kept⟩ := promises_iteration undisturbed_others recorded
    (Calm.undisturbed fun now same => by cases same; exact calm) idle serving
    fun _ inFlight => (forwardPlanned_computed [] List.length inFlight).2
  have held : ∃ seq ∈ patient.waiting, seq.seqId = 1 ∧ Spent seq ∧
      skipsOf patientQueue 1 < maxAdmissionSkips := by decide +kernel
  obtain ⟨seq, waits, named, spent, few⟩ := held
  obtain ⟨-, idle, serving⟩ := iterationHf_reachable 0 (Machine.guarded_reachable queued) idle serving
  refine ⟨promised, after, idle, serving, ?_⟩
  have owed := kept seq waits ⟨spent, .inr (named ▸ few)⟩
  rwa [named] at owed

/-- The ninth short prompt is not admitted past the long one, though the pool has room for it. -/
theorem starvation_guard_sample :
    ∃ promised, 1 ∈ promised ∧ patient.waiting.map (·.seqId) = [1, 10] ∧
      Frozen wideScheduler 0 patient promised := by
  obtain ⟨promised, reachable, idle, serving, owed⟩ := patient_reachable
  have calm : ∀ round ∈ rounds wideScheduler 0 patient, ∀ head ∈ round.1.head?,
      Spent head ∨ ¬Admitted head := by decide +kernel
  let next := schedule (hfRunner [] List.length) wideScheduler 0 patient
  refine ⟨promised, owed, by decide +kernel, ?_⟩
  exact (starvation_guard (hfRunner [] List.length) wideScheduler (by decide) fun _ => []).1
    (patient, promised) 0 (next, promisedAfter patient promised next) reachable
    ⟨Calm.undisturbed fun now same => by cases same; exact calm, .schedule idle serving, rfl⟩

end LlmServing.Paged
