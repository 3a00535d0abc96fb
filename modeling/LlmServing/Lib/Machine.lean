import Mathlib.Logic.Relation

/-!
# Labelled transition systems

Reachability, the invariant rule, runs whose every step meets a condition, runs with a record kept
beside them, stuttering refinement of one machine by another, and what every run comes to.
-/

namespace LlmServing.Lib

structure Machine (σ ε : Type*) where
  initial : σ → Prop
  step : σ → ε → σ → Prop

namespace Machine

variable {σ ε τ δ : Type*}

inductive Reachable (machine : Machine σ ε) : σ → Prop where
  | initial {s} : machine.initial s → Reachable machine s
  | next {s e t} : Reachable machine s → machine.step s e t → Reachable machine t

/-- What holds initially and is kept by every step from a reachable state holds throughout. -/
theorem Reachable.invariant {machine : Machine σ ε} {P : σ → Prop}
    (base : ∀ s, machine.initial s → P s)
    (preserved : ∀ s e t, machine.Reachable s → P s → machine.step s e t → P t)
    {s : σ} (reachable : machine.Reachable s) : P s := by
  induction reachable with
  | initial start => exact base _ start
  | next previous step ih => exact preserved _ _ _ previous ih step

/-- The runs of `machine` in which every step meets `meets`. -/
def guarded (machine : Machine σ ε) (meets : σ → ε → Prop) : Machine σ ε where
  initial := machine.initial
  step s e t := meets s e ∧ machine.step s e t

theorem guarded_reachable {machine : Machine σ ε} {meets : σ → ε → Prop} {s : σ}
    (reachable : (machine.guarded meets).Reachable s) : machine.Reachable s := by
  induction reachable with
  | initial start => exact .initial start
  | next _ step ih => exact .next ih step.2

theorem Reachable.guarded {machine : Machine σ ε} {meets : σ → ε → Prop} (met : ∀ s e, meets s e)
    {s : σ} (reachable : machine.Reachable s) : (machine.guarded meets).Reachable s := by
  induction reachable with
  | initial start => exact .initial start
  | next _ step ih => exact .next ih ⟨met _ _, step⟩

/-- `machine` with a record of its run so far, which no step reads. -/
def recording {η : Type*} (machine : Machine σ ε) (start : η) (record : σ → η → σ → η) :
    Machine (σ × η) ε where
  initial s := machine.initial s.1 ∧ s.2 = start
  step s e t := machine.step s.1 e t.1 ∧ t.2 = record s.1 s.2 t.1

theorem recording_reachable {η : Type*} {machine : Machine σ ε} {start : η}
    {record : σ → η → σ → η} {s : σ × η}
    (reachable : (machine.recording start record).Reachable s) : machine.Reachable s.1 := by
  induction reachable with
  | initial started => exact .initial started.1
  | next _ step ih => exact .next ih step.1

theorem recording_next {η : Type*} {machine : Machine σ ε} {start : η} {record : σ → η → σ → η}
    {s t : σ} {kept : η} {e : ε} (reachable : (machine.recording start record).Reachable (s, kept))
    (step : machine.step s e t) :
    (machine.recording start record).Reachable (t, record s kept t) :=
  .next reachable ⟨step, rfl⟩

theorem Reachable.recording {η : Type*} {machine : Machine σ ε} (start : η)
    (record : σ → η → σ → η) {s : σ} (reachable : machine.Reachable s) :
    ∃ kept, (machine.recording start record).Reachable (s, kept) := by
  induction reachable with
  | initial started => exact ⟨start, .initial ⟨started, rfl⟩⟩
  | next _ step ih =>
      obtain ⟨kept, before⟩ := ih
      exact ⟨_, recording_next before step⟩

theorem guarded_recording_next {η : Type*} {machine : Machine σ ε} {start : η}
    {record : σ → η → σ → η} {meets : σ × η → ε → Prop} {s t : σ} {kept : η} {e : ε}
    (reachable : ((machine.recording start record).guarded meets).Reachable (s, kept))
    (met : meets (s, kept) e) (step : machine.step s e t) :
    ((machine.recording start record).guarded meets).Reachable (t, record s kept t) :=
  .next reachable ⟨met, step, rfl⟩

theorem Reachable.guarded_recording {η : Type*} {machine : Machine σ ε} {meets : σ → ε → Prop}
    {recorded : σ × η → ε → Prop} (start : η) (record : σ → η → σ → η)
    (implies : ∀ s kept e, meets s e → recorded (s, kept) e) {s : σ}
    (reachable : (machine.guarded meets).Reachable s) :
    ∃ kept, ((machine.recording start record).guarded recorded).Reachable (s, kept) := by
  induction reachable with
  | initial started => exact ⟨start, .initial ⟨started, rfl⟩⟩
  | next _ step ih =>
      obtain ⟨kept, before⟩ := ih
      exact ⟨_, guarded_recording_next before (implies _ kept _ step.1) step.2⟩

/-- `machine` beside a clock that starts at `origin` and never goes back, `within` saying which readings
an event may have taken while the clock went from one time to the other. -/
def timed {κ : Type*} [LE κ] (machine : Machine σ ε) (within : ε → κ → κ → Prop) (origin : κ) :
    Machine (σ × κ) ε where
  initial s := machine.initial s.1 ∧ s.2 = origin
  step s e t := s.2 ≤ t.2 ∧ within e s.2 t.2 ∧ machine.step s.1 e t.1

variable {κ : Type*} [LE κ] {machine : Machine σ ε} {within : ε → κ → κ → Prop} {origin : κ}

theorem timed_reachable {s : σ × κ} (reachable : (machine.timed within origin).Reachable s) :
    machine.Reachable s.1 := by
  induction reachable with
  | initial started => exact .initial started.1
  | next _ step ih => exact .next ih step.2.2

theorem timed_next {s t : σ} {clock : κ} (reachable : (machine.timed within origin).Reachable (s, clock))
    (e : ε) (stop : κ) (le : clock ≤ stop) (inside : within e clock stop) (step : machine.step s e t) :
    (machine.timed within origin).Reachable (t, stop) :=
  .next reachable ⟨le, inside, step⟩

def Steps (machine : Machine σ ε) : σ → σ → Prop :=
  Relation.ReflTransGen fun s t => ∃ e, machine.step s e t

theorem Reachable.steps {machine : Machine σ ε} {s t : σ} (reachable : machine.Reachable s)
    (steps : machine.Steps s t) : machine.Reachable t := by
  induction steps with
  | refl => exact reachable
  | tail _ step ih =>
      obtain ⟨e, step⟩ := step
      exact .next ih step

theorem Steps.preserved {machine : Machine σ ε} {P : σ → Prop}
    (kept : ∀ s e t, machine.Reachable s → P s → machine.step s e t → P t)
    {s t : σ} (reachable : machine.Reachable s) (holds : P s) (steps : machine.Steps s t) :
    P t := by
  induction steps with
  | refl => exact holds
  | tail before step ih =>
      obtain ⟨e, step⟩ := step
      exact kept _ e _ (reachable.steps before) ih step

/-- `concrete` refines `abstract` through `view`: each concrete step from a state that satisfies
`inv` keeps `inv`, and is an abstract step or leaves the view unchanged. -/
structure Refines (concrete : Machine σ ε) (abstract : Machine τ δ) (view : σ → τ)
    (inv : σ → Prop) : Prop where
  initial : ∀ s, concrete.initial s → abstract.initial (view s) ∧ inv s
  step : ∀ s e t, concrete.Reachable s → abstract.Reachable (view s) → inv s →
    concrete.step s e t → (view t = view s ∨ ∃ d, abstract.step (view s) d (view t)) ∧ inv t

theorem Refines.reachable {concrete : Machine σ ε} {abstract : Machine τ δ} {view : σ → τ}
    {inv : σ → Prop} (refines : Refines concrete abstract view inv) {s : σ}
    (reachable : concrete.Reachable s) : abstract.Reachable (view s) ∧ inv s := by
  induction reachable with
  | initial start =>
      obtain ⟨started, holds⟩ := refines.initial _ start
      exact ⟨.initial started, holds⟩
  | next previous step ih =>
      obtain ⟨reached, holds⟩ := ih
      obtain ⟨same | ⟨d, move⟩, kept⟩ := refines.step _ _ _ previous reached holds step
      · exact ⟨same ▸ reached, kept⟩
      · exact ⟨.next reached move, kept⟩

end Machine

/-! ## What every run comes to -/

/-- Every run of `step` reaches `goal`, and none is stuck before. -/
inductive Inevitable {σ : Type*} (step : σ → σ → Prop) (goal : σ → Prop) : σ → Prop where
  | reached {s} : goal s → Inevitable step goal s
  | next {s} : (∃ t, step s t) → (∀ t, step s t → Inevitable step goal t) →
      Inevitable step goal s

structure Ranking {σ : Type*} (step : σ → σ → Prop) (goal inv : σ → Prop) (rank : σ → Nat) :
    Prop where
  kept {s t : σ} : inv s → step s t → inv t
  moves {s : σ} : inv s → ¬goal s → ∃ t, step s t
  falls {s t : σ} : inv s → ¬goal s → step s t → rank t < rank s

theorem Ranking.inevitable {σ : Type*} {step : σ → σ → Prop} {goal inv : σ → Prop} {rank : σ → Nat}
    (ranking : Ranking step goal inv rank) (s : σ) (holds : inv s) : Inevitable step goal s := by
  induction left : rank s using Nat.strongRecOn generalizing s with
  | ind n ih =>
      by_cases done : goal s
      · exact .reached done
      · refine .next (ranking.moves holds done) fun t moved => ?_
        exact ih (rank t) (left ▸ ranking.falls holds done moved) t (ranking.kept holds moved) rfl

theorem Inevitable.of_wellFounded {σ β : Type*} {step : σ → σ → Prop} {goal I : σ → Prop}
    {less : β → β → Prop} (wellFounded : WellFounded less) (rank : σ → β)
    (kept : ∀ s t, I s → step s t → I t) (moves : ∀ s, I s → ¬goal s → ∃ t, step s t)
    (falls : ∀ s t, I s → ¬goal s → step s t → less (rank t) (rank s)) (s : σ) (holds : I s) :
    Inevitable step goal s := by
  induction left : rank s using wellFounded.induction generalizing s with
  | _ n ih =>
      by_cases done : goal s
      · exact .reached done
      · refine .next (moves s holds done) fun t moved => ?_
        exact ih (rank t) (left ▸ falls s t holds done moved) t (kept s t holds moved) rfl

end LlmServing.Lib
