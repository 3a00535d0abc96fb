import LlmServing.Engine.Consistent
import LlmServing.Threads.HandOff

/-!
# The threads refine the loop

Seen with what its present statement leaves to do already done, the scheduler thread's data takes the
steps of the loop of `Engine/Loop.lean`, whatever the other threads do in between.
-/

namespace LlmServing.Threads

open Scheduling Runner Engine Lib

variable {α ρ : Type}

def SchedulerAt.inFlight : SchedulerAt → Option Handed
  | .loopTop inFlight | .stopped inFlight => inFlight
  | .resultsGet inFlight | .apply inFlight _ => some inFlight
  | _ => none

def SchedulerAt.phase : SchedulerAt → Phase
  | .failClose | .drainIngress true | .abortAll | .ends _ .abortAll => .failing
  | .failed => .failed
  | _ => .serving

def located (resultsQueue : List (Handed × Outcome)) (worker : WorkerAt) : Option Outcome :=
  match resultsQueue, worker with
  | taken :: _, _ => some taken.2
  | [], .resultsPut _ outcome => some outcome
  | [], _ => none

def InferenceEngine.outcome (s : InferenceEngine α ρ) : Option Outcome :=
  match s.scheduler with
  | .apply _ taken => some taken.2
  | _ => located s.resultsQueue s.worker

variable [KVAllocator α]

def complete (runner : ModelRunner ρ) (core : EngineState α ρ) : SchedulerAt → EngineState α ρ
  | .ends seqs .apply => endSequences runner seqs core
  | .ends seqs (.abortRejected plan) => handOff plan (endSequences runner seqs core)
  | .ends seqs .abortAll =>
      { endSequences runner seqs core with waiting := [], phase := .failed }
  | .freePreempted plan =>
      handOff plan (abortAndEnd runner plan.rejected (freePreempted runner plan core))
  | .abortRejected plan => handOff plan (abortAndEnd runner plan.rejected core)
  | .handOff plan => handOff plan core
  | .clearWaiting => { core with waiting := [], phase := .failed }
  | _ => core

def view (runner : ModelRunner ρ) (s : InferenceEngine α ρ) : EngineState α ρ :=
  complete runner
    { s.core with
      inFlight := s.scheduler.inFlight.map fun item => ⟨item.plan, item.seqs, s.outcome⟩
      phase := s.scheduler.phase }
    s.scheduler

variable {runner : ModelRunner ρ} {scheduler : Scheduler} {s t : InferenceEngine α ρ}

theorem view_of {place : SchedulerAt} (here : s.scheduler = place)
    (idle : place.inFlight = none) :
    view runner s =
      complete runner { s.core with inFlight := none, phase := place.phase } place := by
  rw [view, here, idle]
  rfl

theorem view_waiting {place : SchedulerAt} {inFlight : Option Handed} (here : s.scheduler = place)
    (waiting : place = .loopTop inFlight ∨ place = .stopped inFlight ∨
      ∃ item, inFlight = some item ∧ place = .resultsGet item) :
    view runner s =
      { s.core with
        inFlight := inFlight.map fun item =>
          ⟨item.plan, item.seqs, located s.resultsQueue s.worker⟩
        phase := .serving } := by
  obtain rfl | rfl | ⟨item, rfl, rfl⟩ := waiting <;>
    simp only [view, InferenceEngine.outcome, here] <;> rfl

inductive Seen (runner : ModelRunner ρ) (scheduler : Scheduler) (s t : InferenceEngine α ρ) : Prop where
  | same :
      view runner t = view runner s → t.ingress.reduceOption = s.ingress.reduceOption →
      Seen runner scheduler s t
  | moves (event : Event) :
      Engine.Step runner scheduler (view runner s) event (view runner t) →
      (∀ req, event ≠ .arrive req) → t.ingress.reduceOption = s.ingress.reduceOption →
      Seen runner scheduler s t
  | arrives (req : IngressRequest) :
      s.ingress.reduceOption = req :: t.ingress.reduceOption → (view runner s).inFlight = none →
      (view runner s).phase ≠ .failed →
      view runner t = { view runner s with
        waiting := (view runner s).waiting ++ [sequenceFromIngress req] } →
      Seen runner scheduler s t

theorem complete_startApply (now : Time) (flight : InFlight) (outcome : Outcome)
    (core : EngineState α ρ) (inFlight : Option InFlight) :
    complete runner
        { (startApply now flight.plan flight.seqs outcome core).2 with
          inFlight := none
          phase := (startApply now flight.plan flight.seqs outcome core).1.phase }
        (startApply now flight.plan flight.seqs outcome core).1 =
      applyOutcome runner now flight outcome { core with inFlight, phase := .serving } := by
  cases outcome with
  | deviceLost => rfl
  | failed => rfl
  | results results =>
      simp only [startApply, applyOutcome]
      cases handleIterationResults now results core.running core.allocator core.callbacks <;> rfl

omit [KVAllocator α] in
theorem HandOffOk.located (ok : HandOffOk runner s) (apart : s.scheduler.awaited = []) :
    located s.resultsQueue s.worker = none := by
  have out := ok.awaited
  rw [apart] at out
  simp only [outstanding, List.append_eq_nil_iff, List.map_eq_nil_iff] at out
  rw [out.2]
  cases worker : s.worker with
  | resultsPut item outcome => simp [worker, WorkerAt.holding] at out
  | _ => rfl

theorem SchedulerStep.seen (ok : HandOffOk runner s) (step : SchedulerStep runner scheduler s t) :
    Seen runner scheduler s t := by
  cases step with
  | @stop inFlight here _ =>
      refine .same ?_ rfl
      rw [view_waiting here (.inl rfl), view_waiting rfl (.inr (.inl rfl))]
  | @await inFlight here _ =>
      refine .same ?_ rfl
      rw [view_waiting here (.inl rfl), view_waiting rfl (.inr (.inr ⟨inFlight, rfl, rfl⟩))]
  | go here _ =>
      refine .same ?_ rfl
      rw [view_of here rfl, view_of rfl rfl]
      rfl
  | @take inFlight taken rest here queue =>
      refine .same ?_ rfl
      rw [view_waiting here (.inr (.inr ⟨inFlight, rfl, rfl⟩)), queue]
      rfl
  | @apply inFlight taken now here =>
      have before : view runner s = { s.core with
          inFlight := some ⟨inFlight.plan, inFlight.seqs, some taken.2⟩
          phase := .serving } := by
        rw [view, InferenceEngine.outcome, here]
        rfl
      have idle : (startApply now inFlight.plan inFlight.seqs taken.2 s.core).1.inFlight = none := by
        rcases startApply_cases now inFlight.plan inFlight.seqs taken.2 s.core with lost | ⟨_, ends⟩
        · rw [lost]; rfl
        · rw [ends]; rfl
      have after : view runner { s with
          scheduler := (startApply now inFlight.plan inFlight.seqs taken.2 s.core).1
          core := (startApply now inFlight.plan inFlight.seqs taken.2 s.core).2 } = _ :=
        (view_of rfl idle).trans
          (complete_startApply now ⟨inFlight.plan, inFlight.seqs, some taken.2⟩ taken.2 s.core
            (some ⟨inFlight.plan, inFlight.seqs, some taken.2⟩))
      refine .moves (.apply now) ?_ (fun _ => Event.noConfusion) rfl
      rw [after, before]
      exact .apply rfl rfl
  | @«end» seq rest endsOf here =>
      refine .same ?_ rfl
      rw [view_of here rfl, view_of rfl rfl]
      cases endsOf <;> rfl
  | @ended endsOf here =>
      refine .same ?_ rfl
      rw [view_of here rfl]
      cases endsOf <;> rfl
  | @drain failing item rest here queue =>
      have after : view runner { s with core := admitIngress s.core item, ingress := rest } = _ :=
        view_of here rfl
      cases item with
      | none =>
          refine .same ?_ (by rw [queue, List.reduceOption_cons_of_none])
          rw [after, view_of here rfl]
          rfl
      | some req =>
          refine .arrives req (by rw [queue, List.reduceOption_cons_of_some]) ?_ ?_ ?_
          · rw [view_of here rfl]; rfl
          · rw [view_of here rfl]; cases failing <;> exact Phase.noConfusion
          · rw [after, view_of here rfl]; rfl
  | @drained failing here _ =>
      refine .same ?_ rfl
      rw [view_of here rfl]
      cases failing <;> rfl
  | @schedulerStep now here =>
      refine .moves (.schedule now) ?_ (fun _ => Event.noConfusion) rfl
      rw [view_of here rfl, view_of rfl rfl]
      exact .schedule rfl rfl
  | freePreempted here =>
      refine .same ?_ rfl
      rw [view_of here rfl, view_of rfl rfl]
      rfl
  | abortRejected here =>
      refine .same ?_ rfl
      rw [view_of here rfl, view_of rfl rfl]
      rfl
  | @put plan here some =>
      refine .same ?_ rfl
      rw [view_of here rfl, view_waiting rfl (.inl rfl)]
      have idle := ok.located (by rw [here]; rfl)
      simp only [complete, handOff, idle, List.isEmpty_iff, some, if_false]
      rfl
  | @block plan here empty =>
      refine .same ?_ rfl
      rw [view_of here rfl, view_of rfl rfl]
      simp only [complete, handOff, empty, List.isEmpty_nil, if_true]
      rfl
  | @wake item rest here queue =>
      cases item with
      | none =>
          refine .same ?_ (by rw [queue, List.reduceOption_cons_of_none])
          rw [view_of here rfl, view_of rfl rfl]
          rfl
      | some req =>
          refine .arrives req (by rw [queue, List.reduceOption_cons_of_some]) ?_ ?_ ?_
          · rw [view_of here rfl]; rfl
          · rw [view_of here rfl]; exact Phase.noConfusion
          · rw [view_of here rfl, view_of rfl rfl]; rfl
  | failClose here _ =>
      refine .same ?_ rfl
      rw [view_of here rfl, view_of rfl rfl]
      rfl
  | abortAll here =>
      refine .moves .abortAll ?_ (fun _ => Event.noConfusion) rfl
      have before : (view runner s).phase = .failing := by rw [view_of here rfl]; rfl
      have after : view runner { s with
          scheduler := .ends (abortSequences (s.core.running ++ s.core.waiting) s.core).1 .abortAll
          core := (abortSequences (s.core.running ++ s.core.waiting) s.core).2 } =
            Engine.abortAll runner (view runner s) := by
        rw [view_of here rfl]
        rfl
      rw [after]
      exact .abortAll before
  | clearWaiting here =>
      refine .same ?_ rfl
      rw [view_of here rfl, view_of rfl rfl]
      rfl

theorem view_unchanged (core : t.core = s.core) (place : t.scheduler = s.scheduler)
    (same : located t.resultsQueue t.worker = located s.resultsQueue s.worker) :
    view runner t = view runner s := by
  simp only [view, InferenceEngine.outcome, core, place, same]

theorem view_awaited {item : Handed} (awaited : s.scheduler.awaited = [item]) :
    view runner s =
      { s.core with
        inFlight := some ⟨item.plan, item.seqs, located s.resultsQueue s.worker⟩
        phase := .serving } := by
  cases place : s.scheduler with
  | loopTop inFlight =>
      rw [place] at awaited
      rw [view_waiting place (.inl rfl), Option.toList_eq_singleton_iff.mp awaited]
      rfl
  | stopped inFlight =>
      rw [place] at awaited
      rw [view_waiting place (.inr (.inl rfl)), Option.toList_eq_singleton_iff.mp awaited]
      rfl
  | resultsGet inFlight =>
      rw [place] at awaited
      cases awaited
      rw [view_waiting place (.inr (.inr ⟨item, rfl, rfl⟩))]
      rfl
  | _ =>
      rw [place] at awaited
      cases awaited

theorem WorkerStep.seen (scheduler : Scheduler) (ok : HandOffOk runner s)
    (step : WorkerStep runner s t) : Seen runner scheduler s t := by
  cases step with
  | get here _ | exit here _ =>
      refine .same (view_unchanged rfl rfl ?_) rfl
      rw [here]
      cases s.resultsQueue <;> rfl
  | @forward item outcome after here computed =>
      obtain ⟨none, awaited⟩ := ok.holding item (by rw [here]; rfl)
      have before : view runner s = { s.core with
          inFlight := some ⟨item.plan, item.seqs, Option.none⟩
          phase := .serving } := by
        rw [view_awaited awaited, none, here]
        rfl
      have left : view runner { s with
          worker := .resultsPut item outcome, core := { s.core with runner := after } } = _ :=
        view_awaited awaited
      have pending : (⟨item.plan, item.seqs, Option.none⟩ : InFlight).outcome = Option.none := rfl
      refine .moves (.forward outcome) ?_ nofun rfl
      rw [left, before, none]
      exact .forward rfl pending computed
  | @put item outcome here =>
      obtain ⟨none, -⟩ := ok.holding item (by rw [here]; rfl)
      refine .same (view_unchanged rfl rfl ?_) rfl
      rw [none, here]
      rfl

end LlmServing.Threads
