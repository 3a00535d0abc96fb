import LlmServing.Engine.Remaining

/-!
# Runs without arrivals and failures

The turns of the scheduler thread and the worker while no request comes in and no forward pass fails,
on any allocator.
-/

namespace LlmServing.Engine

open Scheduling Runner Lib

variable {α ρ : Type} [KVAllocator α]

inductive Turn (runner : ModelRunner ρ) (scheduler : Scheduler) :
    EngineState α ρ → EngineState α ρ → Prop where
  | schedule {s : EngineState α ρ} (now : Time) :
      s.inFlight = none → Turn runner scheduler s (Engine.schedule runner scheduler now s)
  | forward {s : EngineState α ρ} {flight : InFlight} (tokens : List Token) (after : ρ) :
      s.inFlight = some flight → flight.outcome = none →
      tokens.length = (owed flight.plan flight.seqs).length →
      Turn runner scheduler s { s with
        runner := after
        inFlight := some { flight with outcome := some (.results
          (emitTokens runner.eosTokenIds (owed flight.plan flight.seqs) tokens)) } }
  | results {s : EngineState α ρ} {flight : InFlight} {results : IterationResults} (now : Time) :
      s.inFlight = some flight → flight.outcome = some (.results results) →
      Turn runner scheduler s (applyOutcome runner now flight (.results results) s)

structure Quiet (runner : ModelRunner ρ) (start s : EngineState α ρ) : Prop where
  ok : Consistent runner s
  serving : s.phase = .serving
  computed : ∀ flight outcome, s.inFlight = some flight → flight.outcome = some outcome →
    ∃ results, outcome = .results results
  unspent : Unspent s
  ids : s.ids.Perm start.ids

variable {runner : ModelRunner ρ} {scheduler : Scheduler} {start s t : EngineState α ρ}

theorem Quiet.turn (quiet : Quiet runner start s) (turn : Turn runner scheduler s t) :
    Quiet runner start t := by
  obtain ⟨ok, serving, computed, unspent, ids⟩ := quiet
  have tokens : LoopRule (α := α) runner scheduler (fun _ => True) Unspent := unspentRule
  cases turn with
  | schedule now idle =>
      refine ⟨ok.schedule now idle serving, (schedule_phase runner scheduler now s).trans serving,
        fun flight outcome inFlight done => ?_, tokens.schedule ok trivial unspent idle serving,
        (ids_schedule scheduler now ok).trans ids⟩
      obtain ⟨-, rfl⟩ := schedule_inFlight runner scheduler now idle inFlight
      cases done
  | @forward flight sampled after inFlight pending each =>
      refine ⟨ok.computed _ after inFlight fun results same => ⟨sampled, each, ?_⟩, serving, ?_,
        unspent, ids⟩
      · exact (Outcome.results.inj same).symm
      · rintro _ _ ⟨rfl⟩ ⟨rfl⟩
        exact ⟨_, rfl⟩
  | @results flight results now inFlight outcome =>
      obtain ⟨folded, done, spec, applied⟩ := applyOutcome_results now ok inFlight outcome
      rw [applied]
      exact ⟨ok.results now inFlight outcome spec, serving, (fun _ _ none => by cases none),
        tokens.results ok trivial unspent inFlight outcome done spec, (ids_results spec).trans ids⟩

theorem Quiet.moves (quiet : Quiet runner start s) : ∃ t, Turn runner scheduler s t := by
  cases inFlight : s.inFlight with
  | none => exact ⟨_, .schedule 0 inFlight⟩
  | some flight =>
      cases outcome : flight.outcome with
      | none =>
          exact ⟨_, .forward (List.replicate (owed flight.plan flight.seqs).length 0) s.runner
            inFlight outcome List.length_replicate⟩
      | some done =>
          obtain ⟨results, rfl⟩ := quiet.computed flight done inFlight outcome
          exact ⟨_, .results 0 inFlight outcome⟩

omit [KVAllocator α] in
theorem Quiet.gone (quiet : Quiet runner start s) (running : s.running = []) (waiting : s.waiting = [])
    {seq : Sequence} (live : seq ∈ start.running ++ start.waiting) :
    ∃ gone ∈ s.ended, gone.seqId = seq.seqId := by
  have id : seq.seqId ∈ s.ids := by
    rw [quiet.ids.mem_iff, EngineState.ids, List.map_append]
    exact List.mem_append_left _ (List.mem_map_of_mem live)
  simp only [EngineState.ids, running, waiting, List.nil_append] at id
  exact List.mem_map.mp id

end LlmServing.Engine
