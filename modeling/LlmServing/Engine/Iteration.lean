import LlmServing.Engine.Consistent
import LlmServing.Runner.Hf

/-!
# One iteration at a time

A scheduler step and the results of its forward pass, as one function of the tokens the pass sampled.
Runs without arrivals and failures are iterations of it.
-/

namespace LlmServing.Engine

open Scheduling Runner Lib

variable {α ρ : Type} [KVAllocator α]

section

variable (runner : ModelRunner ρ) (scheduler : Scheduler)

def sampled (flight : InFlight) (tokens : List Token) : IterationResults :=
  emitTokens runner.eosTokenIds (owed flight.plan flight.seqs) tokens

/-- A scheduler step and, unless its plan is empty, the results of a forward pass that sampled
`tokens` and left the model runner in `after`. -/
def iteration (now : Time) (tokens : List Token) (after : ρ) (s : EngineState α ρ) :
    EngineState α ρ :=
  let planned := schedule runner scheduler now s
  match planned.inFlight with
  | none => planned
  | some flight =>
      let results := Outcome.results (sampled runner flight tokens)
      let flight := { flight with outcome := some results }
      applyOutcome runner now flight results
        { planned with runner := after, inFlight := some flight }

def arrived (reqs : List IngressRequest) (s : EngineState α ρ) : EngineState α ρ :=
  { s with waiting := s.waiting ++ reqs.map sequenceFromIngress }

def Samples (tokens : List Token) (s : EngineState α ρ) : Prop :=
  ∀ flight, s.inFlight = some flight → tokens.length = (owed flight.plan flight.seqs).length

end

variable {runner : ModelRunner ρ} {scheduler : Scheduler} {now : Time} {tokens : List Token}
  {after : ρ} {s : EngineState α ρ}

theorem iteration_cases (after : ρ) (ok : Consistent runner s) (idle : s.inFlight = none)
    (serving : s.phase = .serving) (samples : Samples tokens (schedule runner scheduler now s)) :
    ((schedule runner scheduler now s).inFlight = none ∧
      iteration runner scheduler now tokens after s = schedule runner scheduler now s) ∨
    ∃ flight folded,
      (schedule runner scheduler now s).inFlight = some flight ∧
      Consistent runner { schedule runner scheduler now s with
        runner := after
        inFlight := some { flight with outcome := some (.results (sampled runner flight tokens)) } } ∧
      (sampled runner flight tokens).foldlM (foldResult now)
        ⟨(planned scheduler now s).running, (schedule runner scheduler now s).allocator, []⟩ =
          some folded ∧
      Folded now (sampled runner flight tokens)
        ⟨(planned scheduler now s).running, (schedule runner scheduler now s).allocator, []⟩ folded ∧
      iteration runner scheduler now tokens after s =
        resultsApplied runner (sampled runner flight tokens) folded
          { schedule runner scheduler now s with runner := after } := by
  have next : Consistent runner (schedule runner scheduler now s) := ok.schedule now idle serving
  have running := schedule_running runner scheduler now ok.live_distinct
  cases inFlight : (schedule runner scheduler now s).inFlight with
  | none => exact .inl ⟨rfl, by simp only [iteration, inFlight]⟩
  | some flight =>
      have computed := next.computed (.results (sampled runner flight tokens)) after inFlight
        fun results same => ⟨tokens, samples flight inFlight, by
          rw [← Outcome.results.inj same]
          rfl⟩
      obtain ⟨folded, done, spec, applied⟩ := applyOutcome_results now computed rfl rfl
      simp only [running] at done spec
      refine .inr ⟨flight, folded, rfl, computed, done, spec, ?_⟩
      simp only [iteration, inFlight]
      exact applied

/-- An invariant of the loop that reads neither the runner nor the plan in flight. -/
theorem LoopRule.iteration {I : EngineState α ρ → Prop}
    (rule : LoopRule runner scheduler (fun _ => True) I)
    (blind : ∀ (s : EngineState α ρ) after flight, I s →
      I { s with runner := after, inFlight := some flight })
    (ok : Consistent runner s) (idle : s.inFlight = none) (serving : s.phase = .serving)
    (samples : Samples tokens (Engine.schedule runner scheduler now s)) (holds : I s) :
    I (iteration runner scheduler now tokens after s) := by
  have scheduled : I (Engine.schedule runner scheduler now s) :=
    rule.schedule ok trivial holds idle serving
  have running := schedule_running runner scheduler now ok.live_distinct
  rcases iteration_cases after ok idle serving samples with
    ⟨-, same⟩ | ⟨flight, folded, -, computed, done, spec, same⟩
  · rw [same]
    exact scheduled
  · rw [same]
    rw [← running] at done spec
    have applied := rule.results computed trivial (blind _ after _ scheduled) rfl rfl done spec
    exact applied

theorem iteration_steps (idle : s.inFlight = none)
    (computed : ∀ flight, (schedule runner scheduler now s).inFlight = some flight →
      runner.forward flight.plan flight.seqs (schedule runner scheduler now s).runner
        (.results (sampled runner flight tokens)) after) :
    iteration runner scheduler now tokens after s = schedule runner scheduler now s ∨
      ∃ outcome middle,
        Step runner scheduler (schedule runner scheduler now s) (.forward outcome) middle ∧
          Step runner scheduler middle (.apply now) (iteration runner scheduler now tokens after s) := by
  cases inFlight : (schedule runner scheduler now s).inFlight with
  | none => exact .inl (by simp only [iteration, inFlight])
  | some flight =>
      have pending : flight.outcome = none := by
        rw [(schedule_inFlight runner scheduler now idle inFlight).2]
      simp only [iteration, inFlight]
      exact .inr ⟨_, _, .forward inFlight pending (computed flight inFlight), .apply rfl rfl⟩

def AtSchedules {σ : Type} (meets : σ → Event → Prop) : Prop :=
  ∀ s event, (∀ now, event ≠ .schedule now) → meets s event

section

variable {meets : EngineState α ρ → Event → Prop} {allocator : α} {start : ρ}

theorem iteration_guarded (others : AtSchedules meets)
    (reachable : ((loop runner scheduler allocator start).guarded meets).Reachable s)
    (met : meets s (.schedule now)) (idle : s.inFlight = none) (serving : s.phase = .serving)
    (computed : ∀ flight, (schedule runner scheduler now s).inFlight = some flight →
      tokens.length = (owed flight.plan flight.seqs).length ∧
      runner.forward flight.plan flight.seqs (schedule runner scheduler now s).runner
        (.results (sampled runner flight tokens)) after) :
    ((loop runner scheduler allocator start).guarded meets).Reachable
        (iteration runner scheduler now tokens after s) ∧
      (iteration runner scheduler now tokens after s).inFlight = none ∧
      (iteration runner scheduler now tokens after s).phase = .serving := by
  have ok := consistent (Machine.guarded_reachable reachable)
  have scheduled : ((loop runner scheduler allocator start).guarded meets).Reachable
      (schedule runner scheduler now s) := reachable.next ⟨met, .schedule idle serving⟩
  have phase := (schedule_phase runner scheduler now s).trans serving
  refine ⟨?_, ?_⟩
  · rcases iteration_steps idle fun flight inFlight => (computed flight inFlight).2 with
      same | ⟨outcome, middle, forward, apply⟩
    · rw [same]
      exact scheduled
    · exact (scheduled.next ⟨others _ _ (by simp), forward⟩).next ⟨others _ _ (by simp), apply⟩
  · rcases iteration_cases after ok idle serving fun flight inFlight => (computed flight inFlight).1
      with ⟨nothing, same⟩ | ⟨flight, folded, -, -, -, -, same⟩
    · rw [same]
      exact ⟨nothing, phase⟩
    · rw [same]
      exact ⟨rfl, phase⟩

theorem arrived_guarded (others : AtSchedules meets) (reqs : List IngressRequest)
    (reachable : ((loop runner scheduler allocator start).guarded meets).Reachable s)
    (idle : s.inFlight = none) (live : s.phase ≠ .failed) (fresh : ∀ req ∈ reqs, req.seqId ∉ s.ids)
    (distinct : (reqs.map (·.seqId)).Nodup) :
    ((loop runner scheduler allocator start).guarded meets).Reachable (arrived reqs s) := by
  induction reqs generalizing s with
  | nil => simpa [arrived] using reachable
  | cons req rest ih =>
      rw [List.map_cons, List.nodup_cons] at distinct
      have first : ((loop runner scheduler allocator start).guarded meets).Reachable
          { s with waiting := s.waiting ++ [sequenceFromIngress req] } :=
        reachable.next ⟨others _ _ (by simp), .arrive idle live (fresh req (by simp))⟩
      have later := ih first idle live (fun other member named => by
        have same := ((ids_arrive req).mem_iff.mp named)
        rcases List.mem_cons.mp same with same | old
        · exact distinct.1 (same ▸ List.mem_map_of_mem member)
        · exact fresh other (by simp [member]) old) distinct.2
      simpa [arrived] using later

theorem iteration_reachable
    (reachable : (loop runner scheduler allocator start).Reachable s) (idle : s.inFlight = none)
    (serving : s.phase = .serving)
    (computed : ∀ flight, (schedule runner scheduler now s).inFlight = some flight →
      tokens.length = (owed flight.plan flight.seqs).length ∧
      runner.forward flight.plan flight.seqs (schedule runner scheduler now s).runner
        (.results (sampled runner flight tokens)) after) :
    (loop runner scheduler allocator start).Reachable
        (iteration runner scheduler now tokens after s) ∧
      (iteration runner scheduler now tokens after s).inFlight = none ∧
      (iteration runner scheduler now tokens after s).phase = .serving := by
  have always : AtSchedules fun (_ : EngineState α ρ) _ => True := fun _ _ _ => trivial
  have done := iteration_guarded always (reachable.guarded fun _ _ => trivial) trivial idle serving
    computed
  exact ⟨Machine.guarded_reachable done.1, done.2⟩

theorem arrived_reachable (reqs : List IngressRequest)
    (reachable : (loop runner scheduler allocator start).Reachable s) (idle : s.inFlight = none)
    (live : s.phase ≠ .failed) (fresh : ∀ req ∈ reqs, req.seqId ∉ s.ids)
    (distinct : (reqs.map (·.seqId)).Nodup) :
    (loop runner scheduler allocator start).Reachable (arrived reqs s) := by
  have always : AtSchedules fun (_ : EngineState α ρ) _ => True := fun _ _ _ => trivial
  have all := arrived_guarded always reqs (reachable.guarded fun _ _ => trivial) idle live fresh distinct
  exact Machine.guarded_reachable all

end

theorem exists_first_token (now : Time) {allocator : α} {start : ρ} {flight : InFlight} {seq : Sequence}
    (reachable : (loop runner scheduler allocator start).Reachable s)
    (inFlight : s.inFlight = some flight) (pending : flight.outcome = none) (only : s.running = [seq])
    (owes : owed flight.plan flight.seqs = [seq]) (none : seq.generatedTokens = [])
    (more : 1 < seq.samplingParams.maxTokens) (eos : runner.eosTokenIds = [])
    (computed : ∃ results after,
      runner.forward flight.plan flight.seqs s.runner (.results results) after) :
    ∃ t token, (loop runner scheduler allocator start).Reachable t ∧
      t.running = [recordToken now token false seq] ∧ t.inFlight = Option.none ∧ t.phase = s.phase := by
  obtain ⟨results, after, computed⟩ := computed
  obtain ⟨tokens, length, rfl⟩ := runner.emits computed
  rw [owes] at length
  obtain ⟨token, rfl⟩ := List.length_eq_one_iff.mp length
  have forwarded := reachable.next (.forward inFlight pending computed)
  obtain ⟨folded, -, spec, applied⟩ := applyOutcome_results now (consistent forwarded) rfl rfl
  have applies := forwarded.next (.apply rfl rfl : Step _ _ _ (.apply now) _)
  rw [applied] at applies
  refine ⟨_, token, applies, ?_, rfl, rfl⟩
  have running : folded.running = [recordToken now token false seq] := by
    rw [spec.running, owes]
    dsimp only
    rw [only]
    simp [afterResults, emitTokens, emitToken, none, eos, Nat.not_le_of_lt more]
  exact running

def forwardPlanned (next : List Token → Token) (s : EngineState α Caches) : Caches × List Token :=
  match s.inFlight with
  | none => (s.runner, [])
  | some flight => forwardHf next flight.plan flight.seqs s.runner

omit [KVAllocator α] in
theorem forwardPlanned_computed (eosTokenIds : List Token) (next : List Token → Token)
    {s : EngineState α Caches} {flight : InFlight} (inFlight : s.inFlight = some flight) :
    (forwardPlanned next s).2.length = (owed flight.plan flight.seqs).length ∧
      (hfRunner eosTokenIds next).forward flight.plan flight.seqs s.runner
        (.results (sampled (hfRunner eosTokenIds next) flight (forwardPlanned next s).2))
        (forwardPlanned next s).1 := by
  simp only [forwardPlanned, inFlight]
  exact ⟨length_forwardHf _ _ _ _, rfl, rfl⟩

def iterationHf (eosTokenIds : List Token) (next : List Token → Token) (scheduler : Scheduler)
    (now : Time) (s : EngineState α Caches) : EngineState α Caches :=
  let computed := forwardPlanned next (schedule (hfRunner eosTokenIds next) scheduler now s)
  iteration (hfRunner eosTokenIds next) scheduler now computed.2 computed.1 s

theorem iterationHf_guarded {now : Time} {eosTokenIds : List Token} {next : List Token → Token}
    {allocator : α} {start : Caches} {s : EngineState α Caches}
    {meets : EngineState α Caches → Event → Prop} (others : AtSchedules meets)
    (reachable : ((loop (hfRunner eosTokenIds next) scheduler allocator start).guarded meets).Reachable s)
    (met : meets s (.schedule now)) (idle : s.inFlight = none) (serving : s.phase = .serving) :
    ((loop (hfRunner eosTokenIds next) scheduler allocator start).guarded meets).Reachable
        (iterationHf eosTokenIds next scheduler now s) ∧
      (iterationHf eosTokenIds next scheduler now s).inFlight = none ∧
      (iterationHf eosTokenIds next scheduler now s).phase = .serving :=
  iteration_guarded others reachable met idle serving fun _ inFlight =>
    forwardPlanned_computed eosTokenIds next inFlight

theorem iterationHf_reachable (now : Time) {eosTokenIds : List Token} {next : List Token → Token}
    {allocator : α} {start : Caches} {s : EngineState α Caches}
    (reachable : (loop (hfRunner eosTokenIds next) scheduler allocator start).Reachable s)
    (idle : s.inFlight = none) (serving : s.phase = .serving) :
    (loop (hfRunner eosTokenIds next) scheduler allocator start).Reachable
        (iterationHf eosTokenIds next scheduler now s) ∧
      (iterationHf eosTokenIds next scheduler now s).inFlight = none ∧
      (iterationHf eosTokenIds next scheduler now s).phase = .serving :=
  iteration_reachable reachable idle serving fun _ inFlight =>
    forwardPlanned_computed eosTokenIds next inFlight

section

variable (runner : ModelRunner ρ) (compute : EngineState α ρ → ρ × List Token)

def Computes (machine : Machine (EngineState α ρ) Event) : Prop :=
  ∀ s flight, machine.Reachable s → s.inFlight = some flight → flight.outcome = none →
    (compute s).2.length = (owed flight.plan flight.seqs).length ∧
    runner.forward flight.plan flight.seqs s.runner
      (.results (sampled runner flight (compute s).2)) (compute s).1

def Possible (flight : InFlight) (before : ρ) (chosen : ρ × (Nat → Token)) : Prop :=
  runner.forward flight.plan flight.seqs before (.results (sampled runner flight
    ((List.range (owed flight.plan flight.seqs).length).map chosen.2))) chosen.1

/-- Where a batch may have many results, some of them. -/
noncomputable def someForward (s : EngineState α ρ) : ρ × List Token :=
  match s.inFlight with
  | none => (s.runner, [])
  | some flight =>
      let chosen := @Classical.epsilon _ ⟨(s.runner, fun _ => 0)⟩ (Possible runner flight s.runner)
      (chosen.1, (List.range (owed flight.plan flight.seqs).length).map chosen.2)

omit [KVAllocator α] in
theorem someForward_computes {machine : Machine (EngineState α ρ) Event}
    (exist : ∀ s flight, machine.Reachable s → s.inFlight = some flight → flight.outcome = none →
      ∃ results after, runner.forward flight.plan flight.seqs s.runner (.results results) after) :
    Computes runner (someForward runner) machine := by
  intro s flight reachable inFlight pending
  obtain ⟨results, after, computed⟩ := exist s flight reachable inFlight pending
  obtain ⟨tokens, length, rfl⟩ := runner.emits computed
  have listed : (List.range (owed flight.plan flight.seqs).length).map (tokens.getD · 0) = tokens := by
    rw [← length]
    exact List.ext_getElem (by simp) fun i _ inside => by simp [inside]
  have possible : Possible runner flight s.runner (after, (tokens.getD · 0)) := by
    rw [Possible, listed]
    exact computed
  unfold someForward
  rw [inFlight]
  exact ⟨by rw [List.length_map, List.length_range],
    Classical.epsilon_spec_aux ⟨(s.runner, fun _ => 0)⟩ (Possible runner flight s.runner) ⟨_, possible⟩⟩

def sharedScheduler : Scheduler := ⟨.continuousBatched, 4, 2⟩

def sharedRun (allocator : α) (start : ρ) : Nat → EngineState α ρ
  | 0 => arrived [sampleRequest 0 5 [6, 7] 3, sampleRequest 1 8 [9] 3] { allocator, runner := start }
  | n + 1 =>
      let before := sharedRun allocator start n
      let computed := compute (schedule runner sharedScheduler (n + 1) before)
      iteration runner sharedScheduler (n + 1) computed.2 computed.1 before

variable {runner compute} {allocator : α} {start : ρ}

theorem sharedRun_reachable (computes : Computes runner compute (loop runner sharedScheduler allocator start))
    (n : Nat) :
    (loop runner sharedScheduler allocator start).Reachable (sharedRun runner compute allocator start n) ∧
      (sharedRun runner compute allocator start n).inFlight = none ∧
      (sharedRun runner compute allocator start n).phase = .serving := by
  induction n with
  | zero =>
      refine ⟨arrived_reachable _ (.initial rfl) rfl nofun (fun _ _ => ?_) (by decide), rfl, rfl⟩
      exact List.not_mem_nil
  | succ n ih =>
      obtain ⟨reachable, idle, serving⟩ := ih
      have scheduled := reachable.next
        (.schedule idle serving : Step runner sharedScheduler _ (.schedule (n + 1)) _)
      refine iteration_reachable reachable idle serving fun flight inFlight => ?_
      exact computes _ flight scheduled inFlight (by rw [(schedule_inFlight _ _ _ idle inFlight).2])

end

abbrev hfRun : Nat → EngineState BlockAllocator Caches :=
  sharedRun (hfRunner [] List.length) (forwardPlanned List.length) (samplePool 4 1) fun _ => []

theorem hfRun_reachable (n : Nat) :
    (loop (hfRunner [] List.length) sharedScheduler (samplePool 4 1) fun _ => []).Reachable (hfRun n) ∧
      (hfRun n).inFlight = none ∧ (hfRun n).phase = .serving :=
  sharedRun_reachable (fun _ _ _ inFlight _ => forwardPlanned_computed [] List.length inFlight) n

end LlmServing.Engine
