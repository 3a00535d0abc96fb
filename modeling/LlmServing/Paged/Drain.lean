import LlmServing.Engine.Memory
import LlmServing.Engine.Turns
import LlmServing.Paged.Line

/-!
# The paged engine drains or blocks

However often its requests preempt each other, every run without arrivals and failures ends with all of
them settled, or with a prefill that is blocked for good.
-/

namespace LlmServing.Paged

open Scheduling Runner Engine Lib

variable {ρ : Type} {runner : ModelRunner ρ} {scheduler : Scheduler} {now : Time}
  {numBlocks blockSize : Nat} {s t start : EngineState BlockAllocator ρ}

/-! ## The results of an iteration -/

variable {flight : InFlight} {results : IterationResults}

theorem generationLeft_filterMap (after : Sequence → Option Sequence) (seqs : List Sequence) :
    generationLeft (seqs.filterMap after) =
      (seqs.map fun seq => ((after seq).map tokensToGo).getD 0).sum := by
  induction seqs with
  | nil => rfl
  | cons seq rest ih =>
      cases left : after seq with
      | none => simpa [left] using ih
      | some seq' => simpa [left] using ih

theorem tokensToGo_afterResults (results : IterationResults) (now : Time) {seq : Sequence} (left : TokensLeft seq) :
    ((afterResults now results seq).map tokensToGo).getD 0 ≤ tokensToGo seq ∧
      (seq.seqId ∈ results.map (·.1) →
        ((afterResults now results seq).map tokensToGo).getD 0 < tokensToGo seq) := by
  have positive := TokensLeft.tokensToGo_pos left
  cases after : afterResults now results seq with
  | none => exact ⟨Nat.zero_le _, fun _ => positive⟩
  | some seq' =>
      rcases afterResults_cases after with ⟨absent, rfl⟩ | ⟨token, named, rfl⟩
      · exact ⟨Nat.le_refl _, fun named => absurd named absent⟩
      · have less : tokensToGo (recordToken now token false seq) < tokensToGo seq := by
          unfold tokensToGo at positive ⊢
          simp only [recordToken, List.length_append, List.length_singleton]
          omega
        exact ⟨less.le, fun _ => less⟩

theorem generationLeft_results (ok : Consistent runner s) (unspent : Unspent s)
    (inFlight : s.inFlight = some flight) (outcome : flight.outcome = some (.results results))
    {folded : Folding BlockAllocator} (spec : Folded now results ⟨s.running, s.allocator, []⟩ folded)
    (some : results ≠ []) : generationLeft folded.running < generationLeft s.running := by
  have each (seq : Sequence) (member : seq ∈ s.running) :=
    tokensToGo_afterResults results now (unspent seq (List.mem_append_left _ member))
  obtain ⟨result, rest, named⟩ := List.exists_cons_of_ne_nil some
  have present := (ok.flight flight inFlight).results_present outcome result.1 (by simp [named])
  obtain ⟨seq, member, same⟩ := List.mem_map.mp present
  rw [spec.running, generationLeft_filterMap]
  exact List.sum_lt_sum _ _ (fun seq member => (each seq member).1)
    ⟨seq, member, (each seq member).2 (by simp [named, same])⟩

theorem running_nothing {folded : Folding BlockAllocator}
    (spec : Folded now [] ⟨s.running, s.allocator, []⟩ folded) : folded.running = s.running := by
  rw [spec.running]
  exact List.filterMap_some

theorem owed_of_decode (ok : Consistent runner s) (inFlight : s.inFlight = some flight)
    {entry : BatchEntry} (member : entry ∈ flight.plan.entries)
    (decode : entry.isPrefillChunk = false) : owed flight.plan flight.seqs ≠ [] := by
  have batchOk := ok.batchOk inFlight
  have planned : entry ∈ (batch flight.plan flight.seqs).map (·.1) := by
    rwa [map_fst_batch batchOk.present]
  obtain ⟨⟨_, seq⟩, inBatch, rfl⟩ := List.mem_map.mp planned
  refine List.ne_nil_of_mem (a := seq) (List.mem_map.mpr ⟨(_, seq), List.mem_filter.mpr ⟨inBatch, ?_⟩, rfl⟩)
  simp only at decode
  simp [owesToken, decode]


/-- DONE with its last token, or rejected because the pool could never hold it. -/
def Settled (numBlocks blockSize : Nat) (seq : Sequence) : Prop :=
  seq.metrics.doneTime ≠ none ∨
    numBlocks * blockSize < seq.promptTokens.length + seq.samplingParams.maxTokens

structure Drained (numBlocks blockSize : Nat) (start s : EngineState BlockAllocator ρ) : Prop where
  running : s.running = []
  waiting : s.waiting = []
  settled : ∀ seq ∈ start.running ++ start.waiting, ∃ gone ∈ s.ended, gone.seqId = seq.seqId ∧
    Settled numBlocks blockSize gone

structure Blocked (scheduler : Scheduler) (s : EngineState BlockAllocator ρ) : Prop where
  idle : s.inFlight = none
  prefill : PrefillBlocked scheduler s.allocator s.running

structure Draining (runner : ModelRunner ρ) (numBlocks blockSize : Nat)
    (start s : EngineState BlockAllocator ρ) : Prop extends Quiet runner start s where
  owns : Ownership numBlocks blockSize s
  settled : ∀ seq ∈ s.ended, seq ∈ start.ended ∨ Settled numBlocks blockSize seq

theorem settled_of_unfit (positive : 0 < blockSize) {seq : Sequence} (left : TokensLeft seq)
    (unfit : Unfit numBlocks blockSize seq.numTokens) : Settled numBlocks blockSize seq := by
  refine .inr (((unfit_iff positive).mp unfit).trans_lt ?_)
  exact Nat.add_lt_add_left left _

theorem Draining.turn (positive : 0 < blockSize)
    (draining : Draining runner numBlocks blockSize start s) (turn : Turn runner scheduler s t) :
    Draining runner numBlocks blockSize start t := by
  have quiet := draining.toQuiet.turn turn
  obtain ⟨⟨ok, serving, computed, unspent, ids⟩, owns, settled⟩ := draining
  have owning : LoopRule runner scheduler (fun _ => True) (Ownership numBlocks blockSize) :=
    ownershipRule
  cases turn with
  | schedule now idle =>
      refine ⟨quiet, owning.schedule ok trivial owns idle serving, fun seq member => ?_⟩
      rw [schedule_ended] at member
      rcases List.mem_append.mp member with member | member
      · exact settled seq member
      · obtain ⟨source, rejected, a, rfl⟩ := released_finished member
        obtain ⟨unfit, left⟩ := planned_rejected ok owns unspent rejected
        exact .inr (settled_of_unfit positive left unfit)
  | forward tokens after inFlight pending each =>
      exact ⟨quiet, ⟨owns.sized, owns.owned, owns.filled, owns.waiting, owns.ended,
        owns.prefilling⟩, settled⟩
  | @results flight results now inFlight outcome =>
      obtain ⟨folded, done, spec, applied⟩ := applyOutcome_results now ok inFlight outcome
      rw [applied] at quiet ⊢
      refine ⟨quiet, owning.results ok trivial owns inFlight outcome done spec, fun seq member => ?_⟩
      rcases List.mem_append.mp member with member | member
      · exact settled seq member
      · rcases spec.finished seq member with none | ⟨source, -, token, a, -, rfl⟩
        · cases none
        · exact .inr (.inl (Option.some_ne_none now))

theorem Draining.drained (draining : Draining runner numBlocks blockSize start s)
    (distinct : start.ids.Nodup) (running : s.running = []) (waiting : s.waiting = []) :
    Drained numBlocks blockSize start s := by
  refine ⟨running, waiting, fun seq live => ?_⟩
  obtain ⟨gone, ended, same⟩ := draining.gone running waiting live
  refine ⟨gone, ended, same, (draining.settled gone ended).resolve_left fun before => ?_⟩
  rw [EngineState.ids, List.map_append] at distinct
  exact List.disjoint_of_nodup_append distinct (List.mem_map_of_mem live)
    (same ▸ List.mem_map_of_mem before)

/-! ## The rank of a state -/

def stage (s : EngineState BlockAllocator ρ) : Nat :=
  match s.inFlight with
  | none => 2
  | some flight => if flight.outcome = none then 1 else 0

def lineLeft (s : EngineState BlockAllocator ρ) : Nat :=
  headLeft s.running s.waiting +
    match s.inFlight with
    | none => 0
    | some flight => if owed flight.plan flight.seqs = [] then 1 else 0

/-- The tokens that may still be sampled, then the first in line's prefill, then the turns of the
iteration. -/
def rank (s : EngineState BlockAllocator ρ) : Nat × Nat × Nat :=
  (generationLeft (s.running ++ s.waiting), lineLeft s, stage s)

abbrev Falls : Nat × Nat × Nat → Nat × Nat × Nat → Prop :=
  Prod.Lex (· < ·) (Prod.Lex (· < ·) (· < ·))

theorem falls_wellFounded : WellFounded Falls :=
  (Prod.lex Nat.lt_wfRel (Prod.lex Nat.lt_wfRel Nat.lt_wfRel)).wf

theorem falls_of_le {a a' b b' c c' : Nat} (first : a' ≤ a) (second : b' ≤ b) (third : c' < c) :
    Falls (a', b', c') (a, b, c) := by
  rcases first.lt_or_eq with less | rfl
  · exact .left _ _ less
  · rcases second.lt_or_eq with less | rfl
    · exact .right _ (.left _ _ less)
    · exact .right _ (.right _ third)

theorem stage_idle (idle : s.inFlight = none) : stage s = 2 := by
  unfold stage
  rw [idle]

theorem lineLeft_idle (idle : s.inFlight = none) : lineLeft s = headLeft s.running s.waiting := by
  unfold lineLeft
  rw [idle]
  rfl

theorem falls_schedule (quiet : Quiet runner start s) (owns : Ownership numBlocks blockSize s)
    (budget : 0 < scheduler.tokenBudget) (room : 0 < scheduler.maxRunning)
    (free : ¬PrefillBlocked scheduler s.allocator s.running) (some : s.running ++ s.waiting ≠ [])
    (now : Time) (idle : s.inFlight = none) :
    Falls (rank (Engine.schedule runner scheduler now s)) (rank s) := by
  obtain ⟨ok, serving, -, unspent, -⟩ := quiet
  obtain ⟨fewer, rejects⟩ := generationLeft_rejected scheduler now ok unspent
  have running := schedule_running runner scheduler now ok.live_distinct
  have waiting := schedule_waiting runner scheduler now s
  rw [rank, rank, stage_idle idle, lineLeft_idle idle, running, waiting]
  have moved := moves now ok owns idle serving budget room free some
  cases inFlight : (Engine.schedule runner scheduler now s).inFlight with
  | none =>
      have empty := schedule_empty runner scheduler now inFlight
      cases moved with
      | rejects rejected => exact .left _ _ (rejects rejected)
      | samples decodes less =>
          obtain ⟨entry, member, -⟩ := decodes
          rw [empty] at member
          cases member
      | prefills planned less => exact absurd empty planned
  | some flight =>
      have pending : stage (Engine.schedule runner scheduler now s) < 2 := by
        unfold stage
        rw [inFlight]
        simp only
        split <;> omega
      have line : lineLeft (Engine.schedule runner scheduler now s) =
          headLeft (planned scheduler now s).running (planned scheduler now s).waiting +
            if owed flight.plan flight.seqs = [] then 1 else 0 := by
        unfold lineLeft
        rw [inFlight, running, waiting]
      cases moved with
      | rejects rejected => exact .left _ _ (rejects rejected)
      | samples decodes less =>
          obtain ⟨entry, member, decode⟩ := decodes
          have after : Consistent runner (Engine.schedule runner scheduler now s) :=
            ok.schedule now idle serving
          obtain ⟨-, rfl⟩ := schedule_inFlight runner scheduler now idle inFlight
          rw [if_neg (owed_of_decode after inFlight member decode), Nat.add_zero] at line
          exact falls_of_le fewer (line.trans_le less) pending
      | prefills planned less =>
          refine falls_of_le fewer ?_ pending
          rw [line]
          split <;> omega

theorem falls_results (quiet : Quiet runner start s) (now : Time) (inFlight : s.inFlight = some flight)
    (outcome : flight.outcome = some (.results results)) :
    Falls (rank (applyOutcome runner now flight (.results results) s)) (rank s) := by
  obtain ⟨ok, -, -, unspent, -⟩ := quiet
  obtain ⟨folded, -, spec, applied⟩ := applyOutcome_results now ok inFlight outcome
  rw [applied]
  by_cases nothing : results = []
  · subst nothing
    have unowed : owed flight.plan flight.seqs = [] := by
      have ids := (ok.flight flight inFlight).results_ids outcome
      exact List.map_eq_nil_iff.mp ids.symm
    have same := running_nothing spec
    have before : lineLeft s = headLeft s.running s.waiting + 1 := by
      unfold lineLeft
      rw [inFlight]
      simp only [unowed, if_true]
    have after : lineLeft (resultsApplied runner [] folded s) = headLeft s.running s.waiting := by
      rw [lineLeft_idle rfl, ← same]
      rfl
    rw [rank, rank, before, after]
    show Falls (generationLeft (folded.running ++ s.waiting), _) _
    rw [same]
    exact .right _ (.left _ _ (Nat.lt_succ_self _))
  · have less := generationLeft_results ok unspent inFlight outcome spec nothing
    refine .left _ _ ?_
    show generationLeft (folded.running ++ s.waiting) < _
    rw [generationLeft_append, generationLeft_append]
    omega

theorem Draining.falls (draining : Draining runner numBlocks blockSize start s)
    (budget : 0 < scheduler.tokenBudget) (room : 0 < scheduler.maxRunning)
    (some : s.running ++ s.waiting ≠ []) (free : ¬Blocked scheduler s)
    (turn : Turn runner scheduler s t) : Falls (rank t) (rank s) := by
  cases turn with
  | schedule now idle =>
      exact falls_schedule draining.toQuiet draining.owns budget room
        (fun blocked => free ⟨idle, blocked⟩) some now idle
  | @forward flight tokens after inFlight pending each =>
      refine falls_of_le (Nat.le_refl _) ?_ ?_
      · unfold lineLeft
        rw [inFlight]
      · unfold stage
        rw [inFlight]
        simp [pending]
  | results now inFlight outcome => exact falls_results draining.toQuiet now inFlight outcome

/-- Without arrivals and failed forward passes no requests preempt each other forever: with either
scheduler and whatever is sampled, every run comes to an end of all that is live, or to a prefill that
waits for blocks which only sequences as stuck as itself hold. -/
theorem drains_or_blocks {runner : ModelRunner ρ} {scheduler : Scheduler} {numBlocks blockSize : Nat}
    {positive : 0 < blockSize} {first : ρ} {s : EngineState BlockAllocator ρ}
    (budget : 1 ≤ scheduler.tokenBudget) (room : 1 ≤ scheduler.maxRunning)
    (reachable : (loop runner scheduler (.fresh numBlocks blockSize positive) first).Reachable s)
    (serving : s.phase = .serving)
    (computed : ∀ flight outcome, s.inFlight = some flight → flight.outcome = some outcome →
      ∃ results, outcome = .results results) :
    Inevitable (Turn runner scheduler)
      (fun t => Drained numBlocks blockSize s t ∨ Blocked scheduler t) s := by
  have ok := consistent reachable
  refine Inevitable.of_wellFounded (I := Draining runner numBlocks blockSize s) falls_wellFounded rank
    (fun _ _ draining turn => draining.turn positive turn) (fun _ draining _ => draining.moves)
    (fun t t' draining live turn => ?_) s
    ⟨⟨ok, serving, computed, unspent reachable, .refl _⟩, ownership reachable,
      fun _ member => .inl member⟩
  refine draining.falls budget room (fun none => live (.inl ?_)) (fun blocked => live (.inr blocked)) turn
  obtain ⟨running, waiting⟩ := List.append_eq_nil_iff.mp none
  exact draining.drained ok.distinct running waiting

theorem drains_or_blocks_sample :
    Inevitable (Turn (hfRunner [] List.length) sampleScheduler)
      (fun t => Drained 4 2 (sampleState (hfRunner [] List.length) fun _ => []) t ∨
        Blocked sampleScheduler t)
      (sampleState (hfRunner [] List.length) fun _ => []) := by
  have inFlight : (sampleState (hfRunner [] List.length) fun _ => []).inFlight =
      some ⟨{ entries := [⟨0, 3, true⟩] }, (sampleState (hfRunner [] List.length) fun _ => []).running,
        none⟩ := by decide +kernel
  refine drains_or_blocks (by decide) (by decide) (sampleState_reachable _ _) (by decide +kernel) ?_
  intro flight outcome here done
  rw [inFlight] at here
  obtain rfl := Option.some.inj here
  cases done

/-! ## Blocked for good -/

theorem planned_blocked (now : Time) (ok : Consistent runner s) (idle : s.inFlight = none)
    (serving : s.phase = .serving) (budget : 0 < scheduler.tokenBudget)
    (blocked : PrefillBlocked scheduler s.allocator s.running) :
    ∃ waiting a preempted, planned scheduler now s = ⟨leading s.running, waiting, a, { preempted }⟩ ∧
      Freed s.allocator a (heldBy (following s.running)) := by
  have started : ∀ seq ∈ s.running, seq.status = .prefilling ∨ seq.status = .decoding :=
    fun seq member => (ok.idle serving idle seq member).imp And.left And.left
  have prefilling := @prefilling_leading s.running
  have split := leading_append_following s.running
  unfold PrefillBlocked at blocked
  cases front : leading s.running with
  | nil => simp [front] at blocked
  | cons head rest =>
      rw [front] at blocked prefilling split
      obtain ⟨refused, chunk⟩ := blocked
      obtain ⟨a, waiting, preempted, decoded, freed, -⟩ :=
        planDecodes_refused s.waiting prefilling (decoding_following started) refused
      have stuck := continuePrefills_refused { preempted } rest (prefilling head (by simp)) budget (by
          rw [freed.neededBlocks, freed.count, Nat.cast_add]
          exact chunk)
      rw [split] at decoded
      refine ⟨waiting, a, preempted, ?_, freed⟩
      simp only [planned, schedulerStep, decoded, planPrefillContinuations, stuck, planAdmissions,
        planAdmissionsFrom_spent]

theorem prefillBlocked_leading {a a' : BlockAllocator} {running : List Sequence}
    (blocked : PrefillBlocked scheduler a running) (freed : Freed a a' (heldBy (following running))) :
    PrefillBlocked scheduler a' (leading running) := by
  have again : leading (leading running) = leading running := List.takeWhile_idem
  have behind : following (leading running) = [] :=
    List.dropWhile_eq_nil_iff.mpr fun seq member => decide_eq_true (prefilling_leading seq member)
  unfold PrefillBlocked at blocked ⊢
  rw [again, behind]
  cases front : leading running with
  | nil => simp [front] at blocked
  | cons head rest =>
      rw [front] at blocked
      refine ⟨trivial, ?_⟩
      rw [freed.neededBlocks, freed.count, heldBy_nil]
      exact_mod_cast blocked.2

structure Stuck (scheduler : Scheduler) (start s : EngineState BlockAllocator ρ) : Prop
    extends Blocked scheduler s where
  serving : s.phase = .serving
  ended : s.ended = start.ended
  live : (start.running ++ start.waiting).map (·.seqId) ⊆ (s.running ++ s.waiting).map (·.seqId)

theorem Stuck.schedule (ok : Consistent runner s) (budget : 0 < scheduler.tokenBudget)
    (stuck : Stuck scheduler start s) (now : Time) :
    Stuck scheduler start (Engine.schedule runner scheduler now s) := by
  obtain ⟨⟨idle, blocked⟩, serving, ended, live⟩ := stuck
  obtain ⟨waiting, a, preempted, same, freed⟩ := planned_blocked now ok idle serving budget blocked
  have running' := schedule_running runner scheduler now ok.live_distinct
  have waiting' := schedule_waiting runner scheduler now s
  have ended' := schedule_ended runner scheduler now s
  have allocator' : (Engine.schedule runner scheduler now s).allocator = a := by
    rw [schedule_aborted now idle, handOff_allocator, same]
    show (planned scheduler now s).allocator = a
    rw [same]
  have idle' : (Engine.schedule runner scheduler now s).inFlight = none := by
    cases inFlight : (Engine.schedule runner scheduler now s).inFlight with
    | none => rfl
    | some flight =>
        obtain ⟨some, -⟩ := schedule_inFlight runner scheduler now idle inFlight
        rw [same] at some
        exact absurd rfl some
  have moved := schedulerStep_ids_perm scheduler now s.running s.waiting s.allocator ok.live_distinct
  rw [show schedulerStep scheduler now s.running s.waiting s.allocator = planned scheduler now s from
    rfl] at moved
  rw [same] at running' waiting' ended' moved
  refine ⟨⟨idle', ?_⟩, (schedule_phase runner scheduler now s).trans serving, ?_, ?_⟩
  · rw [allocator', running']
    exact prefillBlocked_leading blocked freed
  · rw [ended', ← ended]
    exact List.append_nil _
  · rw [running', waiting']
    simp only [Planning.live, List.append_nil] at moved
    exact fun id member => moved.mem_iff.mp (live member)

/-- Once a prefill is blocked the engine never plans anything again: nobody is ever served or rejected,
neither who is there nor who comes later. -/
theorem blocked_forever (runner : ModelRunner ρ) (scheduler : Scheduler) (budget : 0 < scheduler.tokenBudget)
    {numBlocks blockSize : Nat} (positive : 0 < blockSize) (first : ρ)
    {s t : EngineState BlockAllocator ρ}
    (reachable : (loop runner scheduler (.fresh numBlocks blockSize positive) first).Reachable s)
    (serving : s.phase = .serving) (blocked : Blocked scheduler s)
    (steps : (loop runner scheduler (.fresh numBlocks blockSize positive) first).Steps s t) :
    Stuck scheduler s t := by
  refine Machine.Steps.preserved (P := Stuck scheduler s) ?_ reachable
    ⟨blocked, serving, rfl, List.Subset.refl _⟩ steps
  intro u event v reached stuck step
  have idle := stuck.idle
  cases step with
  | arrive _ _ _ =>
      refine ⟨⟨idle, stuck.prefill⟩, stuck.serving, stuck.ended, fun id member => ?_⟩
      have here := stuck.live member
      rw [List.map_append] at here ⊢
      rcases List.mem_append.mp here with here | here
      · exact List.mem_append_left _ here
      · exact List.mem_append_right _ (List.map_append ▸ List.mem_append_left _ here)
  | schedule _ _ => exact stuck.schedule (consistent reached) budget _
  | forward inFlight _ _ =>
      rw [idle] at inFlight
      cases inFlight
  | apply inFlight _ =>
      rw [idle] at inFlight
      cases inFlight
  | abortAll failing =>
      rw [stuck.serving] at failing
      cases failing

theorem blocked_forever_sample : Stuck sampleScheduler stallState
    (Engine.schedule (hfRunner [] List.length) sampleScheduler 7 stallState) := by
  have serving : stallState.phase = .serving := by decide +kernel
  refine blocked_forever (hfRunner [] List.length) sampleScheduler (by decide) (by decide) (fun _ => [])
    stallState_reachable serving ⟨rfl, by decide +kernel⟩ (.single ⟨_, .schedule rfl serving⟩)

end LlmServing.Paged
