import LlmServing.Decoder.Progress
import LlmServing.Engine.Iteration

/-!
# The paged engine, from requests to tokens

The scheduler, the pool, the decode graphs, the piecewise buckets and the sampler together, beside the
model run on one request's own tokens.
-/

namespace LlmServing.Decoder

open Scheduling Runner Engine Lib
open Paged (held slot sampleState sampleState_reachable)

theorem sampleBlockSize_pos : 0 < 2 := Nat.zero_lt_two

def sampleLoaded : Loaded sampleModules where
  softmax := evenSoftmax
  sort := stableDescending 3
  eosTokenIds := []
  numBlocks := 4
  blockSize := 2
  blockSize_pos := sampleBlockSize_pos
  piecewiseBuckets := [4]

def sampleStart : PagedState sampleModules where
  pools := samplePools
  graphs := capture 4 [1]
  buffers := sampleBuffers

abbrev sampleEngine : Machine (EngineState BlockAllocator (PagedState sampleModules)) Event :=
  pagedEngine sampleLoaded sampleScheduler [1] samplePools sampleBuffers

theorem sampleState_decoder :
    sampleEngine.Reachable (sampleState (pagedDecoder sampleLoaded) sampleStart) :=
  sampleState_reachable _ _

theorem sampleState_inFlight :
    (sampleState (pagedDecoder sampleLoaded) sampleStart).inFlight =
      some ⟨{ entries := [⟨0, 3, true⟩] },
        (sampleState (pagedDecoder sampleLoaded) sampleStart).running, none⟩ := by decide +kernel

variable {m : Modules} (loaded : Loaded m) (scheduler : Scheduler) (decodeBuckets : List Nat)
  (pools : m.Pools) (buffers : SegmentBuffers m)

/-- Every iteration that the engine hands off finds its input on the path `forward` takes for it, indexes
nothing that is not there, and, whatever the pools and the segment buffers hold, has results for exactly the
sequences that are owed a token. -/
theorem iteration_computes {s : EngineState BlockAllocator (PagedState m)}
    (reachable : (pagedEngine loaded scheduler decodeBuckets pools buffers).Reachable s)
    {flight : InFlight} (inFlight : s.inFlight = some flight) (pending : flight.outcome = none) :
    let path := forwardPath s.runner.graphs loaded.piecewiseBuckets flight.plan
    ∃ input, pathBatch loaded.blockSize loaded.numBlocks s.runner.graphs flight.plan flight.seqs path =
        some input ∧
      InRange loaded.numBlocks loaded.blockSize flight.plan flight.seqs input ∧
      ∃ results after,
        forwardPaged loaded flight.plan flight.seqs s.runner (.results results) after ∧
        results.map (·.1) = (owed flight.plan flight.seqs).map (·.seqId) := by
  have known := pagedReady reachable
  have ok := consistent reachable
  obtain ⟨input, made, feeds, -⟩ := known.feeds inFlight pending
  obtain ⟨results, after, computed⟩ := exists_forward known ok inFlight pending
  obtain ⟨tokens, length, rfl⟩ := forwardPaged_emits loaded computed
  exact ⟨input, made, known.inRange ok inFlight feeds, _, after, computed, map_fst_emitTokens length⟩

noncomputable abbrev pagedRun : Nat → EngineState BlockAllocator (PagedState sampleModules) :=
  sharedRun (pagedDecoder sampleLoaded) (someForward (pagedDecoder sampleLoaded)) (samplePool 4 1) sampleStart

theorem pagedRun_reachable (n : Nat) :
    (pagedEngine sampleLoaded sharedScheduler [1] samplePools sampleBuffers).Reachable (pagedRun n) ∧
      (pagedRun n).inFlight = none ∧ (pagedRun n).phase = .serving :=
  sharedRun_reachable (someForward_computes _ fun _ _ reachable inFlight pending =>
    exists_forward (pagedReady reachable) (consistent reachable) inFlight pending) n

theorem iteration_computes_sample :
    ∃ flight, (schedule (pagedDecoder sampleLoaded) sharedScheduler 2 (pagedRun 1)).inFlight = some flight ∧
      flight.plan.entries = [⟨1, 1, false⟩, ⟨0, 1, true⟩] ∧ ∃ input,
      InRange 4 2 flight.plan flight.seqs input ∧ ∃ results after,
      forwardPaged sampleLoaded flight.plan flight.seqs
        (schedule (pagedDecoder sampleLoaded) sharedScheduler 2 (pagedRun 1)).runner (.results results) after ∧
      results.map (·.1) = [1, 0] := by
  obtain ⟨reachable, idle, serving⟩ := pagedRun_reachable 1
  have next := reachable.next
    (.schedule idle serving : Step (pagedDecoder sampleLoaded) sharedScheduler _ (.schedule 2) _)
  let s := schedule (pagedDecoder sampleLoaded) sharedScheduler 2 (pagedRun 1)
  have planned : s.inFlight.map (fun flight =>
      (flight.plan.entries, (owed flight.plan flight.seqs).map (·.seqId))) =
        some ([⟨1, 1, false⟩, ⟨0, 1, true⟩], [1, 0]) := by decide +kernel
  obtain ⟨flight, inFlight, same⟩ := Option.map_eq_some_iff.mp planned
  obtain ⟨entries, owes⟩ := Prod.mk.inj same
  have pending : flight.outcome = none := by rw [(schedule_inFlight _ _ _ idle inFlight).2]
  obtain ⟨input, -, ranges, results, after, computed, ids⟩ :=
    iteration_computes sampleLoaded sharedScheduler [1] samplePools sampleBuffers next inFlight pending
  exact ⟨flight, inFlight, entries, input, ranges, results, after, computed, ids.trans owes⟩

theorem exists_generated : ∃ s, sampleEngine.Reachable s ∧ s.phase = .serving ∧ s.inFlight = none ∧
    s.running.map (fun seq => (seq.generatedTokens.length, seq.blockTable.numTokens)) = [(1, 3)] := by
  obtain ⟨seq, only⟩ : ∃ seq, (sampleState (pagedDecoder sampleLoaded) sampleStart).running = [seq] :=
    List.length_eq_one_iff.mp (by decide +kernel)
  have fresh : (sampleState (pagedDecoder sampleLoaded) sampleStart).running.map
      (fun seq => (seq.generatedTokens, seq.samplingParams.maxTokens, seq.blockTable.numTokens)) =
        [([], 4, 3)] := by
    decide +kernel
  have owes : owed { entries := [⟨0, 3, true⟩] }
      (sampleState (pagedDecoder sampleLoaded) sampleStart).running = [seq] := by
    rw [← only]
    decide +kernel
  simp only [only, List.map_cons, List.map_nil, List.cons.injEq, Prod.mk.injEq, and_true] at fresh
  obtain ⟨none, limit, held⟩ := fresh
  obtain ⟨s, token, reachable, running, idle, phase⟩ := exists_first_token 1 sampleState_decoder
    sampleState_inFlight rfl only owes none (by simp [limit]) rfl
    (exists_forward (pagedReady sampleState_decoder) (consistent sampleState_decoder)
      sampleState_inFlight rfl)
  have serving : (sampleState (pagedDecoder sampleLoaded) sampleStart).phase = .serving := by
    decide +kernel
  refine ⟨s, reachable, phase.trans serving, idle, ?_⟩
  rw [running]
  simp [recordToken, none, held]

/-- In every state the engine reaches, whatever was batched together, chunked, preempted, failed, padded
or replayed: each token of each sequence can be drawn from the logits that the model gives for that
sequence's own tokens before it, with that request's own parameters; no token follows a stop token or the
request's limit; and a greedy request gets what the model generates for it alone. -/
theorem paged_output {s : EngineState BlockAllocator (PagedState m)}
    (reachable : (pagedEngine loaded scheduler decodeBuckets pools buffers).Reachable s) :
    Genuine loaded.eosTokenIds (Likely m.logits loaded.softmax loaded.sort) s ∧
    ∀ seq ∈ s.running ++ s.waiting ++ s.ended, seq.samplingParams.temperature = 0 →
      seq.generatedTokens <+: reference loaded.eosTokenIds (greedyNext m.logits) seq ∧
      (seq.metrics.doneTime ≠ none →
        seq.generatedTokens = reference loaded.eosTokenIds (greedyNext m.logits) seq) :=
  ⟨genuine reachable, genuine_greedy (genuine reachable)⟩

theorem paged_output_sample : ∃ s, sampleEngine.Reachable s ∧
    s.running.map (fun seq => (seq.generatedTokens.length, seq.blockTable.numTokens)) = [(1, 3)] ∧
    ∀ seq ∈ s.running,
      Drawn (Likely sampleModules.logits evenSoftmax (stableDescending 3)) seq ∧ Unfinished [] seq := by
  obtain ⟨s, reachable, -, -, generated⟩ := exists_generated
  exact ⟨s, reachable, generated, (paged_output sampleLoaded _ [1] _ _ reachable).1.running⟩

/-- Whatever the pools held at the start, no launch ever leaves a running sequence with another's cells or
with stale ones: at every layer, the slots of its block table hold the keys and values that the model
computes for its own tokens. -/
theorem pools_hold {s : EngineState BlockAllocator (PagedState m)}
    (reachable : (pagedEngine loaded scheduler decodeBuckets pools buffers).Reachable s)
    (serving : s.phase = .serving) {seq : Sequence} (member : seq ∈ s.running) {layer position : Nat}
    (below : layer < m.layers) (inside : position < held s.inFlight seq) :
    s.runner.pools.cell layer (slot loaded.blockSize seq.blockTable position) =
      m.cellAt seq.tokens layer position :=
  poolsHold reachable serving seq member layer below position inside

theorem pools_hold_sample : ∃ s, sampleEngine.Reachable s ∧ ∃ seq ∈ s.running,
    s.runner.pools.cell 1 (slot 2 seq.blockTable 2) = sampleModules.cellAt seq.tokens 1 2 := by
  obtain ⟨s, reachable, serving, idle, generated⟩ := exists_generated
  obtain ⟨seq, only, counts⟩ := List.map_eq_singleton_iff.mp generated
  have inside : 2 < held s.inFlight seq := by simp [held, idle, (Prod.mk.inj counts).2]
  refine ⟨s, reachable, seq, by simp [only], ?_⟩
  exact pools_hold sampleLoaded _ [1] _ _ reachable serving (by simp [only]) (by decide) inside

end LlmServing.Decoder
