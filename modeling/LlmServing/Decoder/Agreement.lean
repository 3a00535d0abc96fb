import LlmServing.Decoder.ContiguousRuns
import LlmServing.Decoder.Correct
import LlmServing.Decoder.Hf

/-!
# The engines agree

A pool and custom kernels, a contiguous cache, or the model's own: with greedy sampling a request's
output is the same, whatever else the engine was serving.
-/

namespace LlmServing.Decoder

open Scheduling Runner Engine Lib

def sequences {α ρ : Type} (s : EngineState α ρ) : List Sequence := s.running ++ s.waiting ++ s.ended

/-- Two sequences that the same greedy request may have become, in two engines or in one. -/
structure SameRequest (a b : Sequence) : Prop where
  prompt : a.promptTokens = b.promptTokens
  maxTokens : a.samplingParams.maxTokens = b.samplingParams.maxTokens
  greedy : a.samplingParams.temperature = 0 ∧ b.samplingParams.temperature = 0

theorem SameRequest.reference_eq {a b : Sequence} (same : SameRequest a b) (eos : List Token)
    (next : List Token → Token) : reference eos next a = reference eos next b := by
  rw [reference, reference, same.prompt, same.maxTokens]

section

variable {m : Modules} (loaded : Loaded m) (first second third : Scheduler) (decodeBuckets : List Nat)
  (pools : m.Pools) (buffers : SegmentBuffers m) (capacity : Nat) {α : Type} [KVAllocator α]
  (allocator : α) (call : List Token → Row m.vocab)

/-- Any two sequences of one greedy request, in any states that the three engines reach: what one has
generated is a prefix of what the other has, and once both are done it is the same. The third engine calls
a forward pass that is not the repository's; it is taken to compute the logits of the same decoder. -/
theorem engines_agree (own : call = m.logits) {paged : EngineState BlockAllocator (PagedState m)}
    {contiguous : EngineState ContiguousAllocator (CellBuffers m)} {hf : EngineState α Caches}
    (onPool : (pagedEngine loaded first decodeBuckets pools buffers).Reachable paged)
    (onBuffers : (contiguousEngine m loaded.softmax loaded.sort loaded.eosTokenIds second
      capacity).Reachable contiguous)
    (onCaches : (loop (hfDecoder call loaded.softmax loaded.sort loaded.eosTokenIds) third
      allocator fun _ => []).Reachable hf) {a b : Sequence}
    (here : a ∈ sequences paged ++ sequences contiguous ++ sequences hf)
    (there : b ∈ sequences paged ++ sequences contiguous ++ sequences hf) (same : SameRequest a b) :
    (a.generatedTokens <+: b.generatedTokens ∨ b.generatedTokens <+: a.generatedTokens) ∧
      (a.metrics.doneTime ≠ none → b.metrics.doneTime ≠ none →
        a.generatedTokens = b.generatedTokens) := by
  subst own
  have each {seq : Sequence}
      (member : seq ∈ sequences paged ++ sequences contiguous ++ sequences hf)
      (cold : seq.samplingParams.temperature = 0) :
      seq.generatedTokens <+: reference loaded.eosTokenIds (greedyNext m.logits) seq ∧
        (seq.metrics.doneTime ≠ none →
          seq.generatedTokens = reference loaded.eosTokenIds (greedyNext m.logits) seq) := by
    rcases List.mem_append.mp member with member | member
    · rcases List.mem_append.mp member with member | member
      · exact genuine_greedy (genuine onPool) seq member cold
      · exact genuine_greedy (genuine_contiguous onBuffers) seq member cold
    · exact genuine_greedy (genuine_hf onCaches) seq member cold
  obtain ⟨start, whole⟩ := each here same.greedy.1
  obtain ⟨start', whole'⟩ := each there same.greedy.2
  rw [← same.reference_eq] at start' whole'
  exact ⟨List.prefix_or_prefix_of_prefix start start',
    fun done done' => (whole done).trans (whole' done').symm⟩

end

theorem greedy_nonneg : (0 : Rat) ≤ 0 := le_rfl

def sampleGreedy : IngressRequest :=
  { sampleRequest 0 5 [6, 7] 3 with
    samplingParams :=
      { (sampleRequest 0 5 [6, 7] 3).samplingParams with
        temperature := 0
        temperature_nonneg := greedy_nonneg } }

def greedyScheduled {α ρ : Type} [KVAllocator α] (runner : ModelRunner ρ) (allocator : α) (start : ρ) :
    EngineState α ρ :=
  schedule runner sampleScheduler 0
    { allocator, runner := start, waiting := [sequenceFromIngress sampleGreedy] }

def asked (seq : Sequence) : List Token × Nat × Rat × List Token :=
  (seq.promptTokens, seq.samplingParams.maxTokens, seq.samplingParams.temperature, seq.generatedTokens)

theorem greedyScheduled_reachable {α ρ : Type} [KVAllocator α] (runner : ModelRunner ρ) (allocator : α)
    (start : ρ) :
    (loop runner sampleScheduler allocator start).Reachable (greedyScheduled runner allocator start) := by
  have arrives : Step runner sampleScheduler { allocator, runner := start } (.arrive sampleGreedy)
      { allocator, runner := start, waiting := [sequenceFromIngress sampleGreedy] } :=
    .arrive rfl nofun nofun
  exact .next (.next (.initial rfl) arrives) (.schedule rfl rfl)

theorem greedy_first {α ρ : Type} [KVAllocator α] (runner : ModelRunner ρ) (allocator : α) (start : ρ)
    (inFlight : (greedyScheduled runner allocator start).inFlight =
      some ⟨{ entries := [⟨0, 3, true⟩] }, (greedyScheduled runner allocator start).running, none⟩)
    (fresh : (greedyScheduled runner allocator start).running.map asked = [([5, 6, 7], 4, 0, [])])
    (owes : owed { entries := [⟨0, 3, true⟩] } (greedyScheduled runner allocator start).running =
      (greedyScheduled runner allocator start).running)
    (eos : runner.eosTokenIds = [])
    (computed : ∀ flight, (greedyScheduled runner allocator start).inFlight = some flight →
      flight.outcome = none → ∃ results after, runner.forward flight.plan flight.seqs
        (greedyScheduled runner allocator start).runner (.results results) after) :
    ∃ t token seq, (loop runner sampleScheduler allocator start).Reachable t ∧ seq ∈ sequences t ∧
      asked seq = ([5, 6, 7], 4, 0, [token]) := by
  obtain ⟨seq, only, values⟩ := List.map_eq_singleton_iff.mp fresh
  simp only [asked, Prod.mk.injEq] at values
  obtain ⟨prompt, limit, cold, none⟩ := values
  rw [only] at owes
  obtain ⟨t, token, reachable, running, -, -⟩ := exists_first_token 1
    (greedyScheduled_reachable runner allocator start) inFlight rfl only (by rw [only]; exact owes) none
    (by simp [limit]) eos (computed _ inFlight rfl)
  refine ⟨t, token, recordToken 1 token false seq, reachable, by simp [sequences, running], ?_⟩
  simp [asked, recordToken, prompt, limit, cold, none]

theorem sameRequest_of_asked {a b : Sequence} {prompt tokens tokens' : List Token} {limit : Nat}
    (here : asked a = (prompt, limit, 0, tokens)) (there : asked b = (prompt, limit, 0, tokens')) :
    SameRequest a b := by
  simp only [asked, Prod.mk.injEq] at here there
  obtain ⟨prompt, limit, cold, -⟩ := here
  obtain ⟨prompt', limit', cold', -⟩ := there
  exact ⟨prompt.trans prompt'.symm, limit.trans limit'.symm, cold, cold'⟩

theorem eq_of_singletons {x y : Token} (agree : [x] <+: [y] ∨ [y] <+: [x]) : x = y := by
  rcases agree with before | before <;> simpa [eq_comm] using before

theorem engines_agree_sample : ∃ paged contiguous hf a b c token,
    sampleEngine.Reachable paged ∧ a ∈ sequences paged ∧ asked a = ([5, 6, 7], 4, 0, [token]) ∧
    (contiguousEngine sampleModules evenSoftmax (stableDescending 3) [] sampleScheduler 16).Reachable
      contiguous ∧ b ∈ sequences contiguous ∧ asked b = ([5, 6, 7], 4, 0, [token]) ∧
    (loop (hfDecoder sampleModules.logits evenSoftmax (stableDescending 3) []) sampleScheduler
      (samplePool 4 1) fun _ => []).Reachable hf ∧ c ∈ sequences hf ∧
      asked c = ([5, 6, 7], 4, 0, [token]) := by
  have onPool := greedyScheduled_reachable (pagedDecoder sampleLoaded)
    (BlockAllocator.fresh 4 2 sampleBlockSize_pos) sampleStart
  have onBuffers := greedyScheduled_reachable sampleContiguous
    ({ capacityTokens := 16 } : ContiguousAllocator) fun _ _ => none
  obtain ⟨paged, x, a, reachable, here, asks⟩ := greedy_first (pagedDecoder sampleLoaded)
    (BlockAllocator.fresh 4 2 sampleBlockSize_pos) sampleStart
    (by decide +kernel) (by decide +kernel) (by decide +kernel) rfl
    fun _ inFlight pending => exists_forward (pagedReady onPool) (consistent onPool) inFlight pending
  obtain ⟨contiguous, y, b, reachable', here', asks'⟩ := greedy_first sampleContiguous
    ({ capacityTokens := 16 } : ContiguousAllocator) (fun _ _ => none)
    (by decide +kernel) (by decide +kernel) (by decide +kernel) rfl
    fun _ inFlight pending => exists_contiguous onBuffers inFlight pending
  obtain ⟨hf, z, c, reachable'', here'', asks''⟩ := greedy_first
    (hfDecoder sampleModules.logits evenSoftmax (stableDescending 3) []) (samplePool 4 1) (fun _ => [])
    (by decide +kernel) (by decide +kernel) (by decide +kernel) rfl
    fun _ _ _ => exists_forwardCalls _ _ _ _ _ _ _
  have agree {other : Sequence} {token : Token}
      (there : other ∈ sequences paged ++ sequences contiguous ++ sequences hf)
      (asks' : asked other = ([5, 6, 7], 4, 0, [token])) : x = token := by
    have both := engines_agree sampleLoaded _ _ _ [1] samplePools sampleBuffers 16 _ _ rfl reachable
      reachable' reachable'' (by simp [here]) there (sameRequest_of_asked asks asks')
    have tokens : a.generatedTokens = [x] := congrArg (·.2.2.2) asks
    have tokens' : other.generatedTokens = [token] := congrArg (·.2.2.2) asks'
    rw [tokens, tokens'] at both
    exact eq_of_singletons both.1
  obtain rfl := agree (by simp [here']) asks'
  obtain rfl := agree (by simp [here'']) asks''
  exact ⟨paged, contiguous, hf, a, b, c, x, reachable, here, asks, reachable', here', asks',
    reachable'', here'', asks''⟩

end LlmServing.Decoder
