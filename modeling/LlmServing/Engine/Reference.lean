import LlmServing.Engine.Delivery
import LlmServing.Engine.Iteration
import LlmServing.Engine.Memory
import LlmServing.Lib.Generate

/-!
# Scheduling never changes output

The engine on `hfRunner` against the generation of one request alone: each cache holds the first
tokens of its sequence, so every sampled token is the reference's next one.
-/

namespace LlmServing.Engine

open Scheduling Runner Lib

variable {α : Type} (eos : List Token) (next : List Token → Token)

def reference (seq : Sequence) : List Token :=
  generate next (· ∈ eos) seq.promptTokens seq.samplingParams.maxTokens []

def OnTrack (seq : Sequence) : Prop :=
  seq.metrics.doneTime = none ∧ seq.generatedTokens.length < seq.samplingParams.maxTokens ∧
    generate next (· ∈ eos) seq.promptTokens
      (seq.samplingParams.maxTokens - seq.generatedTokens.length) seq.generatedTokens =
        reference eos next seq

variable {eos next}

theorem OnTrack.isPrefix {seq : Sequence} (track : OnTrack eos next seq) :
    seq.generatedTokens <+: reference eos next seq := by
  rw [← track.2.2]
  exact prefix_generate _ _

theorem onTrack_fresh (req : IngressRequest) : OnTrack eos next (sequenceFromIngress req) :=
  ⟨rfl, req.samplingParams.maxTokens_pos, rfl⟩

theorem OnTrack.token {seq : Sequence} (track : OnTrack eos next seq) (now : Time)
    {token : Token} (sampled : token = next seq.tokens) (running : token ∉ eos)
    (room : seq.generatedTokens.length + 1 < seq.samplingParams.maxTokens) :
    OnTrack eos next (recordToken now token false seq) := by
  have grown : (recordToken now token false seq).generatedTokens =
      seq.generatedTokens ++ [token] := rfl
  have left : seq.samplingParams.maxTokens - seq.generatedTokens.length =
      seq.samplingParams.maxTokens - (seq.generatedTokens.length + 1) + 1 := by omega
  refine ⟨track.1, by rw [grown, List.length_append]; exact room, ?_⟩
  have same := track.2.2
  rw [left, generate_continue sampled (by simpa using running)] at same
  rw [grown, List.length_append, List.length_singleton]
  exact same

theorem OnTrack.finished {seq : Sequence} (track : OnTrack eos next seq) {token : Token}
    (sampled : token = next seq.tokens)
    (last : token ∈ eos ∨ seq.samplingParams.maxTokens ≤ seq.generatedTokens.length + 1) :
    seq.generatedTokens ++ [token] = reference eos next seq := by
  have unfinished := track.2.1
  have left : seq.samplingParams.maxTokens - seq.generatedTokens.length =
      seq.samplingParams.maxTokens - (seq.generatedTokens.length + 1) + 1 := by omega
  rw [← track.2.2, left, generate_stop sampled]
  rcases last with stopped | full
  · exact .inl (by simpa using stopped)
  · exact .inr (by omega)

def CacheOk (eos : List Token) (next : List Token → Token) (flight : Option InFlight)
    (caches : Caches) (seq : Sequence) : Prop :=
  match flight with
  | none => caches seq.seqId = seq.tokens.take seq.blockTable.numTokens
  | some flight =>
      match flight.outcome with
      | none => caches seq.seqId =
          seq.tokens.take (cachedIn (entryFor flight.plan seq.seqId) seq)
      | some (.results results) =>
          caches seq.seqId = seq.tokens.take seq.blockTable.numTokens ∧
          ∀ result ∈ results, result.1 = seq.seqId →
            result = emitToken eos seq (next seq.tokens)
      | some _ => seq.seqId ∉ flight.plan.ids →
          caches seq.seqId = seq.tokens.take seq.blockTable.numTokens

structure Greedy (eos : List Token) (next : List Token → Token) (s : EngineState α Caches) :
    Prop where
  running : ∀ seq ∈ s.running, OnTrack eos next seq
  waiting : ∀ seq ∈ s.waiting, OnTrack eos next seq
  finished : ∀ seq ∈ s.ended, seq.metrics.doneTime ≠ none →
    seq.generatedTokens = reference eos next seq
  caches : s.phase = .serving → ∀ seq ∈ s.running, CacheOk eos next s.inFlight s.runner seq
  empty : ∀ seq ∈ s.waiting, s.runner seq.seqId = []
  unseen : ∀ id ∉ s.ids, s.runner id = []

def cacheMemory (eos : List Token) (next : List Token → Token) :
    Memory (hfRunner eos next) (List Token) where
  view caches id := caches id
  clear := []
  Holds fed seq n := fed = seq.tokens.take n
  view_free caches freed id := by
    by_cases same : id = freed
    · simp [hfRunner, same]
    · simp [hfRunner, same]
  others {plan seqs before after outcome} computed ok id absent := by
    cases outcome with
    | results results =>
        obtain ⟨rfl, -⟩ := computed
        exact (forwardHf_fed next eos ok.present ok.entries before).others id absent
    | failed | deviceLost => exact computed id absent
  fed {plan seqs before after results entry seq} computed ok member holds := by
    obtain ⟨rfl, -⟩ := computed
    have bookkept : RunningOk (some entry) seq := ok.bookkept _ member
    rw [(forwardHf_fed next eos ok.present ok.entries before).fed _ member, holds,
      bookkept.entryTokenIds]
    exact Sequence.take_append_slice _ _ _ (Nat.sub_le _ _)
  holds_clear _ := List.take_zero.symm
  holds_congr holds _ _ tokens := holds.trans tokens.symm

def SampledFrom (eos : List Token) (next : List Token → Token) (flight : Option InFlight)
    (seq : Sequence) : Prop :=
  ∀ inFlight, flight = some inFlight → ∀ results, inFlight.outcome = some (.results results) →
    ∀ result ∈ results, result.1 = seq.seqId → result = emitToken eos seq (next seq.tokens)

theorem cacheOk_iff {flight : Option InFlight} {caches : Caches} {seq : Sequence} :
    CacheOk eos next flight caches seq ↔
      MemoryOk (cacheMemory eos next) flight caches seq ∧ SampledFrom eos next flight seq := by
  unfold CacheOk MemoryOk SampledFrom
  cases flight with
  | none => simp [cacheMemory]
  | some flight =>
      cases outcome : flight.outcome with
      | none => simp [cacheMemory, outcome]
      | some outcome' =>
          cases outcome' with
          | results results => simp [cacheMemory, outcome]
          | failed | deviceLost => simp [cacheMemory, outcome]

variable [KVAllocator α] {scheduler : Scheduler}

theorem tracking (eos : List Token) (next : List Token → Token) (scheduler : Scheduler)
    (now : Time) :
    PlanRule (α := α) scheduler now (fun _ => True) (fun _ _ => OnTrack eos next)
      (fun _ => OnTrack eos next) where
  grant _ _ := trivial
  release _ := trivial
  decode _ _ track _ := track
  preempt _ track := track
  «continue» _ _ track _ _ := track
  admission _ track _ _ _ := track
  skip track := track

theorem unfinished_released {seqs : List Sequence} {s : EngineState α Caches}
    (track : ∀ seq ∈ seqs, OnTrack eos next seq) {seq : Sequence}
    (member : seq ∈ (released seqs s).finished) : seq.metrics.doneTime = none := by
  obtain ⟨source, found, a, rfl⟩ := released_finished member
  exact (track source found).1

theorem emitToken_eq {seq : Sequence} {token sampled : Token} {finished : Bool}
    (same : (seq.seqId, token, finished) = emitToken eos seq sampled) :
    token = sampled ∧ decide (token ∈ eos ∨
      seq.samplingParams.maxTokens ≤ seq.generatedTokens.length + 1) = finished := by
  simp only [emitToken, Prod.mk.injEq] at same
  obtain ⟨-, rfl, last⟩ := same
  exact ⟨rfl, last.symm⟩

omit [KVAllocator α] in
theorem sampledFrom_forward {s : EngineState α Caches} (ok : Consistent (hfRunner eos next) s)
    {flight : InFlight} (inFlight : s.inFlight = some flight) {seq : Sequence}
    (member : seq ∈ s.running)
    (before : s.runner seq.seqId =
      seq.tokens.take (cachedIn (entryFor flight.plan seq.seqId) seq)) :
    ∀ result ∈ emitTokens eos (owed flight.plan flight.seqs)
        (forwardHf next flight.plan flight.seqs s.runner).2,
      result.1 = seq.seqId → result = emitToken eos seq (next seq.tokens) := by
  have batchOk := ok.batchOk inFlight
  intro result named same
  obtain ⟨⟨entry, other⟩, inBatch, owes, rfl⟩ :=
    (forwardHf_fed next eos batchOk.present batchOk.entries s.runner).results result named
  obtain ⟨running, -, found⟩ := mem_flight_batch ok inFlight inBatch
  obtain rfl := List.inj_on_of_nodup_map ok.running_distinct running member same
  have bookkept : RunningOk (some entry) other := batchOk.bookkept _ inBatch
  have whole : s.runner other.seqId ++ entryTokenIds entry other = other.tokens := by
    rw [before, found, bookkept.entryTokenIds]
    refine (Sequence.take_append_slice _ _ _ (Nat.sub_le _ _)).trans ?_
    rw [(bookkept.owes owes).2, ← Sequence.length_tokens, List.take_length]
  rw [whole]

theorem Greedy.schedule (now : Time) {s : EngineState α Caches} (greedy : Greedy eos next s)
    (memory : Remembered (cacheMemory eos next) s) (ok : Consistent (hfRunner eos next) s)
    (idle : s.inFlight = none) (serving : s.phase = .serving) :
    Greedy eos next (Engine.schedule (hfRunner eos next) scheduler now s) := by
  have holds := ok.holds (tracking (α := α) eos next scheduler now) trivial greedy.running
    greedy.waiting
  have cached := memory.schedule scheduler now ok idle serving
  refine ⟨fun seq member => ?_, fun seq member => ?_, fun seq member finished => ?_,
    fun serving seq member => cacheOk_iff.mpr ⟨cached.running serving seq member, ?_⟩,
    cached.waiting, cached.unseen⟩
  · rw [schedule_running _ _ _ ok.live_distinct] at member
    exact holds.running seq member
  · rw [schedule_waiting] at member
    exact holds.waiting seq member
  · rw [schedule_ended] at member
    rcases List.mem_append.mp member with member | member
    · exact greedy.finished seq member finished
    · exact absurd (unfinished_released holds.rejected member) finished
  · intro flight inFlight results outcome
    obtain ⟨-, rfl⟩ := schedule_inFlight _ scheduler now idle inFlight
    cases outcome

omit [KVAllocator α] in
theorem Greedy.forward {s : EngineState α Caches} (greedy : Greedy eos next s)
    (memory : Remembered (cacheMemory eos next) s) (ok : Consistent (hfRunner eos next) s)
    {flight : InFlight} {outcome : Outcome} {after : Caches} (inFlight : s.inFlight = some flight)
    (pending : flight.outcome = none)
    (computed : (hfRunner eos next).forward flight.plan flight.seqs s.runner outcome after) :
    Greedy eos next
      { s with runner := after, inFlight := some { flight with outcome := some outcome } } := by
  have cached := memory.forward ok inFlight pending computed
  refine ⟨greedy.running, greedy.waiting, greedy.finished,
    fun serving seq member => cacheOk_iff.mpr ⟨cached.running serving seq member, ?_⟩,
    cached.waiting, cached.unseen⟩
  rintro _ ⟨rfl⟩ results ⟨rfl⟩
  obtain ⟨-, rfl⟩ := computed
  have before := greedy.caches serving seq member
  rw [inFlight] at before
  simp only [CacheOk, pending] at before
  exact sampledFrom_forward ok inFlight member before

theorem Greedy.results {now : Time} {s : EngineState α Caches} (greedy : Greedy eos next s)
    (memory : Remembered (cacheMemory eos next) s) (ok : Consistent (hfRunner eos next) s)
    {flight : InFlight} {results : IterationResults} {folded : Folding α}
    (inFlight : s.inFlight = some flight) (outcome : flight.outcome = some (.results results))
    (spec : Folded now results ⟨s.running, s.allocator, []⟩ folded) :
    Greedy eos next (resultsApplied (hfRunner eos next) results folded s) := by
  have cached := memory.results ok inFlight outcome spec
  have sampled {seq : Sequence} (member : seq ∈ s.running) :=
    (cacheOk_iff.mp (greedy.caches (ok.serving_of_flight inFlight) seq member)).2 flight inFlight
      results outcome
  refine ⟨fun seq member => ?_, greedy.waiting, fun seq member finished => ?_,
    fun serving seq member => cacheOk_iff.mpr ⟨cached.running serving seq member, ?_⟩,
    cached.waiting, cached.unseen⟩
  · obtain ⟨source, found, left⟩ := spec.running_source member
    rcases left with ⟨-, rfl⟩ | ⟨token, named, rfl⟩
    · exact greedy.running _ found
    · obtain ⟨sampled, more⟩ := emitToken_eq (sampled found _ named rfl)
      simp only [decide_eq_false_iff_not, not_or, Nat.not_le] at more
      exact (greedy.running source found).token now sampled more.1 more.2
  · rcases List.mem_append.mp member with member | member
    · exact greedy.finished seq member finished
    · rcases spec.finished seq member with member | ⟨source, found, token, a, named, rfl⟩
      · cases member
      · obtain ⟨sampled, last⟩ := emitToken_eq (sampled found _ named rfl)
        exact (greedy.running source found).finished sampled (of_decide_eq_true last)
  · intro flight nothing
    cases nothing

theorem Greedy.failed {s : EngineState α Caches} (greedy : Greedy eos next s)
    (memory : Remembered (cacheMemory eos next) s) (ok : Consistent (hfRunner eos next) s)
    {flight : InFlight} (inFlight : s.inFlight = some flight)
    (outcome : flight.outcome = some .failed) :
    Greedy eos next (aborted (hfRunner eos next) (failedBatch flight) s) := by
  have flightOk := ok.flight flight inFlight
  have cached := memory.failed ok inFlight outcome
  refine ⟨fun seq member => ?_, greedy.waiting, fun seq member finished => ?_,
    fun serving seq member => cacheOk_iff.mpr ⟨cached.running serving seq member, ?_⟩,
    cached.waiting, cached.unseen⟩
  · rw [failed_running ok inFlight] at member
    exact greedy.running seq (List.mem_of_mem_filter member)
  · rcases List.mem_append.mp member with member | member
    · exact greedy.finished seq member finished
    · exact absurd (unfinished_released (fun other named =>
        greedy.running other (mem_failedBatch flightOk named)) member) finished
  · intro flight nothing
    cases nothing

theorem Greedy.abortAll {s : EngineState α Caches} (greedy : Greedy eos next s)
    (memory : Remembered (cacheMemory eos next) s) (ok : Consistent (hfRunner eos next) s) :
    Greedy eos next { aborted (hfRunner eos next) (s.running ++ s.waiting) s with
      waiting := [], phase := .failed } := by
  have cached := memory.abortAll ok
  refine ⟨fun seq member => ?_, (List.forall_mem_nil _), fun seq member finished => ?_,
    (fun serving => by cases serving), (List.forall_mem_nil _), cached.unseen⟩
  · rw [abortAll_running ok] at member
    cases member
  · rcases List.mem_append.mp member with member | member
    · exact greedy.finished seq member finished
    · have track : ∀ other ∈ s.running ++ s.waiting, OnTrack eos next other := by
        intro other named
        rcases List.mem_append.mp named with named | named
        · exact greedy.running other named
        · exact greedy.waiting other named
      exact absurd (unfinished_released track member) finished

theorem greedyRule :
    LoopRule (α := α) (hfRunner eos next) scheduler (Remembered (cacheMemory eos next))
      (Greedy eos next) where
  arrive {s req} _ memory greedy _ _ fresh := by
    have cached := memory.arrive fresh
    refine ⟨greedy.running, fun seq member => ?_, greedy.finished, greedy.caches, cached.waiting,
      cached.unseen⟩
    rcases List.mem_append.mp member with member | member
    · exact greedy.waiting seq member
    · rw [List.mem_singleton.mp member]
      exact onTrack_fresh req
  schedule ok memory greedy idle serving := greedy.schedule _ memory ok idle serving
  forward ok memory greedy inFlight pending computed :=
    greedy.forward memory ok inFlight pending computed
  results ok memory greedy inFlight outcome _ spec := greedy.results memory ok inFlight outcome spec
  failed ok memory greedy inFlight outcome := greedy.failed memory ok inFlight outcome
  deviceLost _ _ greedy _ _ := ⟨greedy.running, greedy.waiting, greedy.finished,
    (fun serving => by cases serving), greedy.empty, greedy.unseen⟩
  abortAll ok memory greedy _ _ := greedy.abortAll memory ok

theorem greedy {allocator : α} {s : EngineState α Caches}
    (reachable : (loop (hfRunner eos next) scheduler allocator fun _ => []).Reachable s) :
    Greedy eos next s :=
  greedyRule.reachable (fun _ before => remembered (cacheMemory eos next) (fun _ => rfl) before)
    ⟨(List.forall_mem_nil _), (List.forall_mem_nil _),
      (List.forall_mem_nil _), (fun _ => List.forall_mem_nil _),
      (List.forall_mem_nil _), fun _ _ => rfl⟩ reachable

/-- Whatever the pool, the budget, the scheduler and the allocator, and however the request was
chunked, preempted and batched with others, it generates what its prompt generates alone. -/
theorem output_eq_reference (eos : List Token) (next : List Token → Token) (scheduler : Scheduler)
    (allocator : α) {s : EngineState α Caches}
    (reachable : (loop (hfRunner eos next) scheduler allocator fun _ => []).Reachable s) :
    (∀ seq ∈ s.running ++ s.waiting, seq.generatedTokens <+: reference eos next seq) ∧
      ∀ seq ∈ s.ended, .terminal .done ∈ itemsFor seq.seqId s.callbacks →
        seq.generatedTokens = reference eos next seq ∧
        itemsFor seq.seqId s.callbacks =
          (reference eos next seq).map .token ++ [.terminal .done] := by
  have track := greedy reachable
  refine ⟨fun seq member => ?_, fun seq member done => ?_⟩
  · rcases List.mem_append.mp member with member | member
    · exact (track.running seq member).isPrefix
    · exact (track.waiting seq member).isPrefix
  · have closed := (delivered reachable).ended seq member
    rw [closed, List.mem_append] at done
    have terminal : terminalOf seq = .done := by simpa [eq_comm] using done
    have finished : seq.metrics.doneTime ≠ none := by
      intro none
      simp [terminalOf, none] at terminal
    have whole := track.finished seq member finished
    exact ⟨whole, by rw [closed, whole, terminal]⟩

theorem output_eq_reference_sample :
    (hfRun 4).waiting.map (·.generatedTokens) = [[2, 3, 4]] ∧
    (hfRun 8).ended.map (·.generatedTokens) = [[3, 4, 5, 6], [2, 3, 4, 5]] ∧
    ∀ seq ∈ (hfRun 8).ended, .terminal .done ∈ itemsFor seq.seqId (hfRun 8).callbacks →
      seq.generatedTokens = reference [] List.length seq ∧
      itemsFor seq.seqId (hfRun 8).callbacks =
        (reference [] List.length seq).map .token ++ [.terminal .done] :=
  ⟨by decide +kernel, by decide +kernel,
    (output_eq_reference [] List.length _ _ (hfRun_reachable 8).1).2⟩

end LlmServing.Engine
