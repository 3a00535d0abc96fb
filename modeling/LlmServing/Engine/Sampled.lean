import LlmServing.Engine.Reference

/-!
# What was generated

If every result in flight was drawn from what its sequence had so far, then so was every token of every
sequence, in order, and each stops where it should. For a runner whose draws leave no choice this is the
generation of the request alone.
-/

namespace LlmServing.Engine

open Scheduling Runner Lib

variable {α ρ : Type} (eos : List Token) (likely : SamplingParams → List Token → Token → Prop)

def Drawn (seq : Sequence) : Prop :=
  ∀ (i : Nat) (token : Token), seq.generatedTokens[i]? = some token →
    likely seq.samplingParams (seq.promptTokens ++ seq.generatedTokens.take i) token

def Unfinished (seq : Sequence) : Prop :=
  seq.metrics.doneTime = none ∧ seq.generatedTokens.length < seq.samplingParams.maxTokens ∧
    ∀ token ∈ seq.generatedTokens, token ∉ eos

def Finished (seq : Sequence) : Prop :=
  seq.metrics.doneTime ≠ none ∧ ∃ earlier last, seq.generatedTokens = earlier ++ [last] ∧
    earlier.length < seq.samplingParams.maxTokens ∧ (∀ token ∈ earlier, token ∉ eos) ∧
    (last ∈ eos ∨ earlier.length + 1 = seq.samplingParams.maxTokens)

structure Genuine (s : EngineState α ρ) : Prop where
  running : ∀ seq ∈ s.running, Drawn likely seq ∧ Unfinished eos seq
  waiting : ∀ seq ∈ s.waiting, Drawn likely seq ∧ Unfinished eos seq
  ended : ∀ seq ∈ s.ended, Drawn likely seq ∧ (Unfinished eos seq ∨ Finished eos seq)

def FlightDrawn (s : EngineState α ρ) : Prop :=
  ∀ flight, s.inFlight = some flight → ∀ results, flight.outcome = some (.results results) →
    ∀ result ∈ results, ∃ seq ∈ s.running, ∃ token, result = emitToken eos seq token ∧
      likely seq.samplingParams seq.tokens token

variable {eos likely}

theorem Drawn.token {seq : Sequence} (drawn : Drawn likely seq) {token : Token}
    (sampled : likely seq.samplingParams seq.tokens token) (now : Time) (finished : Bool) :
    Drawn likely (recordToken now token finished seq) := by
  intro i other here
  have grown : (recordToken now token finished seq).generatedTokens =
      seq.generatedTokens ++ [token] := rfl
  rw [grown] at here ⊢
  by_cases old : i < seq.generatedTokens.length
  · rw [List.getElem?_append_left old] at here
    rw [List.take_append_of_le_length old.le]
    exact drawn i other here
  · rw [List.getElem?_append_right (Nat.le_of_not_lt old)] at here
    obtain ⟨inside, same⟩ := List.getElem?_eq_some_iff.mp here
    have here : i = seq.generatedTokens.length := by
      simp only [List.length_singleton] at inside
      omega
    subst here
    rw [List.take_left]
    simp only [Nat.sub_self, List.getElem_cons_zero] at same
    exact same ▸ sampled

theorem Unfinished.token {seq : Sequence} (unfinished : Unfinished eos seq) (now : Time)
    {token : Token} (more : token ∉ eos)
    (room : seq.generatedTokens.length + 1 < seq.samplingParams.maxTokens) :
    Unfinished eos (recordToken now token false seq) := by
  obtain ⟨undone, -, running⟩ := unfinished
  have grown : (recordToken now token false seq).generatedTokens =
      seq.generatedTokens ++ [token] := rfl
  refine ⟨undone, by rw [grown, List.length_append]; exact room, fun other member => ?_⟩
  rw [grown] at member
  rcases List.mem_append.mp member with member | member
  · exact running other member
  · rw [List.mem_singleton.mp member]
    exact more

theorem Unfinished.finished {seq : Sequence} (unfinished : Unfinished eos seq) (now : Time)
    {token : Token} (table : BlockTable)
    (last : token ∈ eos ∨ seq.samplingParams.maxTokens ≤ seq.generatedTokens.length + 1) :
    Finished eos { recordToken now token true seq with blockTable := table } := by
  obtain ⟨-, room, running⟩ := unfinished
  refine ⟨nofun, seq.generatedTokens, token, rfl, room, running, last.imp_right fun full => ?_⟩
  exact Nat.le_antisymm room full

theorem fresh_drawn (req : IngressRequest) :
    Drawn likely (sequenceFromIngress req) ∧ Unfinished eos (sequenceFromIngress req) :=
  ⟨fun _ _ here => (nomatch here), rfl, req.samplingParams.maxTokens_pos, List.forall_mem_nil _⟩

variable [KVAllocator α] {runner : ModelRunner ρ} {scheduler : Scheduler}

theorem generating (eos : List Token) (likely : SamplingParams → List Token → Token → Prop)
    (scheduler : Scheduler) (now : Time) :
    PlanRule (α := α) scheduler now (fun _ => True)
      (fun _ _ seq => Drawn likely seq ∧ Unfinished eos seq)
      (fun _ seq => Drawn likely seq ∧ Unfinished eos seq) where
  grant _ _ := trivial
  release _ := trivial
  decode _ _ ok _ := ok
  preempt _ ok := ok
  «continue» _ _ ok _ _ := ok
  admission _ ok _ _ _ := ok
  skip ok := ok

theorem genuine_released {seqs : List Sequence} {s : EngineState α ρ}
    (ok : ∀ seq ∈ seqs, Drawn likely seq ∧ Unfinished eos seq) {seq : Sequence}
    (member : seq ∈ (released seqs s).finished) :
    Drawn likely seq ∧ (Unfinished eos seq ∨ Finished eos seq) := by
  obtain ⟨source, found, a, rfl⟩ := released_finished member
  obtain ⟨drawn, unfinished⟩ := ok source found
  exact ⟨drawn, .inl unfinished⟩

omit [KVAllocator α] in
theorem FlightDrawn.applied {s : EngineState α ρ} (drawn : FlightDrawn eos likely s)
    (ok : Consistent runner s) {flight : InFlight} (inFlight : s.inFlight = some flight)
    {results : IterationResults} (outcome : flight.outcome = some (.results results))
    {seq : Sequence} (member : seq ∈ s.running) {token : Token} {finished : Bool}
    (named : (seq.seqId, token, finished) ∈ results) :
    likely seq.samplingParams seq.tokens token ∧ (finished = true ↔
      token ∈ eos ∨ seq.samplingParams.maxTokens ≤ seq.generatedTokens.length + 1) := by
  obtain ⟨other, running, sampled, same, law⟩ := drawn flight inFlight results outcome _ named
  simp only [emitToken, Prod.mk.injEq] at same
  obtain ⟨id, rfl, rfl⟩ := same
  obtain rfl := List.inj_on_of_nodup_map ok.running_distinct member running id
  exact ⟨law, decide_eq_true_iff⟩

theorem genuineRule :
    LoopRule (α := α) runner scheduler (FlightDrawn eos likely) (Genuine eos likely) where
  arrive {s req} _ _ genuine _ _ _ := by
    refine ⟨genuine.running, fun seq member => ?_, genuine.ended⟩
    rcases List.mem_append.mp member with member | member
    · exact genuine.waiting seq member
    · rw [List.mem_singleton.mp member]
      exact fresh_drawn req
  schedule {s now} ok _ genuine _ _ := by
    have holds := ok.holds (generating (α := α) eos likely scheduler now) trivial genuine.running
      genuine.waiting
    refine ⟨fun seq member => ?_, fun seq member => ?_, fun seq member => ?_⟩
    · rw [schedule_running _ _ _ ok.live_distinct] at member
      exact holds.running seq member
    · rw [schedule_waiting] at member
      exact holds.waiting seq member
    · rw [schedule_ended] at member
      rcases List.mem_append.mp member with member | member
      · exact genuine.ended seq member
      · exact genuine_released holds.rejected member
  forward _ _ genuine _ _ _ := ⟨genuine.running, genuine.waiting, genuine.ended⟩
  results {s now flight results folded} ok drawn genuine inFlight outcome _ spec := by
    refine ⟨fun seq member => ?_, genuine.waiting, fun seq member => ?_⟩
    · obtain ⟨source, found, left⟩ := spec.running_source member
      rcases left with ⟨-, rfl⟩ | ⟨token, named, rfl⟩
      · exact genuine.running _ found
      · obtain ⟨law, last⟩ := drawn.applied ok inFlight outcome found named
        obtain ⟨before, unfinished⟩ := genuine.running source found
        have more := mt last.mpr Bool.false_ne_true
        rw [not_or, Nat.not_le] at more
        exact ⟨before.token law now false, unfinished.token now more.1 more.2⟩
    · rcases List.mem_append.mp member with member | member
      · exact genuine.ended seq member
      · rcases spec.finished seq member with member | ⟨source, found, token, a, named, rfl⟩
        · cases member
        · obtain ⟨law, last⟩ := drawn.applied ok inFlight outcome found named
          obtain ⟨before, unfinished⟩ := genuine.running source found
          exact ⟨before.token law now true, .inr (unfinished.finished now _ (last.mp rfl))⟩
  failed {s flight} ok _ genuine inFlight _ := by
    have flightOk := ok.flight flight inFlight
    refine ⟨fun seq member => ?_, genuine.waiting, fun seq member => ?_⟩
    · rw [failed_running ok inFlight] at member
      exact genuine.running seq (List.mem_of_mem_filter member)
    · rcases List.mem_append.mp member with member | member
      · exact genuine.ended seq member
      · exact genuine_released (fun other named =>
          genuine.running other (mem_failedBatch flightOk named)) member
  deviceLost _ _ genuine _ _ := ⟨genuine.running, genuine.waiting, genuine.ended⟩
  abortAll {s} ok _ genuine _ _ := by
    refine ⟨fun seq member => ?_, List.forall_mem_nil _, fun seq member => ?_⟩
    · rw [abortAll_running ok] at member
      cases member
    · rcases List.mem_append.mp member with member | member
      · exact genuine.ended seq member
      · refine genuine_released (fun other named => ?_) member
        rcases List.mem_append.mp named with named | named
        · exact genuine.running other named
        · exact genuine.waiting other named

omit [KVAllocator α] in
theorem genuine_start {allocator : α} {start : ρ} :
    Genuine eos likely { allocator, runner := start } :=
  ⟨List.forall_mem_nil _, List.forall_mem_nil _, List.forall_mem_nil _⟩

def Draws (eos : List Token) (likely : SamplingParams → List Token → Token → Prop)
    (runner : ModelRunner ρ) (J : EngineState α ρ → Prop) : Prop :=
  ∀ (s : EngineState α ρ) (flight : InFlight) (results : IterationResults) (after : ρ),
    Consistent runner s → J s → s.inFlight = some flight → flight.outcome = none →
    runner.forward flight.plan flight.seqs s.runner (.results results) after →
    ∀ result ∈ results, ∃ seq ∈ s.running, ∃ token, result = emitToken eos seq token ∧
      likely seq.samplingParams seq.tokens token

omit [KVAllocator α] in
theorem flightDrawn_idle {s : EngineState α ρ} (idle : s.inFlight = none) :
    FlightDrawn eos likely s := by
  intro flight inFlight
  cases idle.symm.trans inFlight

theorem flightDrawnRule {J : EngineState α ρ → Prop} (draws : Draws eos likely runner J) :
    LoopRule runner scheduler J (FlightDrawn eos likely) where
  arrive _ _ _ idle _ _ := flightDrawn_idle idle
  schedule {s now} _ _ _ idle _ := by
    intro flight inFlight results outcome
    obtain ⟨-, rfl⟩ := schedule_inFlight _ scheduler now idle inFlight
    cases outcome
  forward ok known _ inFlight pending computed := by
    rintro _ ⟨rfl⟩ results ⟨rfl⟩ result member
    exact draws _ _ _ _ ok known inFlight pending computed result member
  results _ _ _ _ _ _ _ := flightDrawn_idle rfl
  failed _ _ _ _ _ := flightDrawn_idle rfl
  deviceLost _ _ _ _ _ := flightDrawn_idle rfl
  abortAll _ _ _ _ _ := flightDrawn_idle rfl

theorem genuine_reachable {J : EngineState α ρ → Prop} (draws : Draws eos likely runner J)
    {allocator : α} {start : ρ}
    (known : ∀ s, (loop runner scheduler allocator start).Reachable s → J s) {s : EngineState α ρ}
    (reachable : (loop runner scheduler allocator start).Reachable s) : Genuine eos likely s :=
  genuineRule.reachable
    (fun _ reachable => (flightDrawnRule draws).reachable known (flightDrawn_idle rfl) reachable)
    genuine_start reachable

variable {next : List Token → Token}

theorem Drawn.chain {seq : Sequence} (drawn : Drawn likely seq)
    (only : ∀ tokens token, likely seq.samplingParams tokens token → token = next tokens)
    (i : Nat) (token : Token) (here : seq.generatedTokens[i]? = some token) :
    token = next (seq.promptTokens ++ seq.generatedTokens.take i) := only _ _ (drawn i token here)

theorem Unfinished.isPrefix {seq : Sequence} (unfinished : Unfinished eos seq)
    (drawn : Drawn likely seq)
    (only : ∀ tokens token, likely seq.samplingParams tokens token → token = next tokens) :
    seq.generatedTokens <+: reference eos next seq := by
  obtain ⟨-, room, running⟩ := unfinished
  have whole := generate_of_chain (· ∈ eos)
    (seq.samplingParams.maxTokens - seq.generatedTokens.length) (drawn.chain only)
    fun token member => by simpa using running token member
  rw [Nat.sub_add_cancel room.le] at whole
  rw [reference, whole]
  exact prefix_generate _ _

theorem Finished.eq_reference {seq : Sequence} (finished : Finished eos seq)
    (drawn : Drawn likely seq)
    (only : ∀ tokens token, likely seq.samplingParams tokens token → token = next tokens) :
    seq.generatedTokens = reference eos next seq := by
  obtain ⟨-, earlier, last, grown, room, running, stops⟩ := finished
  have chain := drawn.chain only
  rw [grown] at chain ⊢
  have newest := chain earlier.length last (by simp)
  rw [List.take_left] at newest
  have left : seq.samplingParams.maxTokens =
      seq.samplingParams.maxTokens - (earlier.length + 1) + 1 + earlier.length := by omega
  have each : ∀ (i : Nat) (token : Token), earlier[i]? = some token →
      token = next (seq.promptTokens ++ earlier.take i) := by
    intro i token here
    have inside := (List.getElem?_eq_some_iff.mp here).1
    have same := chain i token (by rw [List.getElem?_append_left inside, here])
    rwa [List.take_append_of_le_length inside.le] at same
  have before := generate_of_chain (· ∈ eos) (seq.samplingParams.maxTokens - (earlier.length + 1) + 1)
    each fun token member => by simpa using running token member
  rw [reference, left, before, generate_stop newest]
  refine stops.imp (fun stop => by simpa using stop) fun full => ?_
  omega

omit [KVAllocator α] in
theorem Genuine.reference {s : EngineState α ρ} (genuine : Genuine eos likely s) {seq : Sequence}
    (member : seq ∈ s.running ++ s.waiting ++ s.ended)
    (only : ∀ tokens token, likely seq.samplingParams tokens token → token = next tokens) :
    seq.generatedTokens <+: Engine.reference eos next seq ∧
      (seq.metrics.doneTime ≠ none → seq.generatedTokens = Engine.reference eos next seq) := by
  have each : Drawn likely seq ∧ (Unfinished eos seq ∨ Finished eos seq) := by
    rcases List.mem_append.mp member with live | ended
    · rcases List.mem_append.mp live with running | waiting
      · exact (genuine.running seq running).imp_right .inl
      · exact (genuine.waiting seq waiting).imp_right .inl
    · exact genuine.ended seq ended
  obtain ⟨drawn, unfinished | finished⟩ := each
  · exact ⟨unfinished.isPrefix drawn only, fun done => absurd unfinished.1 done⟩
  · have whole := finished.eq_reference drawn only
    exact ⟨whole ▸ List.prefix_rfl, fun _ => whole⟩

end LlmServing.Engine
