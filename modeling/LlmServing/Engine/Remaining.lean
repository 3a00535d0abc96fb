import LlmServing.Engine.Consistent

/-!
# Tokens left to generate

A live request has fewer tokens than its `max_tokens`: the runner finishes it with the last one.
-/

namespace LlmServing.Engine

open Scheduling Runner Lib

variable {α ρ : Type} [KVAllocator α] {runner : ModelRunner ρ} {scheduler : Scheduler}

theorem mem_emitTokens {eosTokenIds : List Token} {seqs : List Sequence} {tokens : List Token}
    {result : SeqId × Token × Bool} (member : result ∈ emitTokens eosTokenIds seqs tokens) :
    ∃ seq ∈ seqs, ∃ token ∈ tokens, result = emitToken eosTokenIds seq token := by
  induction seqs generalizing tokens with
  | nil => cases member
  | cons seq rest ih =>
      cases tokens with
      | nil => cases member
      | cons token tokens =>
          rcases List.mem_cons.mp member with rfl | member
          · exact ⟨seq, by simp, token, by simp, rfl⟩
          · obtain ⟨other, found, token', named, same⟩ := ih member
            exact ⟨other, by simp [found], token', by simp [named], same⟩

omit [KVAllocator α] in
theorem Consistent.emitted {s : EngineState α ρ} (ok : Consistent runner s) {flight : InFlight}
    (inFlight : s.inFlight = some flight) {results : IterationResults}
    (outcome : flight.outcome = some (.results results)) {seq : Sequence}
    (member : seq ∈ s.running) {result : SeqId × Token × Bool} (named : result ∈ results)
    (same : result.1 = seq.seqId) :
    ∃ token, result = emitToken runner.eosTokenIds seq token := by
  have flightOk := ok.flight flight inFlight
  obtain ⟨tokens, -, rfl⟩ := flightOk.emitted results outcome
  obtain ⟨other, found, token, -, rfl⟩ := mem_emitTokens named
  obtain ⟨⟨entry, _⟩, kept, rfl⟩ := List.mem_map.mp found
  obtain ⟨running, -, -⟩ := mem_flight_batch ok inFlight (List.mem_of_mem_filter kept)
  obtain rfl := List.inj_on_of_nodup_map ok.running_distinct running member same
  exact ⟨token, rfl⟩

def TokensLeft (seq : Sequence) : Prop :=
  seq.generatedTokens.length < seq.samplingParams.maxTokens

omit [KVAllocator α] in
theorem Consistent.unfinished {s : EngineState α ρ} (ok : Consistent runner s) {flight : InFlight}
    (inFlight : s.inFlight = some flight) {results : IterationResults}
    (outcome : flight.outcome = some (.results results)) {seq : Sequence}
    (member : seq ∈ s.running) {token : Token} (named : (seq.seqId, token, false) ∈ results)
    (now : Time) : TokensLeft (recordToken now token false seq) := by
  obtain ⟨sampled, same⟩ := ok.emitted inFlight outcome member named rfl
  simp only [emitToken, Prod.mk.injEq] at same
  have more := of_decide_eq_false same.2.2.symm
  simp only [TokensLeft, recordToken, List.length_append, List.length_singleton]
  omega

theorem tokensLeft_planned (scheduler : Scheduler) (now : Time) :
    PlanRule (α := α) scheduler now (fun _ => True) (fun _ _ => TokensLeft) (fun _ => TokensLeft) where
  grant _ _ := trivial
  release _ := trivial
  decode _ _ left _ := left
  preempt _ left := left
  «continue» _ _ left _ _ := left
  admission _ left _ _ _ := left
  skip left := left

def Unspent (s : EngineState α ρ) : Prop := ∀ seq ∈ s.running ++ s.waiting, TokensLeft seq

theorem Unspent.planned (scheduler : Scheduler) (now : Time) {s : EngineState α ρ} (ok : Consistent runner s)
    (unspent : Unspent s) : (planned scheduler now s).Holds (fun _ => True) (fun _ _ => TokensLeft)
      (fun _ => TokensLeft) :=
  ok.holds (tokensLeft_planned scheduler now) trivial
    (fun seq member => unspent seq (List.mem_append_left _ member))
    fun seq member => unspent seq (List.mem_append_right _ member)

theorem unspentRule :
    LoopRule runner scheduler (fun _ => True) (Unspent (α := α) (ρ := ρ)) where
  arrive {s req} _ _ unspent _ _ _ := by
    intro seq member
    rw [← List.append_assoc] at member
    rcases List.mem_append.mp member with member | member
    · exact unspent seq member
    · rw [List.mem_singleton.mp member]
      exact req.samplingParams.maxTokens_pos
  schedule {s now} ok _ unspent _ _ := by
    have holds := unspent.planned scheduler now ok
    intro seq member
    rw [schedule_running _ _ _ ok.live_distinct, schedule_waiting] at member
    rcases List.mem_append.mp member with member | member
    · exact holds.running seq member
    · exact holds.waiting seq member
  forward _ _ unspent _ _ _ := unspent
  results ok _ unspent inFlight outcome _ spec := by
    intro seq member
    rcases List.mem_append.mp member with member | member
    · obtain ⟨source, found, ⟨-, rfl⟩ | ⟨token, named, rfl⟩⟩ := spec.running_source member
      · exact unspent _ (List.mem_append_left _ found)
      · exact ok.unfinished inFlight outcome found named _
    · exact unspent seq (List.mem_append_right _ member)
  failed ok _ unspent inFlight _ := by
    intro seq member
    rcases List.mem_append.mp member with member | member
    · rw [failed_running ok inFlight] at member
      exact unspent seq (List.mem_append_left _ (List.mem_of_mem_filter member))
    · exact unspent seq (List.mem_append_right _ member)
  deviceLost _ _ unspent _ _ := unspent
  abortAll ok _ _ _ _ := by
    intro seq member
    rw [abortAll_running ok] at member
    cases member

theorem unspent {allocator : α} {start : ρ} {s : EngineState α ρ}
    (reachable : (loop runner scheduler allocator start).Reachable s) : Unspent s :=
  unspentRule.reachable (fun _ _ => trivial) (List.forall_mem_nil _) reachable

end LlmServing.Engine
