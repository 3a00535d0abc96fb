import LlmServing.Contiguous.Reservation
import LlmServing.Engine.Memory
import LlmServing.Runner.Contiguous

/-!
# The buffers of the contiguous cache

Each is as large as its sequence's reservation, and is filled by the tokens its block table counts.
-/

namespace LlmServing.Contiguous

open Scheduling Runner Engine Lib
open ContiguousAllocator (reservation)

def bufferOf (buf : Option KvBuffer) (seq : Sequence) : KvBuffer := buf.getD (.empty seq)

structure Buffered (buf : Option KvBuffer) (seq : Sequence) (n : Nat) : Prop where
  capacity : (bufferOf buf seq).capacity = reservation seq
  tokens : (bufferOf buf seq).tokens = seq.tokens.take n

theorem Buffered.filled {buf : Option KvBuffer} {seq : Sequence} {n : Nat}
    (buffered : Buffered buf seq n) (le : n ≤ seq.numTokens) : (bufferOf buf seq).filled = n := by
  rw [KvBuffer.filled, buffered.tokens, List.length_take, Sequence.length_tokens,
    Nat.min_eq_left le]

variable {layers layer : Nat} {eosTokenIds : List Token} {plan : BatchPlan} {seqs : List Sequence}
  {entry : BatchEntry} {seq : Sequence} {before after : Buffers}

theorem attended_buffered {pairs : List (BatchEntry × Sequence)}
    {before after : SeqId → Option KvBuffer} (attended : Attended pairs before after)
    (member : (entry, seq) ∈ pairs) (ok : RunningOk (some entry) seq)
    (buffered : Buffered (before seq.seqId) seq (cachedBefore entry seq)) :
    ∃ buf, after seq.seqId = some buf ∧ Buffered (some buf) seq seq.blockTable.numTokens := by
  obtain ⟨buf, wrote, same⟩ := attended.written _ member
  obtain ⟨-, capacity, tokens⟩ := KvBuffer.write_some wrote
  refine ⟨buf, same, capacity.trans buffered.capacity, tokens.trans ?_⟩
  have filled := buffered.tokens
  unfold bufferOf at filled
  rw [filled, ok.entryTokenIds]
  exact Sequence.take_append_slice _ _ _ (Nat.sub_le _ _)

theorem Buffered.congr {buf : Option KvBuffer} {seq' : Sequence} {n : Nat}
    (buffered : Buffered buf seq n) (prompt : seq'.promptTokens = seq.promptTokens)
    (params : seq'.samplingParams = seq.samplingParams)
    (tokens : seq'.tokens.take n = seq.tokens.take n) : Buffered buf seq' n := by
  obtain ⟨capacity, filled⟩ := buffered
  have same : KvBuffer.empty seq' = KvBuffer.empty seq := by
    simp only [KvBuffer.empty, prompt, params]
  constructor
  · simp only [bufferOf, same, reservation, prompt, params] at capacity ⊢
    exact capacity
  · simp only [bufferOf, same] at filled ⊢
    rw [filled, tokens]

theorem free_buffers (buffers : Buffers) (freed id : SeqId) :
    (fun layer => (contiguousRunner layers eosTokenIds).free freed buffers layer id) =
      if id = freed then fun _ => none else fun layer => buffers layer id := by
  funext layer
  by_cases same : id = freed
  · simp [contiguousRunner, same]
  · simp [contiguousRunner, same]

theorem forward_others {outcome : Outcome}
    (computed : (contiguousRunner layers eosTokenIds).forward plan seqs before outcome after)
    (ok : BatchOk plan seqs) (id : SeqId) (absent : id ∉ plan.ids) (layer : Nat) :
    after layer id = before layer id := by
  cases outcome with
  | results results =>
      obtain ⟨attended, same⟩ := forwardContiguous_attended ok.distinct ok.sizes computed.1
      by_cases below : layer < layers
      · exact (attended layer below).others id (map_seqId_batch ok.present ▸ absent)
      · rw [same layer (Nat.le_of_not_lt below)]
  | failed | deviceLost => exact computed layer id absent

theorem forward_fed {results : IterationResults}
    (computed : (contiguousRunner layers eosTokenIds).forward plan seqs before (.results results)
      after)
    (ok : BatchOk plan seqs) (member : (entry, seq) ∈ batch plan seqs) (below : layer < layers)
    (buffered : Buffered (before layer seq.seqId) seq (cachedBefore entry seq)) :
    Buffered (after layer seq.seqId) seq seq.blockTable.numTokens := by
  obtain ⟨attended, -⟩ := forwardContiguous_attended ok.distinct ok.sizes computed.1
  obtain ⟨buf, same, fed⟩ := attended_buffered (attended layer below) member
    (ok.bookkept _ member) buffered
  rw [same]
  exact fed

def bufferMemory (layers : Nat) (eosTokenIds : List Token) :
    Memory (contiguousRunner layers eosTokenIds) (Nat → Option KvBuffer) where
  view buffers id layer := buffers layer id
  clear _ := none
  Holds memory seq n := ∀ layer < layers, Buffered (memory layer) seq n
  view_free := free_buffers
  others computed ok id absent := funext (forward_others computed ok id absent)
  fed computed ok member holds layer below :=
    forward_fed computed ok member below (holds layer below)
  holds_clear _ _ _ := ⟨rfl, List.take_zero.symm⟩
  holds_congr holds prompt params tokens layer below :=
    (holds layer below).congr prompt params tokens

variable {capacity : Nat} {scheduler : Scheduler}

theorem buffered_before {s : EngineState ContiguousAllocator Buffers}
    (ok : Consistent (contiguousRunner layers eosTokenIds) s)
    (remembered : Remembered (bufferMemory layers eosTokenIds) s) {flight : InFlight}
    (inFlight : s.inFlight = some flight) (pending : flight.outcome = none) (below : layer < layers)
    (member : (entry, seq) ∈ batch flight.plan flight.seqs) :
    Buffered (s.runner layer seq.seqId) seq (cachedBefore entry seq) := by
  obtain ⟨running, -, found⟩ := mem_flight_batch ok inFlight member
  have here := remembered.running (ok.serving_of_flight inFlight) seq running
  rw [inFlight] at here
  simp only [MemoryOk, pending, found] at here
  exact here layer below

theorem roomed_before {s : EngineState ContiguousAllocator Buffers}
    (ok : Consistent (contiguousRunner layers eosTokenIds) s)
    (remembered : Remembered (bufferMemory layers eosTokenIds) s)
    (reservations : Reservations capacity s) {flight : InFlight}
    (inFlight : s.inFlight = some flight) (pending : flight.outcome = none)
    (below : layer < layers) :
    ∀ pair ∈ batch flight.plan flight.seqs, Roomed (s.runner layer) pair := by
  rintro ⟨entry, seq⟩ member
  have buffered := buffered_before ok remembered inFlight pending below member
  have bookkept : RunningOk (some entry) seq := (ok.batchOk inFlight).bookkept _ member
  have inside := reservations.inside seq (mem_flight_batch ok inFlight member).1
  have fed := bookkept.nTokens_le
  have filled := buffered.filled ((Nat.sub_le _ _).trans bookkept.numTokens_le)
  show (bufferOf (s.runner layer seq.seqId) seq).filled + (entryTokenIds entry seq).length ≤
    (bufferOf (s.runner layer seq.seqId) seq).capacity
  rw [filled, buffered.capacity, (ok.batchOk inFlight).sizes _ member, cachedBefore]
  show seq.blockTable.numTokens - entry.nTokens + entry.nTokens ≤ reservation seq
  omega

/-- With any model runner the slots of a running sequence are reserved for its whole lifetime. On
the fused path they are those of its buffers, and no layer writes past them. -/
theorem reservation_sufficient (capacity : Nat) (scheduler : Scheduler) :
    (∀ {ρ : Type} {runner : ModelRunner ρ} {start : ρ} {s : EngineState ContiguousAllocator ρ},
      (loop runner scheduler { capacityTokens := capacity } start).Reachable s →
      s.allocator.capacityTokens = capacity ∧
      s.allocator.usedTokens = reservedBy s.running ∧ s.allocator.usedTokens ≤ capacity ∧
      (∀ seq ∈ s.running, seq.blockTable.reservedTokens =
          seq.promptTokens.length + seq.samplingParams.maxTokens ∧
        seq.blockTable.numTokens ≤ seq.blockTable.reservedTokens ∧
        ∀ (a : ContiguousAllocator) (n reserve : Nat), allocate a seq n reserve ≠ none) ∧
      (∀ seq ∈ s.waiting, seq.blockTable.reservedTokens = 0) ∧
      ∀ now, (planned scheduler now s).plan.preempted = []) ∧
    ∀ {layers : Nat} {eosTokenIds : List Token} {s : EngineState ContiguousAllocator Buffers}
      {flight : InFlight},
      (loop (contiguousRunner layers eosTokenIds) scheduler { capacityTokens := capacity }
        fun _ _ => none).Reachable s →
      s.inFlight = some flight → flight.outcome = none →
      ∃ after, forwardContiguous layers flight.plan flight.seqs s.runner = some after ∧
        ∀ layer < layers, ∀ entry seq, (entry, seq) ∈ batch flight.plan flight.seqs →
          (bufferOf (s.runner layer seq.seqId) seq).filled + entry.nTokens ≤
            (bufferOf (s.runner layer seq.seqId) seq).capacity ∧
          ∃ buf, after layer seq.seqId = some buf ∧
            buf.capacity = seq.promptTokens.length + seq.samplingParams.maxTokens ∧
            buf.filled = seq.blockTable.numTokens := by
  constructor
  · intro ρ runner start s reachable
    have kept := reservations reachable
    refine ⟨kept.accounted.size, kept.accounted.used, kept.accounted.fits, fun seq member => ?_,
      kept.waiting, fun now => (kept.planned scheduler now (consistent reachable)).2.2⟩
    have reserved := kept.running seq member
    refine ⟨reserved, reserved ▸ kept.inside seq member, fun a n reserve => ?_⟩
    rw [allocate_reserved (reserved ▸ (reservation_pos seq).ne')]
    exact Option.some_ne_none _
  · intro layers eosTokenIds s flight reachable inFlight pending
    have ok := consistent reachable
    have kept := remembered (bufferMemory layers eosTokenIds) (fun _ => rfl) reachable
    have roomed (layer : Nat) (below : layer < layers) :=
      roomed_before ok kept (reservations reachable) inFlight pending below
    have distinct := (ok.batchOk inFlight).distinct
    have sizes := (ok.batchOk inFlight).sizes
    obtain ⟨after, computed⟩ := exists_forwardContiguous distinct sizes roomed
    obtain ⟨attended, -⟩ := forwardContiguous_attended distinct sizes computed
    refine ⟨after, computed, fun layer below entry seq member => ⟨?_, ?_⟩⟩
    · have room := roomed layer below _ member
      rwa [Roomed, sizes _ member] at room
    · have bookkept : RunningOk (some entry) seq := (ok.batchOk inFlight).bookkept _ member
      obtain ⟨buf, same, buffered⟩ := attended_buffered (attended layer below) member bookkept
        (buffered_before ok kept inFlight pending below member)
      exact ⟨buf, same, buffered.capacity, buffered.filled bookkept.numTokens_le⟩

def sampleWaiting : EngineState ContiguousAllocator Buffers :=
  { allocator := { capacityTokens := 16 }
    runner := fun _ _ => none
    waiting := [sequenceFromIngress (sampleRequest 0 5 [6, 7] 2)] }

def samplePlanned : EngineState ContiguousAllocator Buffers :=
  Engine.schedule (contiguousRunner 2 []) sampleScheduler 0 sampleWaiting

theorem samplePlanned_reachable :
    (loop (contiguousRunner 2 []) sampleScheduler { capacityTokens := 16 }
      fun _ _ => none).Reachable samplePlanned := by
  have start : Step (contiguousRunner 2 []) sampleScheduler
      { allocator := { capacityTokens := 16 }, runner := fun _ _ => none }
      (.arrive (sampleRequest 0 5 [6, 7] 2)) sampleWaiting := .arrive rfl nofun nofun
  exact .next (.next (.initial rfl) start) (Step.schedule rfl rfl)

theorem samplePlanned_inFlight : samplePlanned.inFlight =
    some ⟨{ entries := [⟨0, 3, true⟩] }, samplePlanned.running, none⟩ := by decide +kernel

theorem reservation_sufficient_sample :
    samplePlanned.allocator.usedTokens = reservedBy samplePlanned.running ∧
    ∃ flight after, samplePlanned.inFlight = some flight ∧
      forwardContiguous 2 flight.plan flight.seqs samplePlanned.runner = some after := by
  have spec := reservation_sufficient 16 sampleScheduler
  obtain ⟨after, computed, -⟩ := spec.2 samplePlanned_reachable samplePlanned_inFlight rfl
  exact ⟨(spec.1 samplePlanned_reachable).2.1, _, after, samplePlanned_inFlight, computed⟩

end LlmServing.Contiguous
