import LlmServing.Decoder.Contiguous
import LlmServing.Engine.Iteration

/-!
# Contiguous decoding over whole runs

The engine without a pool: every iteration has room for its rows, and every token comes from the logits
that its own sequence's tokens have alone.
-/

namespace LlmServing.Decoder

open Scheduling Runner Engine Lib
open ContiguousAllocator (reservation)
open Paged (spans)

variable {m : Modules} {softmax : Softmax m.vocab} {sort : Descending m.vocab} {eos : List Token}

section

variable {α : Type} {s : EngineState α (CellBuffers m)} {flight : InFlight} {entry : BatchEntry}
  {seq : Sequence}

theorem buffered_before (ok : Consistent (contiguousDecoder m softmax sort eos) s)
    (remembered : Remembered (cellMemory m softmax sort eos) s) (inFlight : s.inFlight = some flight)
    (pending : flight.outcome = none) (member : (entry, seq) ∈ batch flight.plan flight.seqs) :
    Buffered m (s.runner · seq.seqId) seq (cachedBefore entry seq) := by
  obtain ⟨running, -, found⟩ := mem_flight_batch ok inFlight member
  have here := remembered.running (ok.serving_of_flight inFlight) seq running
  rw [inFlight] at here
  simp only [MemoryOk, pending, found] at here
  exact here

theorem draws_contiguous : Draws eos (Likely m.logits softmax sort) (contiguousDecoder m softmax sort eos)
    (Remembered (α := α) (cellMemory m softmax sort eos)) := by
  intro s flight results after ok remembered inFlight pending computed result named
  obtain ⟨hidden, decoded, emitted⟩ := computed
  have batchOk := ok.batchOk inFlight
  have rows : RowsComputed m (batch flight.plan flight.seqs) hidden :=
    fun i entry seq position here => (contiguous_rows batchOk here.mem
      (buffered_before ok remembered inFlight pending here.mem) decoded).1 i position here
  rw [Paged.flatRows_bookkept 1 batchOk.bookkept] at emitted
  obtain ⟨pair, inBatch, token, same, likely⟩ :=
    EmitOwed.likely batchOk.bookkept rows emitted result named
  exact ⟨pair.2, (mem_flight_batch ok inFlight inBatch).1, token, same, likely⟩

end

def contiguousEngine (m : Modules) (softmax : Softmax m.vocab) (sort : Descending m.vocab)
    (eos : List Token) (scheduler : Scheduler) (capacity : Nat) :
    Machine (EngineState ContiguousAllocator (CellBuffers m)) Event :=
  loop (contiguousDecoder m softmax sort eos) scheduler { capacityTokens := capacity } fun _ _ => none

variable {scheduler : Scheduler} {capacity : Nat} {s : EngineState ContiguousAllocator (CellBuffers m)}
  {flight : InFlight}

theorem remembered_contiguous
    (reachable : (contiguousEngine m softmax sort eos scheduler capacity).Reachable s) :
    Remembered (cellMemory m softmax sort eos) s :=
  remembered _ (fun _ => rfl) reachable

theorem genuine_contiguous
    (reachable : (contiguousEngine m softmax sort eos scheduler capacity).Reachable s) :
    Genuine eos (Likely m.logits softmax sort) s :=
  genuine_reachable draws_contiguous (fun _ => remembered_contiguous) reachable

theorem exists_contiguous
    (reachable : (contiguousEngine m softmax sort eos scheduler capacity).Reachable s)
    (inFlight : s.inFlight = some flight) (pending : flight.outcome = none) :
    ∃ results after, (contiguousDecoder m softmax sort eos).forward flight.plan flight.seqs s.runner
      (.results results) after := by
  have ok := consistent reachable
  have batchOk := ok.batchOk inFlight
  have remembered := remembered_contiguous reachable
  have sized : ∀ layer < m.layers, ∀ pair ∈ batch flight.plan flight.seqs,
      RoomFor (s.runner layer pair.2.seqId) pair.2 (cachedBefore pair.1 pair.2) :=
    fun layer below pair member =>
      (buffered_before ok remembered inFlight pending member).sized layer below
  have inside : ∀ pair ∈ batch flight.plan flight.seqs,
      pair.2.blockTable.numTokens ≤ reservation pair.2 := fun pair member =>
    (Contiguous.reservations reachable).inside pair.2 (mem_flight_batch ok inFlight member).1
  let flat := flatRows flight.plan flight.seqs
  obtain ⟨last, after, layers, -⟩ := exists_contiguousLayers batchOk sized inside
    (m.rotaryRows flat.positions) (m.embedRows flat.tokenIds) (Nat.le_refl m.layers)
  obtain ⟨results, emitted⟩ := exists_emitOwed m softmax sort eos (fun i => m.norm (last i))
    flight.plan flight.seqs flat.offsets
  refine ⟨results, after, fun i => m.norm (last i), ⟨last, ?_, rfl⟩, emitted⟩
  have offsets : flat.offsets = spans 0 (batch flight.plan flight.seqs) := by
    rw [show flat = flatRows flight.plan flight.seqs from rfl,
      Paged.flatRows_bookkept 1 batchOk.bookkept]
  rw [← offsets] at layers
  exact layers

/-- The engine without a pool, in every state it reaches: each iteration it hands off has room for its
rows and has results, one for each sequence that is owed a token, and each token of each sequence can be
drawn from the logits that its own tokens have alone. -/
theorem contiguous_output (m : Modules) (softmax : Softmax m.vocab) (sort : Descending m.vocab)
    (eos : List Token) (scheduler : Scheduler) (capacity : Nat)
    {s : EngineState ContiguousAllocator (CellBuffers m)}
    (reachable : (contiguousEngine m softmax sort eos scheduler capacity).Reachable s) :
    (∀ flight, s.inFlight = some flight → flight.outcome = none → ∃ results after,
      (contiguousDecoder m softmax sort eos).forward flight.plan flight.seqs s.runner
        (.results results) after ∧
      results.map (·.1) = (owed flight.plan flight.seqs).map (·.seqId)) ∧
    Genuine eos (Likely m.logits softmax sort) s ∧
    ∀ seq ∈ s.running ++ s.waiting ++ s.ended, seq.samplingParams.temperature = 0 →
      seq.generatedTokens <+: reference eos (greedyNext m.logits) seq ∧
      (seq.metrics.doneTime ≠ none →
        seq.generatedTokens = reference eos (greedyNext m.logits) seq) := by
  refine ⟨fun flight inFlight pending => ?_, genuine_contiguous reachable,
    genuine_greedy (genuine_contiguous reachable)⟩
  obtain ⟨results, after, computed⟩ := exists_contiguous reachable inFlight pending
  obtain ⟨tokens, length, rfl⟩ := (contiguousDecoder m softmax sort eos).emits computed
  exact ⟨_, after, computed, map_fst_emitTokens length⟩

abbrev sampleContiguous : ModelRunner (CellBuffers sampleModules) :=
  contiguousDecoder sampleModules evenSoftmax (stableDescending 3) []

noncomputable abbrev contiguousRun : Nat → EngineState ContiguousAllocator (CellBuffers sampleModules) :=
  sharedRun sampleContiguous (someForward sampleContiguous) { capacityTokens := 16 } fun _ _ => none

theorem contiguousRun_reachable (n : Nat) :
    (contiguousEngine sampleModules evenSoftmax (stableDescending 3) [] sharedScheduler 16).Reachable
        (contiguousRun n) ∧
      (contiguousRun n).inFlight = none ∧ (contiguousRun n).phase = .serving :=
  sharedRun_reachable (someForward_computes sampleContiguous fun _ _ reachable inFlight pending =>
    exists_contiguous reachable inFlight pending) n

theorem contiguous_output_sample :
    ∃ flight, (schedule sampleContiguous sharedScheduler 2 (contiguousRun 1)).inFlight = some flight ∧
      flight.plan.entries = [⟨1, 1, false⟩, ⟨0, 1, true⟩] ∧ ∃ results after,
      sampleContiguous.forward flight.plan flight.seqs
        (schedule sampleContiguous sharedScheduler 2 (contiguousRun 1)).runner (.results results) after ∧
      results.map (·.1) = [1, 0] := by
  obtain ⟨reachable, idle, serving⟩ := contiguousRun_reachable 1
  have next := reachable.next
    (.schedule idle serving : Step sampleContiguous sharedScheduler _ (.schedule 2) _)
  let s := schedule sampleContiguous sharedScheduler 2 (contiguousRun 1)
  have planned : s.inFlight.map (fun flight =>
      (flight.plan.entries, (owed flight.plan flight.seqs).map (·.seqId))) =
        some ([⟨1, 1, false⟩, ⟨0, 1, true⟩], [1, 0]) := by decide +kernel
  obtain ⟨flight, inFlight, same⟩ := Option.map_eq_some_iff.mp planned
  obtain ⟨entries, owes⟩ := Prod.mk.inj same
  have pending : flight.outcome = none := by rw [(schedule_inFlight _ _ _ idle inFlight).2]
  obtain ⟨results, after, computed, ids⟩ := (contiguous_output sampleModules evenSoftmax
    (stableDescending 3) [] sharedScheduler 16 next).1 flight inFlight pending
  exact ⟨flight, inFlight, entries, results, after, computed, ids.trans owes⟩

end LlmServing.Decoder
