import LlmServing.Engine.Consistent

/-!
# What a model runner keeps for each sequence

A forward pass extends the memory of each sequence of its batch by the entry's tokens, and `free`
clears that of one sequence. On such a runner a running sequence's memory holds the tokens its block
table counts, less those of the plan in flight.
-/

namespace LlmServing.Engine

open Scheduling Runner Lib

variable {α ρ σ : Type}

structure BatchOk (plan : BatchPlan) (seqs : List Sequence) : Prop where
  entries : plan.ids.Nodup
  present : ∀ id ∈ plan.ids, id ∈ seqs.map (·.seqId)
  bookkept : ∀ pair ∈ batch plan seqs, RunningOk (some pair.1) pair.2

theorem BatchOk.distinct {plan : BatchPlan} {seqs : List Sequence} (ok : BatchOk plan seqs) :
    ((batch plan seqs).map (·.2.seqId)).Nodup :=
  map_seqId_batch ok.present ▸ ok.entries

theorem BatchOk.sizes {plan : BatchPlan} {seqs : List Sequence} (ok : BatchOk plan seqs) :
    ∀ pair ∈ batch plan seqs, (entryTokenIds pair.1 pair.2).length = pair.1.nTokens := by
  intro pair member
  have here := ok.bookkept pair member
  have cached := here.numTokens_le
  have fed := here.nTokens_le
  rw [here.entryTokenIds, Sequence.length_slice _ _ _ (by rwa [Sequence.length_tokens]),
    cachedBefore]
  omega

/-- `Holds memory seq n`: the memory is that of `seq` after its first `n` tokens. -/
structure Memory (runner : ModelRunner ρ) (σ : Type) where
  view : ρ → SeqId → σ
  clear : σ
  Holds : σ → Sequence → Nat → Prop
  view_free (state : ρ) (freed id : SeqId) :
    view (runner.free freed state) id = if id = freed then clear else view state id
  others {plan : BatchPlan} {seqs : List Sequence} {before after : ρ} {outcome : Outcome} :
    runner.forward plan seqs before outcome after → BatchOk plan seqs →
    ∀ id ∉ plan.ids, view after id = view before id
  fed {plan : BatchPlan} {seqs : List Sequence} {before after : ρ} {results : IterationResults}
      {entry : BatchEntry} {seq : Sequence} :
    runner.forward plan seqs before (.results results) after → BatchOk plan seqs →
    (entry, seq) ∈ batch plan seqs →
    Holds (view before seq.seqId) seq (cachedBefore entry seq) →
    Holds (view after seq.seqId) seq seq.blockTable.numTokens
  holds_clear (seq : Sequence) : Holds clear seq 0
  holds_congr {memory : σ} {seq seq' : Sequence} {n : Nat} :
    Holds memory seq n → seq'.promptTokens = seq.promptTokens →
    seq'.samplingParams = seq.samplingParams → seq'.tokens.take n = seq.tokens.take n →
    Holds memory seq' n

variable {runner : ModelRunner ρ} {memory : Memory runner σ}

theorem Memory.view_freeAll (memory : Memory runner σ) (ids : List SeqId) (state : ρ) (id : SeqId) :
    memory.view (runner.freeAll ids state) id =
      if id ∈ ids then memory.clear else memory.view state id := by
  induction ids generalizing state with
  | nil => rfl
  | cons first rest ih =>
      have later := ih (runner.free first state)
      simp only [ModelRunner.freeAll, List.foldl_cons] at later ⊢
      rw [later, memory.view_free]
      by_cases same : id = first
      · simp [same]
      · simp [same]

theorem Consistent.batchOk {s : EngineState α ρ} (ok : Consistent runner s) {flight : InFlight}
    (inFlight : s.inFlight = some flight) : BatchOk flight.plan flight.seqs := by
  have flightOk := ok.flight flight inFlight
  refine ⟨flightOk.entries, flightOk.seqs ▸ flightOk.present, ?_⟩
  rintro ⟨entry, seq⟩ member
  obtain ⟨running, -, found⟩ := mem_flight_batch ok inFlight member
  have here := ok.running (ok.serving_of_flight inFlight) seq running
  rwa [EngineState.plan, inFlight, Option.map_some, Option.getD_some, found] at here

def MemoryOk (memory : Memory runner σ) (flight : Option InFlight) (state : ρ) (seq : Sequence) :
    Prop :=
  match flight with
  | none => memory.Holds (memory.view state seq.seqId) seq seq.blockTable.numTokens
  | some flight =>
      match flight.outcome with
      | none => memory.Holds (memory.view state seq.seqId) seq
          (cachedIn (entryFor flight.plan seq.seqId) seq)
      | some (.results _) => memory.Holds (memory.view state seq.seqId) seq seq.blockTable.numTokens
      | some _ => seq.seqId ∉ flight.plan.ids →
          memory.Holds (memory.view state seq.seqId) seq seq.blockTable.numTokens

structure Remembered (memory : Memory runner σ) (s : EngineState α ρ) : Prop where
  running : s.phase = .serving → ∀ seq ∈ s.running, MemoryOk memory s.inFlight s.runner seq
  waiting : ∀ seq ∈ s.waiting, memory.view s.runner seq.seqId = memory.clear
  unseen : ∀ id ∉ s.ids, memory.view s.runner id = memory.clear

variable [KVAllocator α] {scheduler : Scheduler}

theorem remembering (memory : Memory runner σ) (state : ρ) (scheduler : Scheduler) (now : Time) :
    PlanRule (α := α) scheduler now (fun _ => True)
      (fun freed entry seq => (freed → cachedIn entry seq = 0) ∧
        (¬freed → memory.Holds (memory.view state seq.seqId) seq (cachedIn entry seq)))
      (fun freed seq => seq.blockTable.numTokens = 0 ∧
        (¬freed → memory.view state seq.seqId = memory.clear)) where
  grant _ _ := trivial
  release _ := trivial
  decode {a a' seq table freed} _ _ ok granted := by
    have same : cachedIn (some ⟨seq.seqId, 1, false⟩) { seq with blockTable := table } =
        cachedIn none seq := by
      simp [cachedIn, cachedBefore, allocate_numTokens granted]
    rw [same]
    exact ⟨ok.1, fun kept => memory.holds_congr (ok.2 kept) rfl rfl rfl⟩
  preempt _ _ := ⟨free_numTokens _ _, fun kept => absurd trivial kept⟩
  «continue» {a a' seq table budget freed} _ _ ok _ granted := by
    have same : cachedIn (some ⟨seq.seqId,
          scheduler.chunk (seq.numTokens - seq.prefillProgress) budget, true⟩)
        (advancePrefill { seq with blockTable := table }
          (scheduler.chunk (seq.numTokens - seq.prefillProgress) budget)) = cachedIn none seq := by
      simp [cachedIn, cachedBefore, advancePrefill, allocate_numTokens granted]
    rw [same]
    exact ⟨ok.1, fun kept => memory.holds_congr (ok.2 kept) rfl rfl rfl⟩
  admission {a a' seq table budget reserve freed} _ ok _ _ granted := by
    have none : cachedIn (some ⟨seq.seqId, scheduler.chunk seq.numTokens budget, true⟩)
        (stampAdmission now (advancePrefill { seq with blockTable := table }
          (scheduler.chunk seq.numTokens budget))) = 0 := by
      simp [cachedIn, cachedBefore, stampAdmission, advancePrefill, allocate_numTokens granted,
        ok.1]
    rw [none]
    refine ⟨fun _ => rfl, fun kept => ?_⟩
    have cleared : memory.Holds (memory.view state seq.seqId) seq 0 :=
      ok.2 kept ▸ memory.holds_clear seq
    exact memory.holds_congr cleared rfl rfl rfl
  skip ok := ok

theorem memoryOk_schedule (now : Time) {s : EngineState α ρ} (idle : s.inFlight = none) {state : ρ}
    {seq : Sequence} :
    MemoryOk memory (schedule runner scheduler now s).inFlight state seq ↔
      memory.Holds (memory.view state seq.seqId) seq
        (cachedIn (entryFor (planned scheduler now s).plan seq.seqId) seq) := by
  have same := schedule_entryFor runner scheduler now idle seq.seqId
  rw [← same]
  cases inFlight : (schedule runner scheduler now s).inFlight with
  | none => simp [MemoryOk, EngineState.plan, inFlight, entryFor, cachedIn]
  | some flight =>
      obtain ⟨-, pending⟩ := schedule_inFlight runner scheduler now idle inFlight
      simp [MemoryOk, EngineState.plan, inFlight, pending]

omit [KVAllocator α] in
theorem Remembered.arrive {s : EngineState α ρ} (ok : Remembered memory s) {req : IngressRequest}
    (fresh : req.seqId ∉ s.ids) :
    Remembered memory { s with waiting := s.waiting ++ [sequenceFromIngress req] } := by
  refine ⟨ok.running, fun seq member => ?_, fun id absent => ?_⟩
  · rcases List.mem_append.mp member with member | member
    · exact ok.waiting seq member
    · rw [List.mem_singleton.mp member]
      exact ok.unseen _ fresh
  · exact ok.unseen id fun member =>
      absent ((ids_arrive req).mem_iff.mpr (List.mem_cons_of_mem _ member))

theorem Remembered.schedule (scheduler : Scheduler) (now : Time) {s : EngineState α ρ}
    (remembered : Remembered memory s) (ok : Consistent runner s) (idle : s.inFlight = none)
    (serving : s.phase = .serving) :
    Remembered memory (Engine.schedule runner scheduler now s) := by
  have apart := planned_distinct scheduler now ok.live_distinct
  have perm := ids_schedule scheduler now ok
  have holds := ok.holds (remembering (α := α) memory s.runner scheduler now) trivial
    (fun seq member => ⟨(fun freed => absurd freed id), fun _ => by
      have here := remembered.running serving seq member
      rwa [idle] at here⟩)
    (fun seq member => ⟨(ok.waiting seq member).2.2, fun _ => remembered.waiting seq member⟩)
  have after (id : SeqId) : memory.view (Engine.schedule runner scheduler now s).runner id =
      if id ∈ (planned scheduler now s).plan.rejected.map (·.seqId) then memory.clear
      else if id ∈ (planned scheduler now s).plan.preempted then memory.clear
      else memory.view s.runner id := by
    rw [schedule_runner, memory.view_freeAll, memory.view_freeAll]
  refine ⟨fun _ seq member => ?_, fun seq member => ?_, fun id absent => ?_⟩
  · rw [schedule_running _ _ _ ok.live_distinct] at member
    have kept := apart.running_not_rejected (List.mem_map_of_mem member)
    obtain ⟨freed, cached⟩ := holds.running seq member
    rw [memoryOk_schedule now idle, after, if_neg kept]
    split
    · rename_i preempted
      rw [freed preempted]
      exact memory.holds_clear seq
    · rename_i untouched
      exact cached untouched
  · rw [schedule_waiting] at member
    have kept := apart.waiting_not_rejected (List.mem_map_of_mem member)
    rw [after, if_neg kept]
    split
    · rfl
    · rename_i untouched
      exact (holds.waiting seq member).2 untouched
  · have before : id ∉ s.ids := fun member => absent (perm.mem_iff.mpr member)
    rw [after, remembered.unseen id before]
    simp

omit [KVAllocator α] in
theorem Remembered.forward {s : EngineState α ρ} (remembered : Remembered memory s)
    (ok : Consistent runner s) {flight : InFlight} {outcome : Outcome} {after : ρ}
    (inFlight : s.inFlight = some flight) (pending : flight.outcome = none)
    (computed : runner.forward flight.plan flight.seqs s.runner outcome after) :
    Remembered memory
      { s with runner := after, inFlight := some { flight with outcome := some outcome } } := by
  have flightOk := ok.flight flight inFlight
  have others := memory.others computed (ok.batchOk inFlight)
  refine ⟨fun serving seq member => ?_, fun seq member => ?_, fun id absent => ?_⟩
  · have before := remembered.running serving seq member
    rw [inFlight] at before
    simp only [MemoryOk, pending] at before
    have unplanned (absent : seq.seqId ∉ flight.plan.ids) :
        memory.Holds (memory.view after seq.seqId) seq seq.blockTable.numTokens := by
      rw [entryFor_eq_none.mpr absent] at before
      exact others _ absent ▸ before
    cases outcome with
    | results results =>
        cases found : entryFor flight.plan seq.seqId with
        | none => exact unplanned (entryFor_eq_none.mp found)
        | some entry =>
            rw [found] at before
            exact memory.fed computed (ok.batchOk inFlight)
              (flight_batch_mem ok inFlight member found) before
    | failed | deviceLost => exact unplanned
  · exact (others _ fun planned => ok.running_not_waiting (flightOk.present _ planned)
      (List.mem_map_of_mem member)).trans (remembered.waiting seq member)
  · exact (others id fun planned => absent (mem_ids.mpr (.inl (flightOk.present _ planned)))).trans
      (remembered.unseen id absent)

theorem Remembered.results {now : Time} {s : EngineState α ρ} (remembered : Remembered memory s)
    (ok : Consistent runner s) {flight : InFlight} {results : IterationResults}
    {folded : Folding α} (inFlight : s.inFlight = some flight)
    (outcome : flight.outcome = some (.results results))
    (spec : Folded now results ⟨s.running, s.allocator, []⟩ folded) :
    Remembered memory (resultsApplied runner results folded s) := by
  have serving := ok.serving_of_flight inFlight
  have apart : (resultsApplied runner results folded s).ids.Nodup :=
    (ids_results spec).nodup_iff.mpr ok.distinct
  simp only [EngineState.ids, resultsApplied, List.map_append, List.append_assoc] at apart
  have after (id : SeqId) : memory.view (resultsApplied runner results folded s).runner id =
      if id ∈ folded.finished.map (·.seqId) then memory.clear else memory.view s.runner id :=
    memory.view_freeAll _ _ _
  refine ⟨fun _ seq member => ?_, fun seq member => ?_, fun id absent => ?_⟩
  · have kept : seq.seqId ∉ folded.finished.map (·.seqId) := fun named =>
      List.disjoint_of_nodup_append apart (List.mem_map_of_mem member)
        (List.mem_append_right _ (List.mem_append_right _ named))
    simp only [MemoryOk, resultsApplied] at member ⊢
    have same := (after seq.seqId).trans (if_neg kept)
    simp only [resultsApplied] at same
    rw [same]
    obtain ⟨source, found, left⟩ := spec.running_source member
    have here := remembered.running serving source found
    rw [inFlight] at here
    simp only [MemoryOk, outcome] at here
    rcases left with ⟨-, rfl⟩ | ⟨token, -, rfl⟩
    · exact here
    · have inside : source.blockTable.numTokens ≤ source.tokens.length := by
        rw [Sequence.length_tokens]
        exact (ok.running serving source found).numTokens_le
      refine memory.holds_congr here rfl rfl ?_
      rw [blockTable_recordToken, tokens_recordToken, List.take_append_of_le_length inside]
  · refine (after _).trans ?_
    split
    · rfl
    · exact remembered.waiting seq member
  · refine (after id).trans ?_
    rw [remembered.unseen id fun member => absent ((ids_results spec).mem_iff.mpr member), ite_self]

theorem Remembered.failed {s : EngineState α ρ} (remembered : Remembered memory s)
    (ok : Consistent runner s) {flight : InFlight} (inFlight : s.inFlight = some flight)
    (outcome : flight.outcome = some .failed) :
    Remembered memory (aborted runner (failedBatch flight) s) := by
  have flightOk := ok.flight flight inFlight
  have after (id : SeqId) : memory.view (aborted runner (failedBatch flight) s).runner id =
      if id ∈ (failedBatch flight).map (·.seqId) then memory.clear else memory.view s.runner id :=
    memory.view_freeAll _ _ _
  rw [flightOk.failedBatch_ids] at after
  refine ⟨fun serving seq member => ?_, fun seq member => ?_, fun id absent => ?_⟩
  · rw [failed_running ok inFlight] at member
    obtain ⟨found, absent⟩ := List.mem_filter.mp member
    have unplanned := of_decide_eq_true absent
    have here := remembered.running serving seq found
    rw [inFlight] at here
    simp only [MemoryOk, outcome] at here
    have same := (after seq.seqId).trans (if_neg unplanned)
    simp only [MemoryOk, aborted] at same ⊢
    rw [same]
    exact here unplanned
  · refine (after _).trans ?_
    split
    · rfl
    · exact remembered.waiting seq member
  · refine (after id).trans ?_
    rw [remembered.unseen id fun member => absent ((ids_failed ok inFlight).mem_iff.mpr member),
      ite_self]

theorem Remembered.abortAll {s : EngineState α ρ} (remembered : Remembered memory s)
    (ok : Consistent runner s) :
    Remembered memory { aborted runner (s.running ++ s.waiting) s with
      waiting := [], phase := .failed } := by
  refine ⟨(fun serving => by cases serving), (List.forall_mem_nil _), fun id absent => ?_⟩
  have before := remembered.unseen id fun member => absent ((ids_abortAll ok).mem_iff.mpr member)
  simp only [aborted, memory.view_freeAll, before, ite_self]

theorem rememberedRule :
    LoopRule (α := α) runner scheduler (fun _ => True) (Remembered memory) where
  arrive _ _ remembered _ _ fresh := remembered.arrive fresh
  schedule ok _ remembered idle serving := remembered.schedule _ _ ok idle serving
  forward ok _ remembered inFlight pending computed :=
    remembered.forward ok inFlight pending computed
  results ok _ remembered inFlight outcome _ spec := remembered.results ok inFlight outcome spec
  failed ok _ remembered inFlight outcome := remembered.failed ok inFlight outcome
  deviceLost _ _ remembered _ _ :=
    ⟨(fun serving => by cases serving), remembered.waiting, remembered.unseen⟩
  abortAll ok _ remembered _ _ := remembered.abortAll ok

theorem remembered (memory : Memory runner σ) {allocator : α} {start : ρ}
    (clear : ∀ id, memory.view start id = memory.clear) {s : EngineState α ρ}
    (reachable : (loop runner scheduler allocator start).Reachable s) : Remembered memory s :=
  rememberedRule.reachable (fun _ _ => trivial)
    ⟨(fun _ => List.forall_mem_nil _), List.forall_mem_nil _, fun id _ => clear id⟩ reachable

end LlmServing.Engine
