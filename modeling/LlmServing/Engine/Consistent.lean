import LlmServing.Engine.Pieces

/-!
# What every state of the loop satisfies

The bookkeeping of one sequence (`RunningOk`, `WaitingOk`) and the invariant `Consistent` over all
reachable states.
-/

namespace LlmServing.Engine

open Scheduling Runner Lib

variable {α ρ : Type} [KVAllocator α]

def RunningOk (entry : Option BatchEntry) (seq : Sequence) : Prop :=
  match entry with
  | none =>
      (seq.status = .prefilling ∧ seq.blockTable.numTokens = seq.prefillProgress ∧
        0 < seq.prefillProgress ∧ seq.prefillProgress < seq.numTokens) ∨
      (seq.status = .decoding ∧ seq.blockTable.numTokens + 1 = seq.numTokens ∧
        seq.generatedTokens ≠ [])
  | some entry =>
      if entry.isPrefillChunk then
        seq.blockTable.numTokens = seq.prefillProgress ∧ 0 < entry.nTokens ∧
        entry.nTokens ≤ seq.prefillProgress ∧
        ((seq.status = .decoding ∧ seq.prefillProgress = seq.numTokens) ∨
          (seq.status = .prefilling ∧ seq.prefillProgress < seq.numTokens))
      else
        entry.nTokens = 1 ∧ seq.status = .decoding ∧ seq.blockTable.numTokens = seq.numTokens ∧
        seq.generatedTokens ≠ []

def WaitingOk (seq : Sequence) : Prop :=
  seq.status = .waiting ∧ seq.prefillProgress = 0 ∧ seq.blockTable.numTokens = 0

theorem chunk_pos (scheduler : Scheduler) {left budget : Nat} (some : 0 < left)
    (positive : 0 < budget) : 0 < scheduler.chunk left budget := by
  unfold Scheduler.chunk Scheduler.maxPrefillChunk
  omega

theorem chunk_le (scheduler : Scheduler) (left budget : Nat) : scheduler.chunk left budget ≤ left := by
  unfold Scheduler.chunk
  omega

theorem advancePrefill_ok {id : SeqId} {seq : Sequence} {table : BlockTable} {chunk : Nat}
    (positive : 0 < chunk) (fits : chunk ≤ seq.numTokens - seq.prefillProgress)
    (grown : table.numTokens = seq.prefillProgress + chunk) :
    RunningOk (some ⟨id, chunk, true⟩) (advancePrefill { seq with blockTable := table } chunk) := by
  have total : (advancePrefill { seq with blockTable := table } chunk).numTokens = seq.numTokens := rfl
  have here : ({ seq with blockTable := table } : Sequence).numTokens = seq.numTokens := rfl
  simp only [RunningOk, if_true]
  rw [total]
  simp only [advancePrefill, here]
  refine ⟨grown, positive, by omega, ?_⟩
  by_cases last : seq.prefillProgress + chunk = seq.numTokens
  · exact .inl ⟨if_pos last, last⟩
  · exact .inr ⟨if_neg last, by omega⟩

theorem runningOk_stampAdmission {entry : Option BatchEntry} {now : Time} {seq : Sequence} :
    RunningOk entry (stampAdmission now seq) ↔ RunningOk entry seq := Iff.rfl

theorem bookkeeping (scheduler : Scheduler) (now : Time) :
    PlanRule (α := α) scheduler now (fun _ => True) (fun _ => RunningOk) (fun _ => WaitingOk) where
  grant _ _ := trivial
  release _ := trivial
  decode _ status ok granted := by
    rcases ok with ok | ok
    · exact absurd (ok.1.symm.trans status) (by decide)
    · have grown := allocate_numTokens granted
      simp only [RunningOk, Bool.false_eq_true, if_false]
      exact ⟨trivial, status, grown.trans ok.2.1, ok.2.2⟩
  preempt _ _ := ⟨rfl, rfl, free_numTokens _ _⟩
  «continue» {a a' seq table budget freed} _ status ok positive granted := by
    rcases ok with ok | ok
    · have grown := allocate_numTokens granted
      exact advancePrefill_ok (chunk_pos scheduler (by omega) positive) (chunk_le _ _ _)
        (by rw [grown, ok.2.1])
    · exact absurd (ok.1.symm.trans status) (by decide)
  admission {a a' seq table budget reserve freed} _ ok _ positive granted := by
    have grown := allocate_numTokens granted
    have total := seq.numTokens_pos
    rw [runningOk_stampAdmission]
    refine advancePrefill_ok (chunk_pos scheduler total positive) ?_ (by rw [grown, ok.2.1, ok.2.2])
    rw [ok.2.1]
    exact chunk_le scheduler seq.numTokens budget
  skip ok := ok

omit [KVAllocator α] in
theorem RunningOk.prefilling {entry : Option BatchEntry} {seq : Sequence}
    (ok : RunningOk entry seq) (status : seq.status = .prefilling) :
    seq.blockTable.numTokens = seq.prefillProgress := by
  cases entry with
  | none =>
      rcases ok with ⟨-, table, -⟩ | ⟨decoding, -⟩
      · exact table
      · cases status.symm.trans decoding
  | some entry =>
      simp only [RunningOk] at ok
      split at ok
      · exact ok.1
      · cases status.symm.trans ok.2.1

omit [KVAllocator α] in
theorem RunningOk.numTokens_le {entry : Option BatchEntry} {seq : Sequence}
    (ok : RunningOk entry seq) : seq.blockTable.numTokens ≤ seq.numTokens := by
  cases entry with
  | none => rcases ok with ⟨-, table, -, left⟩ | ⟨-, table, -⟩ <;> omega
  | some entry =>
      simp only [RunningOk] at ok
      split at ok <;> omega

def cachedBefore (entry : BatchEntry) (seq : Sequence) : Nat :=
  seq.blockTable.numTokens - entry.nTokens

def cachedIn (entry : Option BatchEntry) (seq : Sequence) : Nat :=
  match entry with
  | none => seq.blockTable.numTokens
  | some entry => cachedBefore entry seq

omit [KVAllocator α] in
theorem RunningOk.nTokens_le {entry : BatchEntry} {seq : Sequence}
    (ok : RunningOk (some entry) seq) : entry.nTokens ≤ seq.blockTable.numTokens := by
  have total := seq.numTokens_pos
  simp only [RunningOk] at ok
  split at ok <;> omega

omit [KVAllocator α] in
theorem RunningOk.entryTokenIds {entry : BatchEntry} {seq : Sequence}
    (ok : RunningOk (some entry) seq) :
    entryTokenIds entry seq =
      Sequence.slice seq.tokens (cachedBefore entry seq) seq.blockTable.numTokens := by
  simp only [RunningOk] at ok
  unfold Runner.entryTokenIds cachedBefore
  split at ok <;> rename_i chunk
  · rw [if_pos chunk, Sequence.prefillTokenIds_eq, ok.1]
  · obtain ⟨single, -, table, generated⟩ := ok
    have total := seq.numTokens_pos
    rw [if_neg chunk, Sequence.getLast?_toList seq generated, single, table,
      Sequence.slice_eq_map _ _ _ (Nat.le_of_eq seq.length_tokens.symm),
      Nat.sub_sub_self total]
    rfl

omit [KVAllocator α] in
theorem RunningOk.owes {entry : BatchEntry} {seq : Sequence} (ok : RunningOk (some entry) seq)
    (owes : owesToken entry seq = true) :
    seq.status = .decoding ∧ seq.blockTable.numTokens = seq.numTokens := by
  simp only [RunningOk] at ok
  split at ok <;> rename_i chunk
  · obtain ⟨table, -, -, ⟨status, whole⟩ | ⟨status, -⟩⟩ := ok
    · exact ⟨status, table.trans whole⟩
    · simp [owesToken, chunk, status] at owes
  · exact ⟨ok.2.1, ok.2.2.1⟩

structure FlightOk (runner : ModelRunner ρ) (flight : InFlight) (running : List Sequence) : Prop where
  seqs : flight.seqs = running
  entries : flight.plan.ids.Nodup
  present : ∀ id ∈ flight.plan.ids, id ∈ running.map (·.seqId)
  decoding : DecodingPlanned running flight.plan
  nonempty : flight.plan.entries ≠ []
  emitted : ∀ results, flight.outcome = some (.results results) →
    ∃ tokens : List Token, tokens.length = (owed flight.plan flight.seqs).length ∧
      results = emitTokens runner.eosTokenIds (owed flight.plan flight.seqs) tokens

structure Consistent (runner : ModelRunner ρ) (s : EngineState α ρ) : Prop where
  distinct : s.ids.Nodup
  waiting : ∀ seq ∈ s.waiting, WaitingOk seq
  ended : ∀ seq ∈ s.ended, seq.blockTable.numTokens = 0
  running : s.phase = .serving → ∀ seq ∈ s.running, RunningOk (entryFor s.plan seq.seqId) seq
  flight : ∀ flight, s.inFlight = some flight → FlightOk runner flight s.running
  serving : s.phase ≠ .serving → s.inFlight = none
  drained : s.phase = .failed → s.running = [] ∧ s.waiting = []

variable {runner : ModelRunner ρ} {scheduler : Scheduler}

omit [KVAllocator α] in
theorem Consistent.live_distinct {s : EngineState α ρ} (ok : Consistent runner s) :
    ((s.running ++ s.waiting).map (·.seqId)).Nodup := by
  have ids := ok.distinct
  simp only [EngineState.ids, List.map_append] at ids ⊢
  exact ids.of_append_left

theorem Consistent.ended_released {s : EngineState α ρ} (ok : Consistent runner s)
    (seqs : List Sequence) (after : EngineState α ρ) :
    ∀ seq ∈ s.ended ++ (released seqs after).finished, seq.blockTable.numTokens = 0 := by
  intro seq member
  rcases List.mem_append.mp member with member | member
  · exact ok.ended seq member
  · obtain ⟨source, -, a, rfl⟩ := released_finished member
    exact free_numTokens _ _

omit [KVAllocator α] in
theorem Consistent.running_not_waiting {s : EngineState α ρ} (ok : Consistent runner s) {id : SeqId}
    (running : id ∈ s.running.map (·.seqId)) : id ∉ s.waiting.map (·.seqId) := by
  have distinct := ok.live_distinct
  rw [List.map_append] at distinct
  exact fun waiting => List.disjoint_of_nodup_append distinct running waiting

omit [KVAllocator α] in
theorem Consistent.live_not_ended {s : EngineState α ρ} (ok : Consistent runner s) {id : SeqId}
    (live : id ∈ (s.running ++ s.waiting).map (·.seqId)) : id ∉ s.ended.map (·.seqId) := by
  have distinct := ok.distinct
  rw [EngineState.ids, List.map_append] at distinct
  exact fun ended => List.disjoint_of_nodup_append distinct live ended

omit [KVAllocator α] in
theorem Consistent.running_not_ended {s : EngineState α ρ} (ok : Consistent runner s) {id : SeqId}
    (running : id ∈ s.running.map (·.seqId)) : id ∉ s.ended.map (·.seqId) :=
  ok.live_not_ended (by
    rw [List.map_append]
    exact List.mem_append_left _ running)

omit [KVAllocator α] in
theorem Consistent.running_distinct {s : EngineState α ρ} (ok : Consistent runner s) :
    (s.running.map (·.seqId)).Nodup := by
  have ids := ok.live_distinct
  rw [List.map_append] at ids
  exact ids.of_append_left

omit [KVAllocator α] in
theorem Consistent.idle {s : EngineState α ρ} (ok : Consistent runner s)
    (serving : s.phase = .serving) (idle : s.inFlight = none) :
    ∀ seq ∈ s.running, RunningOk none seq := by
  intro seq member
  have here := ok.running serving seq member
  rwa [EngineState.plan, idle] at here

omit [KVAllocator α] in
theorem Consistent.serving_of_flight {s : EngineState α ρ} (ok : Consistent runner s)
    {flight : InFlight} (inFlight : s.inFlight = some flight) : s.phase = .serving := by
  by_contra ended
  cases inFlight.symm.trans (ok.serving ended)

theorem owed_sublist {plan : BatchPlan} {seqs : List Sequence}
    (present : ∀ id ∈ plan.ids, id ∈ seqs.map (·.seqId)) :
    ((owed plan seqs).map (·.seqId)).Sublist plan.ids := by
  rw [← map_seqId_batch present, owed, List.map_map]
  exact List.filter_sublist.map _

theorem map_fst_emitTokens {eos : List Token} {owed : List Sequence} {tokens : List Token}
    (each : tokens.length = owed.length) :
    (emitTokens eos owed tokens).map (·.1) = owed.map (·.seqId) := by
  induction owed generalizing tokens with
  | nil => rfl
  | cons seq rest ih =>
      cases tokens with
      | nil => simp at each
      | cons token tokens =>
          simp only [emitTokens, List.zipWith_cons_cons, List.map_cons] at ih ⊢
          exact congrArg _ (ih (by simpa using each))

theorem mem_owed_ids {flight : InFlight} {running : List Sequence}
    (ok : FlightOk runner flight running) (distinct : (running.map (·.seqId)).Nodup)
    (bookkept : ∀ seq ∈ running, RunningOk (entryFor flight.plan seq.seqId) seq)
    {seq : Sequence} (member : seq ∈ running) :
    seq.seqId ∈ (owed flight.plan flight.seqs).map (·.seqId) ↔ seq.status = .decoding := by
  have here := bookkept seq member
  constructor
  · intro named
    obtain ⟨other, found, same⟩ := List.mem_map.mp named
    obtain ⟨⟨entry, _⟩, kept, rfl⟩ := List.mem_map.mp found
    obtain ⟨inBatch, owes⟩ := List.mem_filter.mp kept
    obtain ⟨inPlan, looked⟩ := mem_batch.mp inBatch
    rw [ok.seqs] at looked
    obtain ⟨member', id⟩ := lookup_some looked
    obtain rfl := List.inj_on_of_nodup_map distinct member' member same
    rw [id, entryFor_of_mem ok.entries inPlan] at here
    exact (here.owes owes).1
  · intro status
    obtain ⟨entry, inPlan, same⟩ := List.mem_map.mp (ok.decoding seq member status)
    have looked : lookup flight.seqs entry.seqId = some seq := by
      rw [ok.seqs, same]
      exact lookup_of_mem distinct member
    refine List.mem_map.mpr ⟨seq, List.mem_map.mpr ⟨(entry, seq), ?_, rfl⟩, rfl⟩
    exact List.mem_filter.mpr ⟨mem_batch.mpr ⟨inPlan, looked⟩, by simp [owesToken, status]⟩

omit [KVAllocator α] in
theorem mem_flight_batch {s : EngineState α ρ} (ok : Consistent runner s)
    {flight : InFlight} (inFlight : s.inFlight = some flight) {entry : BatchEntry}
    {seq : Sequence} (member : (entry, seq) ∈ batch flight.plan flight.seqs) :
    seq ∈ s.running ∧ entry.seqId = seq.seqId ∧ entryFor flight.plan seq.seqId = some entry := by
  have flightOk := ok.flight flight inFlight
  obtain ⟨inPlan, looked⟩ := mem_batch.mp member
  obtain ⟨found, id⟩ := lookup_some looked
  exact ⟨flightOk.seqs ▸ found, id.symm, id ▸ entryFor_of_mem flightOk.entries inPlan⟩

omit [KVAllocator α] in
theorem flight_batch_mem {s : EngineState α ρ} (ok : Consistent runner s)
    {flight : InFlight} (inFlight : s.inFlight = some flight) {seq : Sequence}
    (member : seq ∈ s.running) {entry : BatchEntry}
    (found : entryFor flight.plan seq.seqId = some entry) :
    (entry, seq) ∈ batch flight.plan flight.seqs := by
  have flightOk := ok.flight flight inFlight
  obtain ⟨inPlan, id⟩ := entryFor_some found
  exact mem_batch.mpr ⟨inPlan, id ▸ flightOk.seqs ▸ lookup_of_mem ok.running_distinct member⟩

omit [KVAllocator α] in
theorem flight_batch_at {s : EngineState α ρ} (ok : Consistent runner s)
    {flight : InFlight} (inFlight : s.inFlight = some flight) {i : Nat} {entry : BatchEntry}
    (here : flight.plan.entries[i]? = some entry) :
    ∃ seq, (batch flight.plan flight.seqs)[i]? = some (entry, seq) := by
  have flightOk := ok.flight flight inFlight
  rw [← map_fst_batch (flightOk.seqs ▸ flightOk.present), List.getElem?_map,
    Option.map_eq_some_iff] at here
  obtain ⟨⟨_, seq⟩, here, rfl⟩ := here
  exact ⟨seq, here⟩

/-! ## One event at a time -/

omit [KVAllocator α] in
theorem mem_ids {s : EngineState α ρ} {id : SeqId} :
    id ∈ s.ids ↔ id ∈ s.running.map (·.seqId) ∨ id ∈ s.waiting.map (·.seqId) ∨
      id ∈ s.ended.map (·.seqId) := by
  simp only [EngineState.ids, List.map_append, List.mem_append, or_assoc]

omit [KVAllocator α] in
theorem ids_arrive {s : EngineState α ρ} (req : IngressRequest) :
    ({ s with waiting := s.waiting ++ [sequenceFromIngress req] } : EngineState α ρ).ids.Perm
      (req.seqId :: s.ids) := by
  simp only [EngineState.ids, List.map_append, List.map_cons, List.map_nil, List.append_assoc]
  exact ((List.perm_middle.append_left _).trans List.perm_middle)

theorem ids_schedule (scheduler : Scheduler) (now : Time) {s : EngineState α ρ}
    (ok : Consistent runner s) :
    (schedule runner scheduler now s).ids.Perm s.ids := by
  have moved := schedulerStep_ids_perm scheduler now s.running s.waiting s.allocator
    ok.live_distinct
  simp only [Planning.live, List.map_append] at moved
  simp only [EngineState.ids, List.map_append, schedule_waiting, schedule_ended, released_ids,
    schedule_running runner scheduler now ok.live_distinct]
  refine (List.Perm.append_left _ List.perm_append_comm).trans ?_
  rw [← List.append_assoc]
  exact moved.symm.append_right _

omit [KVAllocator α] in
theorem Consistent.arrive {s : EngineState α ρ} (ok : Consistent runner s) {req : IngressRequest}
    (idle : s.inFlight = none) (live : s.phase ≠ .failed) (fresh : req.seqId ∉ s.ids) :
    Consistent runner { s with waiting := s.waiting ++ [sequenceFromIngress req] } where
  distinct := (ids_arrive req).nodup_iff.mpr (List.nodup_cons.mpr ⟨fresh, ok.distinct⟩)
  waiting := by
    intro seq member
    rcases List.mem_append.mp member with member | member
    · exact ok.waiting seq member
    · rw [List.mem_singleton.mp member]
      exact ⟨rfl, rfl, rfl⟩
  ended := ok.ended
  running := ok.running
  flight flight inFlight := by simp [idle] at inFlight
  serving := ok.serving
  drained failed := absurd failed live

theorem Consistent.holds {now : Time} {R : α → Prop}
    {P : Prop → Option BatchEntry → Sequence → Prop} {Q : Prop → Sequence → Prop}
    (rule : PlanRule scheduler now R P Q) {s : EngineState α ρ} (ok : Consistent runner s)
    (allocator : R s.allocator) (runs : ∀ seq ∈ s.running, P False none seq)
    (waits : ∀ seq ∈ s.waiting, Q False seq) : (planned scheduler now s).Holds R P Q :=
  rule.schedulerStep ok.live_distinct allocator runs waits

theorem Consistent.planned (scheduler : Scheduler) (now : Time) {s : EngineState α ρ}
    (ok : Consistent runner s)
    (idle : s.inFlight = none) (serving : s.phase = .serving) :
    (planned scheduler now s).Holds (fun _ => True) (fun _ => RunningOk) (fun _ => WaitingOk) :=
  ok.holds (bookkeeping scheduler now) trivial (ok.idle serving idle) ok.waiting

theorem Consistent.schedule (now : Time) {s : EngineState α ρ} (ok : Consistent runner s)
    (idle : s.inFlight = none) (serving : s.phase = .serving) :
    Consistent runner (schedule runner scheduler now s) := by
  have apart := planned_distinct scheduler now ok.live_distinct
  have running := schedule_running runner scheduler now ok.live_distinct
  have phase := schedule_phase runner scheduler now s
  have holds := ok.planned scheduler now idle serving
  refine ⟨(ids_schedule scheduler now ok).nodup_iff.mpr ok.distinct, ?_, ?_, ?_, ?_, ?_, ?_⟩
  · rw [schedule_waiting]
    exact holds.waiting
  · rw [schedule_ended]
    exact ok.ended_released _ _
  · intro _ seq member
    rw [schedule_entryFor runner scheduler now idle]
    exact holds.running seq (running ▸ member)
  · intro flight inFlight
    rw [running]
    obtain ⟨nonempty, rfl⟩ := schedule_inFlight runner scheduler now idle inFlight
    exact ⟨running, apart.entries, apart.planned,
      (schedulerStep_steps scheduler now _ _ _ ok.live_distinct).2, nonempty, by simp⟩
  · rw [phase, serving]
    exact fun different => absurd rfl different
  · rw [phase, serving]
    intro failed
    cases failed

omit [KVAllocator α] in
theorem Consistent.computed {s : EngineState α ρ} (ok : Consistent runner s) {flight : InFlight}
    (outcome : Outcome) (after : ρ) (inFlight : s.inFlight = some flight)
    (emitted : ∀ results, outcome = .results results →
      ∃ tokens : List Token, tokens.length = (owed flight.plan flight.seqs).length ∧
        results = emitTokens runner.eosTokenIds (owed flight.plan flight.seqs) tokens) :
    Consistent runner
      { s with runner := after, inFlight := some { flight with outcome := some outcome } } where
  distinct := ok.distinct
  waiting := ok.waiting
  ended := ok.ended
  running serving := by
    have before := ok.running serving
    simp only [EngineState.plan, inFlight] at before ⊢
    exact before
  flight := by
    rintro _ ⟨rfl⟩
    obtain ⟨seqs, entries, present, decoding, nonempty, -⟩ := ok.flight flight inFlight
    exact ⟨seqs, entries, present, decoding, nonempty, fun results same =>
      emitted results (Option.some.inj same)⟩
  serving ended := by simp [ok.serving ended] at inFlight
  drained := ok.drained

omit [KVAllocator α] in
theorem Consistent.forward {s : EngineState α ρ} (ok : Consistent runner s) {flight : InFlight}
    {outcome : Outcome} {after : ρ} (inFlight : s.inFlight = some flight)
    (computed : runner.forward flight.plan flight.seqs s.runner outcome after) :
    Consistent runner
      { s with runner := after, inFlight := some { flight with outcome := some outcome } } :=
  ok.computed outcome after inFlight fun results same => by
    subst same
    exact runner.emits computed

/-! ## Applying an outcome -/

theorem FlightOk.results_ids {flight : InFlight} {running : List Sequence}
    (ok : FlightOk runner flight running) {results : IterationResults}
    (outcome : flight.outcome = some (.results results)) :
    results.map (·.1) = (owed flight.plan flight.seqs).map (·.seqId) := by
  obtain ⟨tokens, each, rfl⟩ := ok.emitted results outcome
  exact map_fst_emitTokens each

theorem FlightOk.results_once {flight : InFlight} {running : List Sequence}
    (ok : FlightOk runner flight running) {results : IterationResults}
    (outcome : flight.outcome = some (.results results)) : (results.map (·.1)).Nodup := by
  rw [ok.results_ids outcome]
  exact ok.entries.sublist (owed_sublist (ok.seqs ▸ ok.present))

theorem FlightOk.results_present {flight : InFlight} {running : List Sequence}
    (ok : FlightOk runner flight running) {results : IterationResults}
    (outcome : flight.outcome = some (.results results)) :
    ∀ id ∈ results.map (·.1), id ∈ running.map (·.seqId) := by
  intro id named
  rw [ok.results_ids outcome] at named
  exact ok.present id ((owed_sublist (ok.seqs ▸ ok.present)).subset named)

def resultsApplied (runner : ModelRunner ρ) (results : IterationResults) (folded : Folding α)
    (s : EngineState α ρ) : EngineState α ρ :=
  { s with
    inFlight := none
    running := folded.running
    allocator := folded.allocator
    callbacks := dispatchResults results s.callbacks
    runner := runner.freeAll (folded.finished.map (·.seqId)) s.runner
    ended := s.ended ++ folded.finished }

theorem applyOutcome_results (now : Time) {s : EngineState α ρ} (ok : Consistent runner s)
    {flight : InFlight} (inFlight : s.inFlight = some flight) {results : IterationResults}
    (outcome : flight.outcome = some (.results results)) :
    ∃ folded, results.foldlM (foldResult now) ⟨s.running, s.allocator, []⟩ = some folded ∧
      Folded now results ⟨s.running, s.allocator, []⟩ folded ∧
      applyOutcome runner now flight (.results results) s =
        resultsApplied runner results folded s := by
  have flightOk := ok.flight flight inFlight
  obtain ⟨folded, done, spec⟩ := @exists_folded _ _ now _ ⟨s.running, s.allocator, []⟩
    ok.running_distinct (flightOk.results_once outcome) (flightOk.results_present outcome)
  refine ⟨folded, done, spec, ?_⟩
  simp only [applyOutcome, handleIterationResults, done, Option.map_some, endSequences_eq]
  rfl

def failedBatch (flight : InFlight) : List Sequence := (batch flight.plan flight.seqs).map (·.2)

def aborted (runner : ModelRunner ρ) (seqs : List Sequence) (s : EngineState α ρ) :
    EngineState α ρ :=
  { s with
    inFlight := none
    running := (released seqs s).running
    allocator := (released seqs s).allocator
    callbacks := dispatchAborted (seqs.map (·.seqId)) s.callbacks
    runner := runner.freeAll (seqs.map (·.seqId)) s.runner
    ended := s.ended ++ (released seqs s).finished }

theorem abortAndEnd_idle {seqs : List Sequence} {s : EngineState α ρ} (idle : s.inFlight = none) :
    abortAndEnd runner seqs s = aborted runner seqs s := by
  rw [abortAndEnd_eq, aborted, ← idle]

theorem applyOutcome_failed (now : Time) (flight : InFlight) (s : EngineState α ρ) :
    applyOutcome runner now flight .failed s = aborted runner (failedBatch flight) s :=
  abortAndEnd_idle (s := { s with inFlight := none }) rfl

theorem abortAll_eq {s : EngineState α ρ} (idle : s.inFlight = none) :
    abortAll runner s =
      { aborted runner (s.running ++ s.waiting) s with waiting := [], phase := .failed } := by
  rw [abortAll, abortAndEnd_idle idle]

theorem schedule_aborted (now : Time) {s : EngineState α ρ} (idle : s.inFlight = none) :
    schedule runner scheduler now s =
      handOff (planned scheduler now s).plan
        (aborted runner (planned scheduler now s).plan.rejected
          (afterStep runner scheduler now s)) := by
  rw [schedule_eq, abortAndEnd_idle (s := afterStep runner scheduler now s) idle]

theorem FlightOk.failedBatch_ids {flight : InFlight} {running : List Sequence}
    (ok : FlightOk runner flight running) :
    (failedBatch flight).map (·.seqId) = flight.plan.ids := by
  rw [failedBatch, List.map_map]
  exact map_seqId_batch (ok.seqs ▸ ok.present)

theorem FlightOk.length_failedBatch {flight : InFlight} {running : List Sequence}
    (ok : FlightOk runner flight running) : (failedBatch flight).length = flight.plan.entries.length := by
  simpa [BatchPlan.ids] using congrArg List.length ok.failedBatch_ids

theorem FlightOk.failedBatch_nodup {flight : InFlight} {running : List Sequence}
    (ok : FlightOk runner flight running) : ((failedBatch flight).map (·.seqId)).Nodup :=
  ok.failedBatch_ids ▸ ok.entries

theorem mem_failedBatch {flight : InFlight} {running : List Sequence}
    (ok : FlightOk runner flight running) {seq : Sequence} (member : seq ∈ failedBatch flight) :
    seq ∈ running := by
  obtain ⟨⟨entry, _⟩, inBatch, rfl⟩ := List.mem_map.mp member
  exact ok.seqs ▸ (lookup_some (mem_batch.mp inBatch).2).1

theorem numTokens_recordToken (now : Time) (token : Token) (finished : Bool) (seq : Sequence) :
    (recordToken now token finished seq).numTokens = seq.numTokens + 1 := by
  simp [recordToken, Sequence.numTokens]
  omega

omit [KVAllocator α] in
theorem RunningOk.kept {entry : Option BatchEntry} {seq : Sequence} (ok : RunningOk entry seq)
    (status : seq.status ≠ .decoding) : RunningOk none seq := by
  cases entry with
  | none => exact ok
  | some entry =>
      simp only [RunningOk] at ok
      split at ok
      · obtain ⟨table, positive, le, ⟨decoding, -⟩ | ⟨prefilling, left⟩⟩ := ok
        · exact absurd decoding status
        · exact .inl ⟨prefilling, table, by omega, left⟩
      · exact absurd ok.2.1 status

theorem RunningOk.recorded {entry : BatchEntry} {seq : Sequence} (ok : RunningOk (some entry) seq)
    (status : seq.status = .decoding) (now : Time) (token : Token) :
    RunningOk none (recordToken now token false seq) := by
  refine .inr ⟨status, ?_, by simp [recordToken]⟩
  rw [numTokens_recordToken, blockTable_recordToken]
  simp only [RunningOk] at ok
  split at ok
  · obtain ⟨table, -, -, ⟨-, whole⟩ | ⟨prefilling, -⟩⟩ := ok
    · omega
    · cases status.symm.trans prefilling
  · omega

theorem ids_moved {running kept gone waiting ended : List SeqId}
    (perm : (kept ++ gone).Perm running) :
    (kept ++ waiting ++ (ended ++ gone)).Perm (running ++ waiting ++ ended) := by
  rw [List.append_assoc, ← List.append_assoc waiting]
  refine (List.Perm.append_left _ List.perm_append_comm).trans ?_
  rw [← List.append_assoc, List.append_assoc running]
  exact perm.append_right _

theorem ids_results {now : Time} {s : EngineState α ρ} {results : IterationResults}
    {folded : Folding α} (spec : Folded now results ⟨s.running, s.allocator, []⟩ folded) :
    (resultsApplied runner results folded s).ids.Perm s.ids := by
  have perm := spec.perm
  simp only [List.map_append, List.append_nil] at perm
  simp only [EngineState.ids, resultsApplied, List.map_append]
  exact ids_moved perm

theorem Consistent.results (now : Time) {s : EngineState α ρ} (ok : Consistent runner s)
    {flight : InFlight} (inFlight : s.inFlight = some flight) {results : IterationResults}
    (outcome : flight.outcome = some (.results results)) {folded : Folding α}
    (spec : Folded now results ⟨s.running, s.allocator, []⟩ folded) :
    Consistent runner (resultsApplied runner results folded s) := by
  have serving := ok.serving_of_flight inFlight
  have flightOk := ok.flight flight inFlight
  have bookkept := ok.running serving
  rw [EngineState.plan, inFlight] at bookkept
  refine ⟨(ids_results spec).nodup_iff.mpr ok.distinct, ok.waiting, ?_, ?_,
    (fun _ none => by cases none), fun _ => rfl, ?_⟩
  · intro seq member
    rcases List.mem_append.mp member with member | member
    · exact ok.ended seq member
    · rcases spec.finished seq member with member | ⟨source, -, token, a, -, rfl⟩
      · cases member
      · exact free_numTokens _ _
  · intro _ seq member
    obtain ⟨source, found, left⟩ := spec.running_source member
    have here := bookkept source found
    have owes := mem_owed_ids flightOk ok.running_distinct bookkept found
    rw [← flightOk.results_ids outcome] at owes
    rcases left with ⟨absent, rfl⟩ | ⟨token, named, rfl⟩
    · exact here.kept fun status => absent (owes.mpr status)
    · have status := owes.mp (List.mem_map_of_mem named)
      cases entry : entryFor flight.plan source.seqId with
      | none => exact absurd (flightOk.decoding source found status) (entryFor_eq_none.mp entry)
      | some entry' =>
          rw [Option.map_some, Option.getD_some, entry] at here
          exact here.recorded status now token
  · intro failed
    cases serving.symm.trans failed

theorem failed_running {s : EngineState α ρ} (ok : Consistent runner s) {flight : InFlight}
    (inFlight : s.inFlight = some flight) :
    (aborted runner (failedBatch flight) s).running =
      s.running.filter (·.seqId ∉ flight.plan.ids) := by
  rw [← (ok.flight flight inFlight).failedBatch_ids]
  exact released_running ok.running_distinct

theorem ids_failed {s : EngineState α ρ} (ok : Consistent runner s) {flight : InFlight}
    (inFlight : s.inFlight = some flight) :
    (aborted runner (failedBatch flight) s).ids.Perm s.ids := by
  have flightOk := ok.flight flight inFlight
  simp only [EngineState.ids, List.map_append, failed_running ok inFlight]
  simp only [aborted, List.map_append, released_ids, flightOk.failedBatch_ids]
  exact ids_moved (Keyed.filter_append_perm ok.running_distinct flightOk.entries flightOk.present)

theorem Consistent.failed {s : EngineState α ρ} (ok : Consistent runner s)
    {flight : InFlight} (inFlight : s.inFlight = some flight) :
    Consistent runner (aborted runner (failedBatch flight) s) := by
  have serving := ok.serving_of_flight inFlight
  have bookkept := ok.running serving
  rw [EngineState.plan, inFlight] at bookkept
  refine ⟨(ids_failed ok inFlight).nodup_iff.mpr ok.distinct, ok.waiting, ?_, ?_,
    (fun _ none => by cases none), fun _ => rfl, ?_⟩
  · exact ok.ended_released _ _
  · intro _ seq member
    rw [failed_running ok inFlight] at member
    obtain ⟨found, absent⟩ := List.mem_filter.mp member
    have here := bookkept seq found
    rw [Option.map_some, Option.getD_some,
      entryFor_eq_none.mpr (by simpa using absent)] at here
    exact here
  · intro failed
    cases serving.symm.trans failed

theorem abortAll_running {s : EngineState α ρ} (ok : Consistent runner s) :
    (aborted runner (s.running ++ s.waiting) s).running = [] := by
  have left : (aborted runner (s.running ++ s.waiting) s).running =
      s.running.filter (·.seqId ∉ (s.running ++ s.waiting).map (·.seqId)) :=
    released_running ok.running_distinct
  rw [left, List.filter_eq_nil_iff]
  intro seq member
  simp only [List.map_append, List.mem_append, decide_eq_true_eq, not_not]
  exact .inl (List.mem_map_of_mem member)

theorem ids_abortAll {s : EngineState α ρ} (ok : Consistent runner s) :
    ({ aborted runner (s.running ++ s.waiting) s with
      waiting := [], phase := .failed } : EngineState α ρ).ids.Perm s.ids := by
  simp only [EngineState.ids, abortAll_running ok]
  simp only [aborted, List.nil_append, List.map_append, released_ids]
  exact List.perm_append_comm

theorem Consistent.abortAll {s : EngineState α ρ} (ok : Consistent runner s) :
    Consistent runner
      { aborted runner (s.running ++ s.waiting) s with waiting := [], phase := .failed } :=
  ⟨(ids_abortAll ok).nodup_iff.mpr ok.distinct, List.forall_mem_nil _, ok.ended_released _ _,
    (fun serving => by cases serving), (fun _ none => by cases none), fun _ => rfl,
    fun _ => ⟨abortAll_running ok, rfl⟩⟩

/-! ## The rule for invariants of the loop -/

/-- What each event has to keep for `I` to hold of every reachable state, `_apply` split by the
outcome. `J` is what is known of reachable states already. -/
structure LoopRule (runner : ModelRunner ρ) (scheduler : Scheduler) (J I : EngineState α ρ → Prop) :
    Prop where
  arrive {s : EngineState α ρ} {req : IngressRequest} :
    Consistent runner s → J s → I s → s.inFlight = none → s.phase ≠ .failed →
    req.seqId ∉ s.ids →
    I { s with waiting := s.waiting ++ [sequenceFromIngress req] }
  schedule {s : EngineState α ρ} {now : Time} :
    Consistent runner s → J s → I s → s.inFlight = none → s.phase = .serving →
    I (schedule runner scheduler now s)
  forward {s : EngineState α ρ} {flight : InFlight} {outcome : Outcome} {after : ρ} :
    Consistent runner s → J s → I s → s.inFlight = some flight → flight.outcome = none →
    runner.forward flight.plan flight.seqs s.runner outcome after →
    I { s with runner := after, inFlight := some { flight with outcome := some outcome } }
  results {s : EngineState α ρ} {now : Time} {flight : InFlight} {results : IterationResults}
      {folded : Folding α} :
    Consistent runner s → J s → I s → s.inFlight = some flight →
    flight.outcome = some (.results results) →
    results.foldlM (foldResult now) ⟨s.running, s.allocator, []⟩ = some folded →
    Folded now results ⟨s.running, s.allocator, []⟩ folded →
    I (resultsApplied runner results folded s)
  failed {s : EngineState α ρ} {flight : InFlight} :
    Consistent runner s → J s → I s → s.inFlight = some flight → flight.outcome = some .failed →
    I (aborted runner (failedBatch flight) s)
  deviceLost {s : EngineState α ρ} {flight : InFlight} :
    Consistent runner s → J s → I s → s.inFlight = some flight → flight.outcome = some .deviceLost →
    I { s with inFlight := none, phase := .failing }
  abortAll {s : EngineState α ρ} :
    Consistent runner s → J s → I s → s.inFlight = none → s.phase = .failing →
    I { aborted runner (s.running ++ s.waiting) s with waiting := [], phase := .failed }

theorem LoopRule.step {J I : EngineState α ρ → Prop} (rule : LoopRule runner scheduler J I)
    {s t : EngineState α ρ} {event : Event} (ok : Consistent runner s) (known : J s) (holds : I s)
    (step : Step runner scheduler s event t) : I t := by
  cases step with
  | arrive idle live fresh => exact rule.arrive ok known holds idle live fresh
  | schedule idle serving => exact rule.schedule ok known holds idle serving
  | forward inFlight pending computed => exact rule.forward ok known holds inFlight pending computed
  | abortAll failing =>
      have idle := ok.serving (by simp [failing])
      rw [abortAll_eq idle]
      exact rule.abortAll ok known holds idle failing
  | @apply now flight outcome inFlight done =>
      cases outcome with
      | results results =>
          obtain ⟨folded, computed, spec, applied⟩ := applyOutcome_results now ok inFlight done
          rw [applied]
          exact rule.results ok known holds inFlight done computed spec
      | failed =>
          rw [applyOutcome_failed]
          exact rule.failed ok known holds inFlight done
      | deviceLost =>
          have lost := rule.deviceLost ok known holds inFlight done
          exact lost

theorem ids_step {s t : EngineState α ρ} {event : Event} (ok : Consistent runner s)
    (step : Step runner scheduler s event t) (quiet : ∀ req, event ≠ .arrive req) :
    t.ids.Perm s.ids := by
  cases step with
  | arrive _ _ _ => exact absurd rfl (quiet _)
  | schedule _ _ => exact ids_schedule scheduler _ ok
  | forward _ _ _ => exact .refl _
  | abortAll failing =>
      rw [abortAll_eq (ok.serving (by simp [failing]))]
      exact ids_abortAll ok
  | @apply now flight outcome inFlight done =>
      cases outcome with
      | results results =>
          obtain ⟨folded, -, spec, applied⟩ := applyOutcome_results now ok inFlight done
          rw [applied]
          exact ids_results spec
      | failed =>
          rw [applyOutcome_failed]
          exact ids_failed ok inFlight
      | deviceLost => exact .refl _

theorem consistentRule :
    LoopRule (α := α) runner scheduler (fun _ => True) (Consistent runner) where
  arrive ok _ _ idle live fresh := ok.arrive idle live fresh
  schedule ok _ _ idle serving := ok.schedule _ idle serving
  forward ok _ _ inFlight _ computed := ok.forward inFlight computed
  results ok _ _ inFlight outcome _ spec := ok.results _ inFlight outcome spec
  failed ok _ _ inFlight _ := ok.failed inFlight
  deviceLost ok _ _ _ _ := ⟨ok.distinct, ok.waiting, ok.ended, (fun serving => by cases serving),
    (fun _ none => by cases none), (fun _ => rfl), fun failed => by cases failed⟩
  abortAll ok _ _ _ _ := ok.abortAll

theorem consistent {allocator : α} {start : ρ} {s : EngineState α ρ}
    (reachable : (loop runner scheduler allocator start).Reachable s) : Consistent runner s := by
  refine reachable.invariant (P := Consistent runner) ?_ fun _ _ _ _ ok step =>
    consistentRule.step ok trivial ok step
  rintro _ rfl
  exact ⟨List.nodup_nil, (List.forall_mem_nil _), (List.forall_mem_nil _),
    (fun _ => List.forall_mem_nil _), (fun _ none => by cases none), (fun _ => rfl),
    fun failed => by cases failed⟩

theorem LoopRule.reachable {J I : EngineState α ρ → Prop} (rule : LoopRule runner scheduler J I)
    {allocator : α} {start : ρ}
    (known : ∀ s, (loop runner scheduler allocator start).Reachable s → J s)
    (initial : I { allocator, runner := start }) {s : EngineState α ρ}
    (reachable : (loop runner scheduler allocator start).Reachable s) : I s := by
  refine reachable.invariant ?_ fun s _ _ before holds step =>
    rule.step (consistent before) (known s before) holds step
  rintro _ rfl
  exact initial

end LlmServing.Engine
