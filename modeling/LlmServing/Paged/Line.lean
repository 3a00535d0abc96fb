import LlmServing.Paged.Batches

/-!
# The first in line

Preemption throws prefill work away, so the work left can grow for as long as the pool is crowded. But
what stands first in `running`, or in `waiting` while nobody runs, is never set back: unless it is blocked,
a scheduler step plans a decode step, rejects a request or gets on with that one's prefill.
-/

namespace LlmServing.Paged

open Scheduling Runner Engine Lib

def tokensToGo (seq : Sequence) : Nat := seq.samplingParams.maxTokens - seq.generatedTokens.length

def generationLeft (seqs : List Sequence) : Nat := (seqs.map tokensToGo).sum

def prefillLeft (seq : Sequence) : Nat :=
  if seq.status = .decoding then 0 else seq.numTokens - seq.prefillProgress

def headLeft (running waiting : List Sequence) : Nat :=
  ((running ++ waiting).head?.map prefillLeft).getD 0

@[simp] theorem generationLeft_nil : generationLeft [] = 0 := rfl

@[simp] theorem generationLeft_cons (seq : Sequence) (seqs : List Sequence) :
    generationLeft (seq :: seqs) = tokensToGo seq + generationLeft seqs := rfl

@[simp] theorem generationLeft_append (first second : List Sequence) :
    generationLeft (first ++ second) = generationLeft first + generationLeft second := by
  simp [generationLeft]

@[simp] theorem generationLeft_skipHead (seqs : List Sequence) :
    generationLeft (skipHead seqs) = generationLeft seqs := by
  cases seqs <;> rfl

theorem TokensLeft.tokensToGo_pos {seq : Sequence} (left : TokensLeft seq) : 0 < tokensToGo seq :=
  Nat.sub_pos_of_lt left

theorem prefillLeft_advancePrefill {seq : Sequence} (table : BlockTable) {chunk : Nat}
    (status : seq.status ≠ .decoding) (positive : 0 < chunk)
    (le : chunk ≤ seq.numTokens - seq.prefillProgress) :
    prefillLeft (advancePrefill { seq with blockTable := table } chunk) < prefillLeft seq := by
  have less : prefillLeft (advancePrefill { seq with blockTable := table } chunk) ≤
      seq.numTokens - (seq.prefillProgress + chunk) := by
    unfold prefillLeft
    split
    · exact Nat.zero_le _
    · exact Nat.le_refl _
  rw [show prefillLeft seq = _ from if_neg status]
  omega

variable {ρ : Type} {runner : ModelRunner ρ} {scheduler : Scheduler} {now : Time}
  {numBlocks blockSize : Nat} {s : EngineState BlockAllocator ρ}

theorem generationLeft_planStep {α : Type} [KVAllocator α] {st st' : Planning α}
    (step : PlanStep scheduler now st st') : generationLeft st'.live = generationLeft st.live := by
  have same (seq' seq : Sequence) (params : seq'.samplingParams = seq.samplingParams)
      (tokens : seq'.generatedTokens = seq.generatedTokens) : tokensToGo seq' = tokensToGo seq := by
    rw [tokensToGo, tokensToGo, params, tokens]
  cases step with
  | @decode front behind waiting seq a a' plan table status unplanned granted =>
      simp only [Planning.live, BatchPlan.add, generationLeft_append, generationLeft_cons,
        same { seq with blockTable := table } seq rfl rfl]
  | @preempt front others victim waiting a plan unplanned served status refused =>
      simp only [Planning.live, generationLeft_append, generationLeft_cons, generationLeft_nil,
        same (requeue victim (free a victim.blockTable).2) victim rfl rfl]
      omega
  | @«continue» front behind waiting seq a a' plan table budget chunk status unplanned positive size
      granted =>
      simp only [Planning.live, BatchPlan.add, generationLeft_append, generationLeft_cons,
        same (advancePrefill { seq with blockTable := table } chunk) seq rfl rfl]
  | @reject before after running seq a plan unfit =>
      simp only [Planning.live, generationLeft_append, generationLeft_cons, generationLeft_nil]
      omega
  | @admission before after running seq a a' plan table budget chunk fits positive room size granted =>
      simp only [Planning.live, BatchPlan.add, generationLeft_append, generationLeft_cons,
        generationLeft_nil, generationLeft_skipHead,
        same (stampAdmission now (advancePrefill { seq with blockTable := table } chunk)) seq rfl rfl]
      omega

theorem generationLeft_planSteps {α : Type} [KVAllocator α] {st st' : Planning α}
    (steps : PlanSteps scheduler now st st') : generationLeft st'.live = generationLeft st.live := by
  induction steps with
  | refl => rfl
  | tail _ step ih => exact (generationLeft_planStep step).trans ih

theorem generationLeft_planned (scheduler : Scheduler) (now : Time) (ok : Consistent runner s) :
    generationLeft (planned scheduler now s).live = generationLeft (s.running ++ s.waiting) := by
  have steps := (schedulerStep_steps scheduler now s.running s.waiting s.allocator ok.live_distinct).1
  have start : generationLeft (⟨s.running, s.waiting, s.allocator, {}⟩ : Planning BlockAllocator).live =
      generationLeft (s.running ++ s.waiting) := by simp [Planning.live]
  rw [← start]
  exact generationLeft_planSteps steps

theorem generationLeft_rejected (scheduler : Scheduler) (now : Time) (ok : Consistent runner s) (unspent : Unspent s) :
    let after := planned scheduler now s
    generationLeft (after.running ++ after.waiting) ≤ generationLeft (s.running ++ s.waiting) ∧
      (after.plan.rejected ≠ [] →
        generationLeft (after.running ++ after.waiting) < generationLeft (s.running ++ s.waiting)) := by
  intro after
  have total : generationLeft after.live = _ := generationLeft_planned scheduler now ok
  rw [Planning.live, generationLeft_append] at total
  refine ⟨by omega, fun some => ?_⟩
  obtain ⟨seq, rest, rejected⟩ := List.exists_cons_of_ne_nil some
  have left : TokensLeft seq := (unspent.planned scheduler now ok).rejected seq (by
    show seq ∈ after.plan.rejected
    rw [rejected]
    exact List.mem_cons_self)
  have positive := TokensLeft.tokensToGo_pos left
  rw [rejected, generationLeft_cons] at total
  omega

section

variable {α : Type} [KVAllocator α]

structure Adds (before after : Planning α) : Prop where
  running : before.running <+: after.running
  entries : before.plan.entries <+: after.plan.entries
  rejected : before.plan.rejected <+: after.plan.rejected

theorem planAdmissionsFrom_adds (scheduler : Scheduler) (now : Time) (cap index budget : Nat)
    (st : Planning α) : Adds st (planAdmissionsFrom scheduler now cap index budget st) := by
  fun_induction planAdmissionsFrom scheduler now cap index budget st with
  | case1 | case5 | case6 => exact ⟨List.prefix_rfl, List.prefix_rfl, List.prefix_rfl⟩
  | case2 index budget st inside room frozen seq fits chunk refused ih => exact ih
  | case3 index budget st inside room frozen seq fits chunk a' table granted admitted ih =>
      exact ⟨(List.prefix_append _ _).trans ih.running, (List.prefix_append _ _).trans ih.entries,
        ih.rejected⟩
  | case4 index budget st inside room frozen seq unfit ih =>
      exact ⟨ih.running, ih.entries, (List.prefix_append _ _).trans ih.rejected⟩

theorem continuePrefills_adds (scheduler : Scheduler) (budget : Nat) (a : α) (plan : BatchPlan)
    (todo : List Sequence) :
    plan.entries <+: (continuePrefills scheduler budget a plan todo).2.2.1.entries := by
  induction todo generalizing budget a plan with
  | nil => exact List.prefix_rfl
  | cons seq rest ih =>
      simp only [continuePrefills]
      split
      · exact ih budget a plan
      · split
        · exact List.prefix_rfl
        · exact List.IsPrefix.trans (List.prefix_append _ _) (ih _ _ (plan.add seq _ true))

theorem continuePrefills_head (scheduler : Scheduler) (budget : Nat) (a : α) (plan : BatchPlan)
    (first : Sequence) (rest : List Sequence)
    (unfinished : first.status = .prefilling → first.prefillProgress < first.numTokens) :
    ∃ first' rest', (continuePrefills scheduler budget a plan (first :: rest)).1 = first' :: rest' ∧
      prefillLeft first' ≤ prefillLeft first ∧
      (first.status = .prefilling → 0 < budget →
        allocate a first
          (scheduler.chunk (first.numTokens - first.prefillProgress) budget) 0 ≠ none →
        prefillLeft first' < prefillLeft first) := by
  simp only [continuePrefills]
  split
  · rename_i skips
    refine ⟨first, _, rfl, Nat.le_refl _, fun status positive => ?_⟩
    rcases skips with other | spent
    · exact absurd status other
    · exact absurd spent positive.ne'
  · rename_i chunked
    simp only [not_or, Decidable.not_not] at chunked
    split
    · rename_i refused
      exact ⟨first, _, rfl, Nat.le_refl _, fun _ _ granted => absurd refused granted⟩
    · rename_i a' table granted
      have less := prefillLeft_advancePrefill table (by rw [chunked.1]; decide)
        (chunk_pos scheduler (Nat.sub_pos_of_lt (unfinished chunked.1))
          (Nat.pos_of_ne_zero chunked.2))
        (chunk_le scheduler _ budget)
      exact ⟨_, _, rfl, less.le, fun _ _ _ => less⟩

end

/-! ## The first in line -/

inductive Moves (s : EngineState BlockAllocator ρ) (after : Planning BlockAllocator) : Prop where
  | rejects : after.plan.rejected ≠ [] → Moves s after
  | samples : (∃ entry ∈ after.plan.entries, entry.isPrefillChunk = false) →
      headLeft after.running after.waiting ≤ headLeft s.running s.waiting → Moves s after
  | prefills : after.plan.entries ≠ [] →
      headLeft after.running after.waiting < headLeft s.running s.waiting → Moves s after

theorem headLeft_extends {first : Sequence} {rest running waiting : List Sequence}
    (before : first :: rest <+: running) : headLeft running waiting = prefillLeft first := by
  obtain ⟨more, rfl⟩ := before
  rfl

theorem decodeNeeds_prefilling (a : BlockAllocator) {seqs : List Sequence}
    (prefilling : ∀ seq ∈ seqs, seq.status = .prefilling) : decodeNeeds a seqs = 0 := by
  refine List.sum_eq_zero fun need member => ?_
  obtain ⟨seq, kept, rfl⟩ := List.mem_map.mp member
  exact if_neg (by rw [prefilling seq kept]; decide)

theorem refused_behind {a : BlockAllocator} {running : List Sequence}
    (prefilling : ∀ seq ∈ running.take (keptCount a running), seq.status = .prefilling) :
    following running = running.drop (keptCount a running) ∧
      DecodesRefused a (running.drop (keptCount a running)) := by
  have keeps := keptCount_keeps a running
  have split := List.take_append_drop (keptCount a running) running
  have passed : ∀ seq ∈ running.take (keptCount a running),
      decide (seq.status = .prefilling) = true := fun seq member =>
    decide_eq_true (prefilling seq member)
  have needless := decodeNeeds_prefilling a prefilling
  have dropped : following running =
      (running.drop (keptCount a running)).dropWhile (·.status = .prefilling) := by
    rw [following]
    conv_lhs => rw [← split]
    rw [List.dropWhile_append_of_pos passed]
  cases behind : running.drop (keptCount a running) with
  | nil =>
      rw [behind] at dropped
      exact ⟨dropped, trivial⟩
  | cons first rest =>
      have length := congrArg List.length behind
      rw [List.length_drop, List.length_cons] at length
      have more : ¬Affordable a running (keptCount a running + 1) := fun affordable => by
        have less := keeps.largest _ (by omega) affordable
        omega
      have next : running.take (keptCount a running + 1) =
          running.take (keptCount a running) ++ [first] := by
        rw [List.take_add, behind]
        rfl
      have tail : running.drop (keptCount a running + 1) = rest := by
        rw [← List.drop_drop, behind]
        rfl
      rw [Affordable, next, tail, decodeNeeds_append, needless, decodeNeeds_cons, decodeNeeds_nil,
        Int.zero_add, Int.add_zero, Int.not_le] at more
      have decodes : first.status = .decoding := by
        by_contra other
        rw [decodeNeed, if_neg other] at more
        omega
      rw [decodeNeed, if_pos decodes] at more
      rw [behind, List.dropWhile_cons_of_neg (by simp [decodes])] at dropped
      exact ⟨dropped, by simpa [DecodesRefused] using more⟩

theorem planned_adds (scheduler : Scheduler) (now : Time) {running waiting : List Sequence} {a : BlockAllocator} {plan : BatchPlan}
    (done : planDecodes ⟨s.running, s.waiting, s.allocator, {}⟩ = ⟨running, waiting, a, plan⟩) :
    (continuePrefills scheduler scheduler.tokenBudget a plan running).1 <+:
        (planned scheduler now s).running ∧
      (continuePrefills scheduler scheduler.tokenBudget a plan running).2.2.1.entries <+:
        (planned scheduler now s).plan.entries := by
  simp only [planned, schedulerStep, planAdmissions, planPrefillContinuations, done]
  let continued := continuePrefills scheduler scheduler.tokenBudget a plan running
  have admitted := planAdmissionsFrom_adds scheduler now (scheduler.admissionCap continued.1) 0
    continued.2.2.2 ⟨continued.1, waiting, continued.2.1, continued.2.2.1⟩
  exact ⟨admitted.running, admitted.entries⟩

theorem moves_kept (ok : Consistent runner s) (owns : Ownership numBlocks blockSize s)
    (idle : s.inFlight = none) (serving : s.phase = .serving) (budget : 0 < scheduler.tokenBudget)
    (free : ¬PrefillBlocked scheduler s.allocator s.running)
    (somebody : s.running.take (keptCount s.allocator s.running) ≠ []) :
    Moves s (planned scheduler now s) := by
  have filled : ∀ seq ∈ s.running, TableFilled s.allocator.blockSize seq.blockTable :=
    owns.sized.blockSize.symm ▸ owns.filled
  obtain ⟨a, served, done, decoded⟩ := planDecodes_kept filled s.waiting
  obtain ⟨first, kept, front⟩ := List.exists_cons_of_ne_nil somebody
  have running : s.running = first :: (kept ++ s.running.drop (keptCount s.allocator s.running)) := by
    rw [← List.cons_append, ← front, List.take_append_drop]
  have both := decoded.grown
  rw [front] at both
  cases both with
  | @cons _ first' _ served' grown _ =>
  have started := ok.idle serving idle first (running ▸ List.mem_cons_self)
  have same : prefillLeft first' = prefillLeft first ∧ first'.status = first.status ∧
      first'.prefillProgress = first.prefillProgress ∧ first'.numTokens = first.numTokens := by
    obtain ⟨blocks, -, rfl⟩ := grown
    exact ⟨rfl, rfl, rfl, rfl⟩
  have line : headLeft s.running s.waiting = prefillLeft first := by
    rw [running]
    rfl
  obtain ⟨first'', rest, head, less, chunked⟩ := continuePrefills_head scheduler
    scheduler.tokenBudget a
    { entries := decodeEntries (s.running.take (keptCount s.allocator s.running))
      preempted := ((s.running.drop (keptCount s.allocator s.running)).map (·.seqId)).reverse }
    first' served' fun status => by
      rcases started with ⟨-, -, -, inside⟩ | ⟨decoding, -⟩
      · rwa [same.2.2.1, same.2.2.2]
      · cases status.symm.trans (same.2.1.trans decoding)
  obtain ⟨adds, entries⟩ := planned_adds scheduler now done
  rw [head] at adds
  have line' : headLeft (planned scheduler now s).running (planned scheduler now s).waiting =
      prefillLeft first'' := headLeft_extends adds
  by_cases decodes : decodeEntries (s.running.take (keptCount s.allocator s.running)) = []
  · have prefilling : ∀ seq ∈ s.running.take (keptCount s.allocator s.running),
        seq.status = .prefilling := by
      intro seq member
      rcases ok.idle serving idle seq (List.mem_of_mem_take member) with ⟨prefilling, -⟩ | ⟨decoding, -⟩
      · exact prefilling
      · have kept : seq ∈ (s.running.take (keptCount s.allocator s.running)).filter
            (·.status = .decoding) := List.mem_filter.mpr ⟨member, decide_eq_true decoding⟩
        rw [List.map_eq_nil_iff.mp decodes] at kept
        cases kept
    obtain ⟨behind, refused⟩ := refused_behind prefilling
    have status : first.status = .prefilling := prefilling first (front ▸ List.mem_cons_self)
    have status' : first'.status = .prefilling := same.2.1.trans status
    have granted : allocate a first' (scheduler.chunk (first'.numTokens - first'.prefillProgress)
        scheduler.tokenBudget) 0 ≠ none := by
      intro none
      have short := refused_iff.mp none
      have count := decoded.freeBlocks
      rw [decodeNeeds_prefilling _ prefilling] at count
      obtain ⟨blocks, needless, table⟩ := grown
      rw [decodeNeed, if_neg (by rw [status]; decide)] at needless
      obtain rfl : blocks = [] := List.length_eq_zero_iff.mp (by omega)
      have unchanged : first'.blockTable = first.blockTable := by
        rw [table]
        simp [status]
      obtain ⟨others, lead⟩ : ∃ others, leading s.running = first :: others := by
        rw [leading, running, List.takeWhile_cons_of_pos (by simp [status])]
        exact ⟨_, rfl⟩
      refine free ?_
      unfold PrefillBlocked
      rw [lead, behind]
      refine ⟨refused, ?_⟩
      rw [BlockAllocator.neededBlocks, unchanged, same.2.2.1, same.2.2.2, decoded.blockSize] at short
      rw [BlockAllocator.neededBlocks]
      omega
    refine .prefills (fun empty => ?_) ?_
    · rw [empty, List.prefix_nil] at entries
      exact continuePrefills_granted status' budget granted entries
    · rw [line, line', ← same.1]
      exact chunked status' budget granted
  · obtain ⟨entry, others, some⟩ := List.exists_cons_of_ne_nil decodes
    have member : entry ∈ decodeEntries (s.running.take (keptCount s.allocator s.running)) :=
      some ▸ List.mem_cons_self
    obtain ⟨seq, -, rfl⟩ := List.mem_map.mp member
    refine .samples ⟨_, ((continuePrefills_adds ..).trans entries).subset member, rfl⟩ ?_
    rw [line, line', ← same.1]
    exact less

theorem unfit_of_nobody (ok : Consistent runner s) (owns : Ownership numBlocks blockSize s)
    (idle : s.inFlight = none) (serving : s.phase = .serving)
    (nobody : s.running.take (keptCount s.allocator s.running) = []) {first : Sequence}
    {rest : List Sequence} (running : s.running = first :: rest) :
    Unfit numBlocks blockSize first.numTokens := by
  have keeps := keptCount_keeps s.allocator s.running
  have none : keptCount s.allocator s.running = 0 := by
    simpa [running] using nobody
  have more : ¬Affordable s.allocator s.running 1 := fun affordable => by
    have less := keeps.largest 1 (by simp [running]) affordable
    omega
  have total := owns.owned.heldBy_eq
  rw [Affordable, running, List.take_succ_cons, List.take_zero, List.drop_succ_cons, List.drop_zero,
    decodeNeeds_cons, decodeNeeds_nil] at more
  rw [running, heldBy_cons] at total
  have status : first.status = .decoding := by
    by_contra other
    rw [decodeNeed, if_neg other] at more
    omega
  have counted : first.blockTable.numTokens + 1 = first.numTokens := by
    rcases ok.idle serving idle first (by simp [running]) with ⟨prefilling, -⟩ | ⟨-, counted, -⟩
    · cases status.symm.trans prefilling
    · exact counted
  have grows : first.numTokens ⌈/⌉ blockSize ≤ (first.numTokens + 1) ⌈/⌉ blockSize :=
    (gc_mul_ceilDiv (owns.sized.blockSize ▸ s.allocator.blockSize_pos)).monotone_l
      (Nat.le_add_right _ 1)
  rw [decodeNeed, if_pos status, BlockAllocator.neededBlocks, counted, owns.sized.blockSize] at more
  rw [Unfit]
  omega

theorem moves_admitted {cap index budget : Nat} {st : Planning BlockAllocator} {first : Sequence}
    {rest : List Sequence} (some : st.plan.entries ≠ []) (running : st.running = first :: rest)
    (less : prefillLeft first < headLeft s.running s.waiting) :
    Moves s (planAdmissionsFrom scheduler now cap index budget st) := by
  have adds := (planAdmissionsFrom_adds scheduler now cap index budget st).running
  rw [running] at adds
  exact .prefills (planAdmissionsFrom_entries some) ((headLeft_extends adds).trans_lt less)

theorem moves_rejected {cap index budget : Nat} {st : Planning BlockAllocator}
    (some : st.plan.rejected ≠ []) :
    Moves s (planAdmissionsFrom scheduler now cap index budget st) := by
  have adds := (planAdmissionsFrom_adds scheduler now cap index budget st).rejected
  exact .rejects fun none => some (List.prefix_nil.mp (none ▸ adds))

theorem moves_nobody (ok : Consistent runner s) (owns : Ownership numBlocks blockSize s)
    (idle : s.inFlight = none) (serving : s.phase = .serving) (budget : 0 < scheduler.tokenBudget)
    (room : 0 < scheduler.maxRunning)
    (nobody : s.running.take (keptCount s.allocator s.running) = [])
    (some : s.running ++ s.waiting ≠ []) : Moves s (planned scheduler now s) := by
  obtain ⟨a, plan, whole, sized, same⟩ := planned_alone scheduler now ok owns nobody
  have briefs := considered_brief nobody
  obtain ⟨first, rest, line⟩ : ∃ first rest, considered s = first :: rest :=
    List.exists_cons_of_ne_nil fun none => some (by
      rw [none] at briefs
      exact List.map_eq_nil_iff.mp briefs.symm)
  rw [line, planAdmissionsFrom, dif_pos (by simp), if_pos ⟨budget, room⟩, if_neg (by simp)] at same
  simp only [List.getElem_cons_zero] at same
  by_cases fits : canEverFit a first = true
  · have waits : s.running = [] := by
      cases running : s.running with
      | nil => rfl
      | cons other others =>
          have requeue : first = requeued other := by
            have head := line
            rw [considered, drop_kept nobody, running] at head
            exact (List.cons.inj head).1.symm
          have unfit := unfit_of_nobody ok owns idle serving nobody running
          rw [requeue, ← Bool.not_eq_false, canEverFit_iff sized] at fits
          exact absurd unfit fits
    have ahead : s.waiting = first :: rest := by
      rw [← line, considered, drop_kept nobody, waits]
      rfl
    obtain ⟨status, fresh, -⟩ := ok.waiting first (ahead ▸ List.mem_cons_self)
    rw [if_pos fits] at same
    split at same
    · rename_i refused
      refine absurd refused (allocate_whole whole
        (considered_released owns first (line ▸ List.mem_cons_self)) fits (by omega))
    · rename_i a' table granted
      have less := prefillLeft_advancePrefill table (by rw [status]; decide)
        (chunk_pos scheduler first.numTokens_pos budget)
        ((chunk_le scheduler first.numTokens scheduler.tokenBudget).trans_eq
          (by rw [fresh, Nat.sub_zero]))
      have ahead' : headLeft s.running s.waiting = prefillLeft first := by
        rw [waits, ahead]
        rfl
      rw [same]
      exact moves_admitted (by simp) rfl (less.trans_eq ahead'.symm)
  · rw [same, if_neg fits]
    exact moves_rejected (by simp)

theorem moves (now : Time) (ok : Consistent runner s) (owns : Ownership numBlocks blockSize s)
    (idle : s.inFlight = none) (serving : s.phase = .serving) (budget : 0 < scheduler.tokenBudget)
    (room : 0 < scheduler.maxRunning) (free : ¬PrefillBlocked scheduler s.allocator s.running)
    (some : s.running ++ s.waiting ≠ []) : Moves s (planned scheduler now s) := by
  by_cases nobody : s.running.take (keptCount s.allocator s.running) = []
  · exact moves_nobody ok owns idle serving budget room nobody some
  · exact moves_kept ok owns idle serving budget free nobody

end LlmServing.Paged
