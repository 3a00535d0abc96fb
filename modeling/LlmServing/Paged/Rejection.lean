import LlmServing.Engine.Remaining
import LlmServing.Engine.Starvation
import LlmServing.Paged.Preemption

/-!
# Whom the admissions reject

`can_ever_fit` asks for the slot of one more token than a request ever writes: the last token a
request may generate is sampled and never fed. So a request that fills the pool to its last slot is
rejected once only that token is left, though the pool holds all that it writes.
-/

namespace LlmServing.Paged

open Scheduling Runner Engine Lib

variable {ρ : Type} {runner : ModelRunner ρ} {scheduler : Scheduler} {now : Time}
  {numBlocks blockSize : Nat} {s : EngineState BlockAllocator ρ}

/-- The pool holds all the tokens that `seq` ever writes, if nothing else runs. -/
def Fits (numBlocks blockSize : Nat) (seq : Sequence) : Prop :=
  (seq.promptTokens.length + seq.samplingParams.maxTokens - 1) ⌈/⌉ blockSize ≤ numBlocks

/-- The tokens of `seq` fill the pool, and it has one more to generate. -/
def Brimful (numBlocks blockSize : Nat) (seq : Sequence) : Prop :=
  seq.generatedTokens.length + 1 = seq.samplingParams.maxTokens ∧
    seq.numTokens = numBlocks * blockSize

instance (numBlocks blockSize : Nat) (seq : Sequence) : Decidable (Fits numBlocks blockSize seq) :=
  inferInstanceAs (Decidable (_ ≤ _))

instance (numBlocks blockSize : Nat) (seq : Sequence) :
    Decidable (Brimful numBlocks blockSize seq) :=
  inferInstanceAs (Decidable (_ ∧ _))

def Unfit (numBlocks blockSize numTokens : Nat) : Prop :=
  numBlocks < (numTokens + 1) ⌈/⌉ blockSize

theorem unfit_iff (positive : 0 < blockSize) {numTokens : Nat} :
    Unfit numBlocks blockSize numTokens ↔ numBlocks * blockSize ≤ numTokens := by
  rw [Unfit, ← Nat.not_le, ceilDiv_le_iff_le_mul positive, Nat.mul_comm]
  omega

theorem fits_iff (positive : 0 < blockSize) {seq : Sequence} :
    Fits numBlocks blockSize seq ↔
      seq.promptTokens.length + seq.samplingParams.maxTokens ≤ numBlocks * blockSize + 1 := by
  rw [Fits, ceilDiv_le_iff_le_mul positive, Nat.mul_comm]
  omega

theorem canEverFit_iff {a : BlockAllocator} (sized : Sized numBlocks blockSize a) {seq : Sequence} :
    canEverFit a seq = false ↔ Unfit numBlocks blockSize seq.numTokens := by
  show BlockAllocator.canEverFit a seq = false ↔ _
  rw [BlockAllocator.canEverFit, decide_eq_false_iff_not, sized.numBlocks, sized.blockSize,
    Nat.not_le, Unfit]

theorem brimful_iff (positive : 0 < blockSize) {seq : Sequence} (left : TokensLeft seq) :
    Brimful numBlocks blockSize seq ↔
      Fits numBlocks blockSize seq ∧ Unfit numBlocks blockSize seq.numTokens := by
  rw [fits_iff positive, unfit_iff positive, Brimful]
  rw [TokensLeft] at left
  unfold Sequence.numTokens
  omega

def considered (s : EngineState BlockAllocator ρ) : List Sequence :=
  (s.running.drop (keptCount s.allocator s.running)).map requeued ++ s.waiting

theorem planned_source (owns : Ownership numBlocks blockSize s) {seq : Sequence}
    (member : seq ∈ (planned scheduler now s).waiting ++ (planned scheduler now s).plan.rejected) :
    ∃ source ∈ considered s, ∃ skips, seq = { source with admissionSkips := skips } := by
  have filled : ∀ seq ∈ s.running, TableFilled s.allocator.blockSize seq.blockTable :=
    owns.sized.blockSize.symm ▸ owns.filled
  obtain ⟨a, served, done, -⟩ := planDecodes_kept filled s.waiting
  simp only [planned, schedulerStep, planAdmissions, planPrefillContinuations] at member
  obtain ⟨source, found, same⟩ := planAdmissionsFrom_source _ _ _ _ _ _ member
  obtain ⟨entries, plan⟩ := continuePrefills_plan scheduler scheduler.tokenBudget
    (planDecodes ⟨s.running, s.waiting, s.allocator, {}⟩).allocator
    (planDecodes ⟨s.running, s.waiting, s.allocator, {}⟩).plan
    (planDecodes ⟨s.running, s.waiting, s.allocator, {}⟩).running
  simp only [plan] at found
  rw [done, List.append_nil] at found
  exact ⟨source, found, same⟩

theorem planned_rejected (ok : Consistent runner s) (owns : Ownership numBlocks blockSize s)
    (unspent : Unspent s) {seq : Sequence}
    (member : seq ∈ (planned scheduler now s).plan.rejected) :
    Unfit numBlocks blockSize seq.numTokens ∧ TokensLeft seq := by
  have unfit := ((filling scheduler now).schedulerStep_keeps
    (I := fun st => ∀ seq ∈ st.plan.rejected, Unfit numBlocks blockSize seq.numTokens)
    (fun st st' step _ holds before => by
      cases step with
      | decode | preempt | «continue» | admission => exact before
      | reject refused =>
          intro seq member
          rcases List.mem_append.mp member with member | member
          · exact before seq member
          · rw [List.mem_singleton.mp member]
            exact (canEverFit_iff holds.allocator).mp refused)
    ok.live_distinct owns.sized owns.filled owns.waiting (List.forall_mem_nil _)).2
  exact ⟨unfit seq member, (unspent.planned scheduler now ok).rejected seq member⟩

theorem planAdmissionsFrom_rejected (scheduler : Scheduler) (now : Time) (cap index budget : Nat)
    {st : Planning BlockAllocator} (sized : Sized numBlocks blockSize st.allocator) (seq : Sequence) :
    seq ∈ (planAdmissionsFrom scheduler now cap index budget st).plan.rejected ↔
      seq ∈ st.plan.rejected ∨
        ∃ round ∈ roundsFrom scheduler now cap index budget st,
          round.2 = seq ∧ Unfit numBlocks blockSize seq.numTokens := by
  fun_induction planAdmissionsFrom scheduler now cap index budget st with
  | case1 index budget st inside room frozen =>
      rw [roundsFrom, dif_pos inside, if_pos room, if_pos frozen]
      simp
  | case2 index budget st inside room frozen other fits chunk refused ih =>
      have able : ¬Unfit numBlocks blockSize other.numTokens := fun unfit => by
        cases fits.symm.trans ((canEverFit_iff sized).mpr unfit)
      rw [roundsFrom, dif_pos inside, if_pos room, if_neg frozen]
      simp only [other, chunk] at fits refused able
      simp only [if_pos fits, refused, List.exists_mem_cons_iff]
      rw [ih sized]
      refine or_congr_right ⟨.inr, fun found => found.resolve_left ?_⟩
      rintro ⟨rfl, unfit⟩
      exact able unfit
  | case3 index budget st inside room frozen other fits chunk a' table granted admitted ih =>
      have able : ¬Unfit numBlocks blockSize other.numTokens := fun unfit => by
        cases fits.symm.trans ((canEverFit_iff sized).mpr unfit)
      rw [roundsFrom, dif_pos inside, if_pos room, if_neg frozen]
      simp only [other, chunk] at fits granted able
      simp only [if_pos fits, granted, List.exists_mem_cons_iff]
      rw [ih (sized.grant granted)]
      refine or_congr_right ⟨.inr, fun found => found.resolve_left ?_⟩
      rintro ⟨rfl, unfit⟩
      exact able unfit
  | case4 index budget st inside room frozen other unable ih =>
      have unfit : Unfit numBlocks blockSize other.numTokens :=
        (canEverFit_iff sized).mp (Bool.eq_false_iff.mpr unable)
      rw [roundsFrom, dif_pos inside, if_pos room, if_neg frozen]
      simp only [other] at unable unfit
      simp only [if_neg unable, List.exists_mem_cons_iff]
      rw [ih sized, List.mem_append, List.mem_singleton, or_assoc]
      refine or_congr_right (or_congr_left ⟨?_, fun same => same.1.symm⟩)
      rintro rfl
      exact ⟨rfl, unfit⟩
  | case5 index budget st inside full =>
      rw [roundsFrom, dif_pos inside, if_neg full]
      simp
  | case6 index budget st outside =>
      rw [roundsFrom, dif_neg outside]
      simp

theorem mem_planned_rejected (scheduler : Scheduler) (now : Time) (ok : Consistent runner s)
    (owns : Ownership numBlocks blockSize s) (seq : Sequence) :
    seq ∈ (planned scheduler now s).plan.rejected ↔
      ∃ round ∈ rounds scheduler now s, round.2 = seq ∧ Unfit numBlocks blockSize seq.numTokens := by
  have filled : ∀ seq ∈ s.running, TableFilled s.allocator.blockSize seq.blockTable :=
    owns.sized.blockSize.symm ▸ owns.filled
  obtain ⟨a, served, done, -⟩ := planDecodes_kept filled s.waiting
  have sized := (filling scheduler now).allocator
    (continued_steps scheduler now s.running s.waiting s.allocator ok.live_distinct).1 owns.sized
  obtain ⟨entries, plan⟩ := continuePrefills_plan scheduler scheduler.tokenBudget
    (planDecodes ⟨s.running, s.waiting, s.allocator, {}⟩).allocator
    (planDecodes ⟨s.running, s.waiting, s.allocator, {}⟩).plan
    (planDecodes ⟨s.running, s.waiting, s.allocator, {}⟩).running
  have none : (planPrefillContinuations scheduler
      (planDecodes ⟨s.running, s.waiting, s.allocator, {}⟩)).1.plan.rejected = [] := by
    simp only [planPrefillContinuations, plan]
    rw [done]
  have looked := planAdmissionsFrom_rejected scheduler now (scheduler.admissionCap
    (planPrefillContinuations scheduler
      (planDecodes ⟨s.running, s.waiting, s.allocator, {}⟩)).1.running) 0
    (planPrefillContinuations scheduler (planDecodes ⟨s.running, s.waiting, s.allocator, {}⟩)).2
    sized seq
  rw [none, or_iff_right List.not_mem_nil] at looked
  exact looked

theorem rejected_fits_iff (scheduler : Scheduler) (now : Time) (positive : 0 < blockSize) (ok : Consistent runner s)
    (owns : Ownership numBlocks blockSize s) (unspent : Unspent s) :
    (∃ seq ∈ (planned scheduler now s).plan.rejected, Fits numBlocks blockSize seq) ↔
      ∃ round ∈ rounds scheduler now s, Brimful numBlocks blockSize round.2 := by
  constructor
  · rintro ⟨seq, rejected, fits⟩
    obtain ⟨unfit, left⟩ := planned_rejected ok owns unspent rejected
    obtain ⟨round, looked, rfl, -⟩ := (mem_planned_rejected scheduler now ok owns seq).mp rejected
    exact ⟨round, looked, (brimful_iff positive left).mpr ⟨fits, unfit⟩⟩
  · rintro ⟨round, looked, brimful⟩
    have unfit : Unfit numBlocks blockSize round.2.numTokens := by
      rw [unfit_iff positive, brimful.2]
    have rejected := (mem_planned_rejected scheduler now ok owns round.2).mpr ⟨round, looked, rfl, unfit⟩
    have left := (planned_rejected ok owns unspent rejected).2
    exact ⟨round.2, rejected, ((brimful_iff positive left).mp brimful).1⟩

theorem planned_brimful (positive : 0 < blockSize) (ok : Consistent runner s)
    (owns : Ownership numBlocks blockSize s) {seq : Sequence} (member : seq ∈ s.waiting)
    (brimful : Brimful numBlocks blockSize seq) :
    ∃ skips, { seq with admissionSkips := skips } ∈
      (planned scheduler now s).waiting ++ (planned scheduler now s).plan.rejected := by
  refine ((filling scheduler now).schedulerStep_keeps
    (I := fun st => ∃ skips,
      { seq with admissionSkips := skips } ∈ st.waiting ++ st.plan.rejected)
    (fun st st' step _ holds before => ?_)
    ok.live_distinct owns.sized owns.filled owns.waiting
    ⟨seq.admissionSkips, List.mem_append_left _ member⟩).2
  obtain ⟨skips, found⟩ := before
  cases step with
  | decode | «continue» => exact ⟨skips, found⟩
  | preempt unplanned served status refused => exact ⟨skips, List.mem_cons_of_mem _ found⟩
  | reject refused =>
      refine ⟨skips, ?_⟩
      simp only [List.mem_append, List.mem_cons] at found ⊢
      tauto
  | @admission before after running other a a' plan table budget chunk fits positive' room size
      granted =>
      have different : { seq with admissionSkips := skips } ≠ other := by
        rintro rfl
        have unfit : Unfit numBlocks blockSize seq.numTokens := by
          rw [unfit_iff positive, brimful.2]
        cases fits.symm.trans ((canEverFit_iff holds.allocator).mpr unfit)
      simp only [List.mem_append, List.mem_cons] at found ⊢
      rcases found with (found | same | found) | found
      · cases before with
        | nil => cases found
        | cons head rest =>
            rcases List.mem_cons.mp found with rfl | found
            · exact ⟨skips + 1, .inl (.inl (List.mem_cons_self ..))⟩
            · exact ⟨skips, .inl (.inl (List.mem_cons_of_mem _ found))⟩
      · exact absurd same different
      · exact ⟨skips, .inl (.inr found)⟩
      · exact ⟨skips, .inr found⟩

/-! ## Blocks of two slots and more -/

theorem cached_pos (ok : Consistent runner s) (idle : s.inFlight = none)
    (serving : s.phase = .serving) {seq : Sequence} (member : seq ∈ s.running) :
    0 < seq.blockTable.numTokens := by
  rcases ok.idle serving idle seq member with ⟨-, table, some, -⟩ | ⟨-, table, generated⟩
  · omega
  · have prompt := List.length_pos_iff.mpr seq.promptTokens_ne_nil
    have more := List.length_pos_iff.mpr generated
    unfold Sequence.numTokens at table
    omega

theorem blocks_pos (positive : 0 < blockSize) {table : BlockTable}
    (filled : TableFilled blockSize table) (cached : 0 < table.numTokens) :
    0 < table.physicalBlocks.length := by
  unfold TableFilled at filled
  by_contra none
  have covers : table.numTokens ≤ blockSize * 0 :=
    (ceilDiv_le_iff_le_mul positive).mp (by omega)
  omega

theorem blocks_of_full (wide : 2 ≤ blockSize) {table : BlockTable}
    (filled : TableFilled blockSize table) (full : table.numTokens + 1 = numBlocks * blockSize) :
    table.physicalBlocks.length = numBlocks := by
  have positive : 0 < blockSize := by omega
  unfold TableFilled at filled
  have most : table.numTokens ⌈/⌉ blockSize ≤ numBlocks := by
    rw [ceilDiv_le_iff_le_mul positive, Nat.mul_comm]
    omega
  have pool : 0 < numBlocks := Nat.pos_of_mul_pos_right (Nat.lt_of_lt_of_eq (by omega) full)
  have one : blockSize ≤ numBlocks * blockSize := Nat.le_mul_of_pos_left blockSize pool
  have least : ¬table.numTokens ⌈/⌉ blockSize ≤ numBlocks - 1 := by
    rw [ceilDiv_le_iff_le_mul positive, Nat.mul_sub_one, Nat.mul_comm]
    omega
  omega

theorem eq_nil_of_heldBy {seqs : List Sequence}
    (some : ∀ seq ∈ seqs, 0 < seq.blockTable.physicalBlocks.length) (none : heldBy seqs = 0) :
    seqs = [] := by
  cases seqs with
  | nil => rfl
  | cons seq rest =>
      have holds := some seq (by simp)
      rw [heldBy_cons] at none
      omega

theorem alone_of_full (wide : 2 ≤ blockSize) (ok : Consistent runner s)
    (owns : Ownership numBlocks blockSize s) (idle : s.inFlight = none)
    (serving : s.phase = .serving) {seq : Sequence} (member : seq ∈ s.running)
    (status : seq.status = .decoding) (full : seq.numTokens = numBlocks * blockSize) :
    s.running.drop (keptCount s.allocator s.running) = [] := by
  have positive : 0 < blockSize := by omega
  have some (other : Sequence) (running : other ∈ s.running) :
      0 < other.blockTable.physicalBlocks.length :=
    blocks_pos positive (owns.filled other running) (cached_pos ok idle serving running)
  have table : seq.blockTable.numTokens + 1 = numBlocks * blockSize := by
    rcases ok.idle serving idle seq member with ⟨prefilling, -⟩ | ⟨-, table, -⟩
    · cases status.symm.trans prefilling
    · omega
  have whole := blocks_of_full wide (owns.filled seq member) table
  have total := owns.owned.heldBy_eq
  obtain ⟨front, behind, split⟩ := List.append_of_mem member
  rw [split, heldBy_append, heldBy_cons, whole] at total
  obtain rfl : front = [] := eq_nil_of_heldBy
    (fun other found => some other (by simp [split, found])) (by omega)
  obtain rfl : behind = [] := eq_nil_of_heldBy
    (fun other found => some other (by simp [split, found])) (by omega)
  rw [split, List.nil_append]
  have one : Affordable s.allocator [seq] 1 := by
    have slots : (seq.blockTable.numTokens + 1) ⌈/⌉ s.allocator.blockSize ≤ numBlocks := by
      rw [owns.sized.blockSize, ceilDiv_le_iff_le_mul positive, Nat.mul_comm]
      omega
    have need : decodeNeed s.allocator seq ≤ 0 := by
      rw [decodeNeed, if_pos status, BlockAllocator.neededBlocks, whole]
      omega
    simp only [Affordable, List.take_succ_cons, List.take_zero, decodeNeeds_cons, decodeNeeds_nil]
    omega
  have kept := (keptCount_keeps s.allocator [seq]).largest 1 (Nat.le_refl _) one
  exact List.drop_eq_nil_of_le kept

structure Unstarted (numBlocks blockSize : Nat) (s : EngineState BlockAllocator ρ) : Prop where
  prefilling : ∀ seq ∈ s.running, seq.status = .prefilling →
    ¬Unfit numBlocks blockSize seq.numTokens
  waiting : ∀ seq ∈ s.waiting, Brimful numBlocks blockSize seq → seq.generatedTokens = []

theorem Unstarted.considered (wide : 2 ≤ blockSize) (ok : Consistent runner s)
    (owns : Ownership numBlocks blockSize s) (unstarted : Unstarted numBlocks blockSize s)
    (idle : s.inFlight = none) (serving : s.phase = .serving) {seq : Sequence}
    (member : seq ∈ considered s) (brimful : Brimful numBlocks blockSize seq) :
    seq.generatedTokens = [] := by
  rcases List.mem_append.mp member with member | member
  · obtain ⟨source, gone, rfl⟩ := List.mem_map.mp member
    have running := List.mem_of_mem_drop gone
    rcases ok.idle serving idle source running with ⟨status, -⟩ | ⟨status, -⟩
    · refine absurd ?_ (unstarted.prefilling source running status)
      have full : source.numTokens = numBlocks * blockSize := brimful.2
      rw [unfit_iff (by omega), full]
    · rw [alone_of_full wide ok owns idle serving running status brimful.2] at gone
      cases gone
  · exact unstarted.waiting seq member brimful

theorem prefilling_fits (scheduler : Scheduler) (now : Time) :
    PlanRule scheduler now (Sized numBlocks blockSize)
      (fun _ _ seq => seq.status = .prefilling → ¬Unfit numBlocks blockSize seq.numTokens)
      (fun _ _ => True) where
  grant sized granted := sized.grant granted
  release sized := sized.free _
  decode _ _ fits _ := fits
  preempt _ _ := trivial
  «continue» _ status fits _ _ := fun _ => fits status
  admission sized _ fits _ _ := by
    intro _ unfit
    cases fits.symm.trans ((canEverFit_iff sized).mpr unfit)
  skip _ := trivial

theorem unstartedRule (wide : 2 ≤ blockSize) :
    LoopRule runner scheduler (Ownership numBlocks blockSize)
      (Unstarted (ρ := ρ) numBlocks blockSize) where
  arrive _ _ unstarted _ _ _ := by
    refine ⟨unstarted.prefilling, fun seq member brimful => ?_⟩
    rcases List.mem_append.mp member with member | member
    · exact unstarted.waiting seq member brimful
    · rw [List.mem_singleton.mp member]
      rfl
  schedule {s now} ok owns unstarted idle serving := by
    have holds := ok.holds (prefilling_fits scheduler now) owns.sized unstarted.prefilling
      fun _ _ => trivial
    refine ⟨fun seq member => ?_, fun seq member brimful => ?_⟩
    · rw [schedule_running _ _ _ ok.live_distinct] at member
      exact holds.running seq member
    · rw [schedule_waiting] at member
      obtain ⟨source, found, skips, rfl⟩ := planned_source owns (List.mem_append_left _ member)
      have before := unstarted.considered wide ok owns idle serving found brimful
      exact before
  forward _ _ unstarted _ _ _ := ⟨unstarted.prefilling, unstarted.waiting⟩
  results {s now flight results folded} ok _ unstarted inFlight outcome _ spec := by
    refine ⟨fun seq member status => ?_, unstarted.waiting⟩
    obtain ⟨source, found, left⟩ := spec.running_source member
    rcases left with ⟨-, rfl⟩ | ⟨token, named, rfl⟩
    · exact unstarted.prefilling _ found status
    · have flightOk := ok.flight flight inFlight
      have bookkept := ok.running (ok.serving_of_flight inFlight)
      rw [EngineState.plan, inFlight] at bookkept
      have owes := (mem_owed_ids flightOk ok.running_distinct bookkept found).mp
        (flightOk.results_ids outcome ▸ List.mem_map_of_mem named)
      have prefilling : source.status = .prefilling := status
      cases owes.symm.trans prefilling
  failed ok _ unstarted inFlight _ := by
    refine ⟨fun seq member => ?_, unstarted.waiting⟩
    rw [failed_running ok inFlight] at member
    exact unstarted.prefilling seq (List.mem_of_mem_filter member)
  deviceLost _ _ unstarted _ _ := ⟨unstarted.prefilling, unstarted.waiting⟩
  abortAll ok _ _ _ _ := by
    refine ⟨fun seq member => ?_, List.forall_mem_nil _⟩
    rw [abortAll_running ok] at member
    cases member

theorem unstarted (wide : 2 ≤ blockSize) {positive : 0 < blockSize} {start : ρ}
    (reachable : (loop runner scheduler (.fresh numBlocks blockSize positive) start).Reachable s) :
    Unstarted numBlocks blockSize s :=
  (unstartedRule wide).reachable (fun _ before => ownership before)
    ⟨List.forall_mem_nil _, List.forall_mem_nil _⟩ reachable

/-- The admissions of no scheduler step look at a brimful sequence. -/
def Spared (scheduler : Scheduler) (numBlocks blockSize : Nat) (s : EngineState BlockAllocator ρ)
    (event : Event) : Prop :=
  ∀ now, event = .schedule now → ∀ round ∈ rounds scheduler now s, ¬Brimful numBlocks blockSize round.2

/-- In a run whose admissions look at no brimful sequence no request that fits is rejected, and a step of
any run rejects one exactly when they do. A brimful sequence never leaves `waiting` but to be rejected.
With blocks of two slots or more it can only be a prompt that fills the pool and asks for a single
token. -/
theorem rejected_never_fits (runner : ModelRunner ρ) (scheduler : Scheduler)
    {numBlocks blockSize : Nat} (positive : 0 < blockSize) (start : ρ) :
    (∀ s now t,
      ((loop runner scheduler (.fresh numBlocks blockSize positive) start).guarded
        (Spared scheduler numBlocks blockSize)).Reachable s →
      ((loop runner scheduler (.fresh numBlocks blockSize positive) start).guarded
        (Spared scheduler numBlocks blockSize)).step s (.schedule now) t →
      ∀ seq ∈ (planned scheduler now s).plan.rejected, ¬Fits numBlocks blockSize seq) ∧
    (∀ s, (loop runner scheduler (BlockAllocator.fresh numBlocks blockSize positive)
      start).Reachable s → ∀ now,
      ((∀ seq ∈ (planned scheduler now s).plan.rejected, ¬Fits numBlocks blockSize seq) ↔
        Spared scheduler numBlocks blockSize s (.schedule now)) ∧
      ∀ seq ∈ s.waiting, Brimful numBlocks blockSize seq →
      Fits numBlocks blockSize seq ∧ ∃ skips, { seq with admissionSkips := skips } ∈
        (planned scheduler now s).waiting ++ (planned scheduler now s).plan.rejected) ∧
    (2 ≤ blockSize → ∀ s,
      (loop runner scheduler (BlockAllocator.fresh numBlocks blockSize positive)
        start).Reachable s → s.inFlight = none → s.phase = .serving → ∀ now,
      ∀ seq ∈ (planned scheduler now s).plan.rejected, Fits numBlocks blockSize seq →
      seq.samplingParams.maxTokens = 1 ∧ seq.promptTokens.length = numBlocks * blockSize) := by
  have exact : ∀ s, (loop runner scheduler (BlockAllocator.fresh numBlocks blockSize positive)
      start).Reachable s → ∀ now,
      (∀ seq ∈ (planned scheduler now s).plan.rejected, ¬Fits numBlocks blockSize seq) ↔
        Spared scheduler numBlocks blockSize s (.schedule now) := by
    intro s reachable now
    have looks := rejected_fits_iff scheduler now positive
      (consistent reachable) (ownership reachable) (unspent reachable)
    constructor
    · rintro never now' same round looked brimful
      cases same
      obtain ⟨seq, rejected, fits⟩ := looks.mpr ⟨round, looked, brimful⟩
      exact never seq rejected fits
    · intro spared seq rejected fits
      obtain ⟨round, looked, brimful⟩ := looks.mp ⟨seq, rejected, fits⟩
      exact spared now rfl round looked brimful
  refine ⟨?_, fun s reachable now => ⟨exact s reachable now, ?_⟩, ?_⟩
  · rintro s now _ reachable ⟨spared, -⟩
    exact (exact s (Machine.guarded_reachable reachable) now).mpr spared
  · intro seq member brimful
    have left := unspent reachable seq (List.mem_append_right _ member)
    exact ⟨((brimful_iff positive left).mp brimful).1,
      planned_brimful positive (consistent reachable) (ownership reachable) member brimful⟩
  · intro wide s reachable idle serving now seq rejected fits
    obtain ⟨unfit, left⟩ :=
      planned_rejected (consistent reachable) (ownership reachable) (unspent reachable) rejected
    have brimful := (brimful_iff positive left).mpr ⟨fits, unfit⟩
    obtain ⟨source, found, skips, rfl⟩ :=
      planned_source (ownership reachable) (List.mem_append_right _ rejected)
    have nothing : source.generatedTokens = [] :=
      (unstarted wide reachable).considered wide (consistent reachable) (ownership reachable) idle
        serving found brimful
    obtain ⟨last, full⟩ := brimful
    simp only [Sequence.numTokens, nothing, List.length_nil] at last full ⊢
    omega

def brimRequest : IngressRequest := sampleRequest 0 1 [2, 3, 4] 0

def brimArrived : EngineState BlockAllocator Caches :=
  arrived [brimRequest] { allocator := samplePool 1 3, runner := fun _ => [] }

theorem brimArrived_reachable :
    (loop (hfRunner [] List.length) sampleScheduler (samplePool 1 3) fun _ => []).Reachable
      brimArrived :=
  arrived_reachable _ (.initial rfl) rfl (by decide) (by decide) (by decide)

/-- The block holds the prompt, and the token it asks for is never written. -/
theorem rejected_fits :
    (loop (hfRunner [] List.length) sampleScheduler (samplePool 1 3) fun _ => []).Reachable
      brimArrived ∧
    brimArrived.inFlight = none ∧ brimArrived.phase = .serving ∧
    ¬∀ seq ∈ (planned sampleScheduler 0 brimArrived).plan.rejected, ¬Fits 1 4 seq :=
  ⟨brimArrived_reachable, rfl, rfl, by decide +kernel⟩

abbrev crowdedLoop : Machine (EngineState BlockAllocator Caches) Event :=
  loop (hfRunner [] List.length) sampleScheduler (samplePool 4 0) fun _ => []

def crowded : EngineState BlockAllocator Caches :=
  arrived [sampleRequest 0 1 [] 1, sampleRequest 1 1 [2, 3, 4, 5] 1, sampleRequest 2 1 [] 1,
      sampleRequest 3 1 [2, 3, 4] 0]
    { allocator := samplePool 4 0, runner := fun _ => [] }

/-- The two short prompts fill the batch, so the admissions do not come to the last one. -/
theorem rejected_never_fits_sample :
    (∃ seq ∈ crowded.waiting, Brimful 4 1 seq) ∧
    (planned sampleScheduler 0 crowded).plan.rejected.map (·.seqId) = [1] ∧
    (∀ seq ∈ (planned sampleScheduler 0 crowded).plan.rejected, ¬Fits 4 1 seq) ∧
    ¬∀ seq ∈ (planned sampleScheduler 0 brimArrived).plan.rejected, ¬Fits 1 4 seq := by
  have others : AtSchedules (Spared (ρ := Caches) sampleScheduler 4 1) :=
    fun _ _ others now same => absurd same (others now)
  have reachable : (crowdedLoop.guarded (Spared sampleScheduler 4 1)).Reachable crowded :=
    arrived_guarded others _ (.initial rfl) rfl (by decide) (by decide) (by decide)
  have unseen : ∀ round ∈ rounds sampleScheduler 0 crowded, ¬Brimful 4 1 round.2 := by decide +kernel
  refine ⟨by decide, by decide +kernel, ?_, ?_⟩
  · exact (rejected_never_fits (hfRunner [] List.length) sampleScheduler (by decide) fun _ => []).1
      crowded 0 (schedule (hfRunner [] List.length) sampleScheduler 0 crowded) reachable
      ⟨fun now same => by cases same; exact unseen, .schedule rfl rfl⟩
  · have spared := ((rejected_never_fits (hfRunner [] List.length) sampleScheduler (by decide)
      fun _ => []).2.1 brimArrived brimArrived_reachable 0).1
    rw [spared]
    intro none
    have seen : ∃ round ∈ rounds sampleScheduler 0 brimArrived, Brimful 1 4 round.2 := by decide +kernel
    obtain ⟨round, looked, brimful⟩ := seen
    exact none 0 rfl round looked brimful

end LlmServing.Paged
