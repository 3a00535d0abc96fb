import LlmServing.LoadGen.Arrivals
import LlmServing.Observability.Requests
import Mathlib.Data.String.Basic

/-!
# The report of a run

`loadgen/report.py`: what a run's results say of its load, its rates and its latencies, and what repeated
runs of one load say together. Tokens are counts or missing, as the server's last event has them.
-/

namespace LlmServing.LoadGen

open Scheduling Lib Observability

def maxKeepingUpTtftGrowth : ℚ := 2

def steadyStartFraction : ℚ := 1 / 4

def minQuarterRequests : Nat := 10

structure SLOThresholds where
  ttftMs : Option ℚ := none
  tpotMs : Option ℚ := none
  e2eMs : Option ℚ := none

structure LatencyReport where
  ttftByShape : List (String × LatencySummary)
  e2eByShape : List (String × LatencySummary)
  e2eLatency : Option LatencySummary
  tpot : Option LatencySummary
  itl : Option LatencySummary

structure SloAttainment where
  ttft : Option ℚ
  tpot : Option ℚ
  e2e : Option ℚ

structure RunReport where
  sendWindow : Time
  wallClock : Time
  requests : Nat
  failures : Nat
  offeredReqS : Option ℚ
  throughputReqS : ℚ
  outputTokensS : ℚ
  inputTokensS : ℚ
  totalTokensS : ℚ
  latency : LatencyReport
  ttftGrowth : Option ℚ := none
  goodputReqS : Option ℚ := none
  sloAttainment : Option SloAttainment := none

def RunReport.keepsUp (report : RunReport) : Option Bool :=
  match report.offeredReqS with
  | none => none
  | some _ =>
      if report.failures ≠ 0 then some false
      else report.ttftGrowth.map fun growth => decide (growth ≤ maxKeepingUpTtftGrowth)

structure PointReport where
  repeats : List RunReport
  latency : LatencyReport

def PointReport.keepsUp (point : PointReport) : Option Bool :=
  let verdicts := point.repeats.map (·.keepsUp)
  if some false ∈ verdicts then some false
  else if some true ∈ verdicts then some true
  else none

def tokenCount : Option Json.Value → Option Nat
  | some (.number count) => some count
  | _ => none

def Timed.outputTokens (r : Timed) : Option Nat := tokenCount r.result.outputTokens

def Timed.promptTokens (r : Timed) : Option Nat := tokenCount r.result.promptTokens

def tpot (r : Timed) : Option Time :=
  match r.firstTokenLatency, r.outputTokens with
  | some first, some count =>
      if count < 2 then none else some ((r.latency - first) / (count - 1 : Nat))
  | _, _ => none

def satisfies (r : Timed) (slo : SLOThresholds) : Bool :=
  let checks := [
    (if r.scheduledAt.isSome then slo.ttftMs else none, r.firstTokenLatency),
    (slo.tpotMs, tpot r),
    (slo.e2eMs, some r.latency)]
  checks.all fun (threshold, value) =>
    threshold.all fun threshold => value.any fun value => value * 1000 ≤ threshold

def successes (results : List Timed) : List Timed := results.filter (·.result.success)

def wallClock (results : List Timed) : Time := (results.map (·.completedAt)).max?.getD 0

def sendWindow (results : List Timed) : Time :=
  (results.filterMap (·.scheduledAt)).max?.getD (wallClock results)

def median (values : List ℚ) : Except String ℚ :=
  let ordered := values.insertionSort (· ≤ ·)
  let n := ordered.length
  let value (i : Nat) := ordered[i]?.elim (throw "no median for empty data") pure
  if n % 2 = 1 then value (n / 2)
  else do
    let low ← value (n / 2 - 1)
    let high ← value (n / 2)
    pure ((low + high) / 2)

structure Arrival where
  shape : String
  scheduledAt : Time
  firstTokenLatency : Time

def Timed.arrival (r : Timed) : Option Arrival :=
  match r.scheduledAt, r.firstTokenLatency with
  | some scheduledAt, some firstTokenLatency =>
      if r.result.success then some { shape := r.shape, scheduledAt, firstTokenLatency } else none
  | _, _ => none

def ttftGrowth (results : List Timed) : Except String (Option ℚ) :=
  let timed := results.filterMap (·.arrival)
  match mostCommon (timed.map (·.shape)) with
  | none => pure none
  | some common => do
      let scheduled := (timed.filter (·.shape = common)).insertionSort
        fun a b => a.scheduledAt ≤ b.scheduledAt
      let quarter := scheduled.length / 4
      if quarter < minQuarterRequests then pure none
      else
        let first ← median ((scheduled.take quarter).map (·.firstTokenLatency))
        let last ← median ((scheduled.drop (scheduled.length - quarter)).map (·.firstTokenLatency))
        if first = 0 then throw "float division by zero" else pure (some (last / first))

def summarizeShapes (values : List (String × Time)) : Except String (List (String × LatencySummary)) :=
  ((values.map (·.1)).dedup.insertionSort (· ≤ ·)).mapM fun shape => do
    let summary ← summarize ((values.filter (·.1 = shape)).map (·.2))
    pure (shape, summary)

def summarizeAny (values : List Time) : Except String (Option LatencySummary) :=
  if values.isEmpty then pure none else some <$> summarize values

def ttfts (results : List Timed) : List (String × Time) :=
  (successes results).filterMap fun r =>
    if r.scheduledAt.isSome then r.firstTokenLatency.map (r.shape, ·) else none

def e2es (results : List Timed) : List (String × Time) := (successes results).map fun r => (r.shape, r.latency)

def summarizeLatencies (results : List Timed) : Except String LatencyReport := do
  let ttftByShape ← summarizeShapes (ttfts results)
  let e2eByShape ← summarizeShapes (e2es results)
  let e2eLatency ← summarizeAny ((successes results).map (·.latency))
  let tpot ← summarizeAny ((successes results).filterMap LoadGen.tpot)
  let itl ← summarizeAny ((successes results).flatMap fun r => Observability.gaps r.result.tokenTimes)
  pure { ttftByShape, e2eByShape, e2eLatency, tpot, itl }

def attainmentPct (results : List Timed) (value : Timed → Option Time) (threshold : Option ℚ) : Option ℚ :=
  match threshold with
  | none => none
  | some threshold =>
      let values := results.filterMap value
      if values.isEmpty then none
      else some (100 * values.countP (· * 1000 ≤ threshold) / values.length)

def counted (results : List Timed) : List Timed :=
  let window := sendWindow results
  (successes results).filter fun r =>
    steadyStartFraction * window ≤ r.completedAt ∧ r.completedAt ≤ window

def perSecond (results : List Timed) (count : ℚ) : ℚ :=
  let window := sendWindow results
  let elapsed := window - steadyStartFraction * window
  if elapsed > 0 then count / elapsed else 0

/-- The report before the growth is put in. -/
def reportOf (results : List Timed) (slo : Option SLOThresholds) (latency : LatencyReport) : RunReport :=
  let openLoop := results.any (·.scheduledAt.isSome)
  let window := sendWindow results
  let outputTokens : Nat := ((counted results).map fun r => r.outputTokens.getD 0).sum
  let inputTokens : Nat := ((counted results).map fun r => r.promptTokens.getD 0).sum
  { sendWindow := window
    wallClock := wallClock results
    requests := results.length
    failures := results.length - (successes results).length
    offeredReqS := if openLoop ∧ window > 0 then some (results.length / window) else none
    throughputReqS := perSecond results (counted results).length
    outputTokensS := perSecond results outputTokens
    inputTokensS := perSecond results inputTokens
    totalTokensS := perSecond results (outputTokens + inputTokens)
    latency
    goodputReqS := slo.map fun slo => perSecond results ((counted results).countP (satisfies · slo))
    sloAttainment := slo.map fun slo =>
      { ttft := attainmentPct (successes results) (·.firstTokenLatency) slo.ttftMs
        tpot := attainmentPct (successes results) LoadGen.tpot slo.tpotMs
        e2e := attainmentPct (successes results) (some ·.latency) slo.e2eMs } }

def buildReport (results : List Timed) (slo : Option SLOThresholds) : Except String RunReport := do
  let latency ← summarizeLatencies results
  let ttftGrowth ← ttftGrowth results
  pure { reportOf results slo latency with ttftGrowth }

def buildPoint (runs : List (List Timed)) (slo : Option SLOThresholds) : Except String PointReport := do
  let repeats ← runs.mapM (buildReport · slo)
  let latency ← summarizeLatencies runs.flatten
  pure { repeats, latency }

structure ByShape (values : List (String × Time)) (summaries : List (String × LatencySummary)) : Prop where
  names : (summaries.map (·.1)).Pairwise (· < ·)
  count : (summaries.map (·.2.count)).sum = values.length
  each : ∀ pair ∈ summaries, pair.2.Ordered ((values.filter (·.1 = pair.1)).map (·.2))

def Summarizes (values : List Time) : Option LatencySummary → Prop
  | none => values = []
  | some summary => summary.Ordered values

structure LatencyOk (results : List Timed) (latency : LatencyReport) : Prop where
  ttftByShape : ByShape (ttfts results) latency.ttftByShape
  e2eByShape : ByShape (e2es results) latency.e2eByShape
  e2eLatency : Summarizes ((successes results).map (·.latency)) latency.e2eLatency
  tpot : Summarizes ((successes results).filterMap tpot) latency.tpot
  itl : Summarizes ((successes results).flatMap fun r => gaps r.result.tokenTimes) latency.itl

/-- What a report says is true of its results, and its figures agree with each other. -/
structure ReportOk (results : List Timed) (report : RunReport) : Prop where
  requests : report.requests = results.length
  failures : report.failures + (successes results).length = report.requests
  latency : LatencyOk results report.latency
  tokens : report.totalTokensS = report.outputTokensS + report.inputTokensS
  throughput : report.throughputReqS * (report.sendWindow - steadyStartFraction * report.sendWindow) ≤
    (successes results).length
  goodput : ∀ goodput ∈ report.goodputReqS, 0 ≤ goodput ∧ goodput ≤ report.throughputReqS
  attained : ∀ attained ∈ report.sloAttainment, ∀ share ∈ [attained.ttft, attained.tpot, attained.e2e],
    ∀ percent ∈ share, 0 ≤ percent ∧ percent ≤ 100

section

variable {results : List Timed}

theorem summarizeShapes_ok (values : List (String × Time)) :
    ∃ summaries, summarizeShapes values = .ok summaries ∧ ByShape values summaries := by
  have perm := List.perm_insertionSort (· ≤ ·) (values.map (·.1)).dedup
  have filled : ∀ shape ∈ (values.map (·.1)).dedup.insertionSort (· ≤ ·),
      (values.filter (·.1 = shape)).map (·.2) ≠ [] := by
    intro shape member
    obtain ⟨value, here, rfl⟩ := List.mem_map.mp (List.mem_dedup.mp (perm.mem_iff.mp member))
    have kept : value ∈ values.filter (·.1 = value.1) := List.mem_filter.mpr ⟨here, decide_eq_true rfl⟩
    exact List.ne_nil_of_mem (List.mem_map_of_mem kept)
  obtain ⟨summaries, mapped, names, each⟩ :=
    summarize_each (fun shape => (values.filter (·.1 = shape)).map (·.2)) filled
  refine ⟨summaries, mapped, ?_, ?_, each⟩
  · have apart := perm.nodup_iff.mpr (List.nodup_dedup _)
    have sorted := List.pairwise_insertionSort (· ≤ ·) (values.map (·.1)).dedup
    rw [names]
    exact (sorted.and apart).imp fun both => lt_of_le_of_ne both.1 both.2
  · have counts : summaries.map (·.2.count) =
        (summaries.map (·.1)).map ((values.map (·.1)).count ·) := by
      rw [List.map_map]
      refine List.map_congr_left fun pair member => ?_
      rw [(each pair member).count, List.length_map, Function.comp_apply, List.count, List.countP_map,
        List.countP_eq_length_filter]
      exact congrArg List.length (List.filter_congr fun value _ => (beq_eq_decide _ _).symm)
    rw [counts, names, (perm.map _).sum_eq, List.sum_map_count_dedup_eq_length, List.length_map]

theorem summarizeAny_ok (values : List Time) :
    ∃ summary, summarizeAny values = .ok summary ∧ Summarizes values summary := by
  unfold summarizeAny
  split
  · rename_i empty
    exact ⟨none, rfl, List.isEmpty_iff.mp empty⟩
  · rename_i some
    obtain ⟨summary, computed⟩ := summarize_ok fun none => some (List.isEmpty_iff.mpr none)
    rw [computed]
    exact ⟨.some summary, rfl, summarize_ordered computed⟩

theorem summarizeLatencies_ok (results : List Timed) :
    ∃ latency, summarizeLatencies results = .ok latency ∧ LatencyOk results latency := by
  obtain ⟨ttftByShape, waited, first⟩ := summarizeShapes_ok (ttfts results)
  obtain ⟨e2eByShape, took, whole⟩ := summarizeShapes_ok (e2es results)
  obtain ⟨e2eLatency, all, every⟩ := summarizeAny_ok ((successes results).map (·.latency))
  obtain ⟨each, paced, pace⟩ := summarizeAny_ok ((successes results).filterMap tpot)
  obtain ⟨itl, apart, between⟩ :=
    summarizeAny_ok ((successes results).flatMap fun r => gaps r.result.tokenTimes)
  unfold summarizeLatencies
  rw [waited, took, all, paced, apart]
  exact ⟨_, rfl, first, whole, every, pace, between⟩

theorem median_ok {values : List ℚ} (some : values ≠ []) : ∃ middle, median values = .ok middle := by
  have length := List.length_insertionSort (· ≤ ·) values
  have positive := List.length_pos_iff.mpr some
  have value (i : Nat) (inside : i < values.length) :
      ∃ v, (values.insertionSort (· ≤ ·))[i]? = .some v := ⟨_, List.getElem?_eq_getElem (length ▸ inside)⟩
  obtain ⟨low, below⟩ := value (values.length / 2 - 1) (by omega)
  obtain ⟨high, above⟩ := value (values.length / 2) (by omega)
  unfold median
  dsimp only
  rw [length, below, above]
  split
  · exact ⟨high, rfl⟩
  · exact ⟨(low + high) / 2, rfl⟩

theorem ttftGrowth_ok (results : List Timed) :
    (∃ growth, ttftGrowth results = .ok growth) ∨ ttftGrowth results = .error "float division by zero" := by
  unfold ttftGrowth
  dsimp only
  split
  · exact .inl ⟨none, rfl⟩
  · split
    · exact .inl ⟨none, rfl⟩
    · rename_i common most enough
      generalize ((results.filterMap (·.arrival)).filter (·.shape = common)).insertionSort
        (fun a b => a.scheduledAt ≤ b.scheduledAt) = scheduled at enough ⊢
      have ten : 10 ≤ scheduled.length / 4 := Nat.not_lt.mp enough
      have early : (scheduled.take (scheduled.length / 4)).map (·.firstTokenLatency) ≠ [] := by
        rw [← List.length_pos_iff, List.length_map, List.length_take]
        omega
      have late : (scheduled.drop (scheduled.length - scheduled.length / 4)).map (·.firstTokenLatency) ≠ [] := by
        rw [← List.length_pos_iff, List.length_map, List.length_drop]
        omega
      obtain ⟨first, before⟩ := median_ok early
      obtain ⟨last, after⟩ := median_ok late
      rw [before, after]
      by_cases zero : first = 0
      · exact .inr (if_pos zero)
      · exact .inl ⟨some (last / first), if_neg zero⟩

theorem buildReport_eq {latency : LatencyReport} (summarized : summarizeLatencies results = .ok latency)
    (slo : Option SLOThresholds) :
    buildReport results slo =
      (fun ttftGrowth => { reportOf results slo latency with ttftGrowth }) <$> ttftGrowth results := by
  rw [buildReport, summarized]
  cases ttftGrowth results with
  | error message => rfl
  | ok growth => rfl

theorem buildReport_ok {slo : Option SLOThresholds} {report : RunReport}
    (built : buildReport results slo = .ok report) : ∃ latency ttftGrowth,
      LatencyOk results latency ∧ report = { reportOf results slo latency with ttftGrowth } := by
  obtain ⟨latency, summarized, ok⟩ := summarizeLatencies_ok results
  rw [buildReport_eq summarized] at built
  cases grown : ttftGrowth results with
  | error message =>
      rw [grown] at built
      cases built
  | ok ttftGrowth =>
      rw [grown] at built
      cases built
      exact ⟨latency, ttftGrowth, ok, rfl⟩

theorem perSecond_mono {count count' : ℚ} (le : count ≤ count') :
    perSecond results count ≤ perSecond results count' := by
  unfold perSecond
  dsimp only
  split
  · rename_i positive
    exact (div_le_div_iff_of_pos_right positive).mpr le
  · exact le_refl 0

theorem perSecond_mul_le {count : ℚ} (nonneg : 0 ≤ count) :
    perSecond results count * (sendWindow results - steadyStartFraction * sendWindow results) ≤ count := by
  unfold perSecond
  dsimp only
  split
  · rename_i positive
    rw [div_mul_cancel₀ count positive.ne']
  · rw [zero_mul]
    exact nonneg

theorem perSecond_add (count count' : ℚ) :
    perSecond results (count + count') = perSecond results count + perSecond results count' := by
  unfold perSecond
  dsimp only
  split
  · exact add_div count count' _
  · exact (add_zero 0).symm

theorem attainmentPct_le {value : Timed → Option Time} {threshold : Option ℚ} {percent : ℚ}
    (attained : attainmentPct results value threshold = some percent) : 0 ≤ percent ∧ percent ≤ 100 := by
  cases threshold with
  | none => cases attained
  | some threshold =>
      simp only [attainmentPct] at attained
      split at attained
      · cases attained
      · rename_i some
        cases attained
        have few : (results.filterMap value).countP (· * 1000 ≤ threshold) ≤
            (results.filterMap value).length := List.countP_le_length
        have positive : (0 : ℚ) < (results.filterMap value).length :=
          Nat.cast_pos.mpr (List.length_pos_iff.mpr fun none => some (List.isEmpty_iff.mpr none))
        constructor
        · positivity
        · rw [div_le_iff₀ positive]
          exact mul_le_mul_of_nonneg_left (by exact_mod_cast few) (by decide)

theorem reportOf_ok {latency : LatencyReport} (ok : LatencyOk results latency) (slo : Option SLOThresholds)
    (ttftGrowth : Option ℚ) : ReportOk results { reportOf results slo latency with ttftGrowth } where
  requests := rfl
  failures := Nat.sub_add_cancel (List.length_filter_le _ _)
  latency := ok
  tokens := perSecond_add _ _
  throughput := by
    have few : (counted results).length ≤ (successes results).length := List.length_filter_le _ _
    exact (perSecond_mul_le (Nat.cast_nonneg _)).trans (by exact_mod_cast few)
  goodput goodput member := by
    obtain ⟨thresholds, -, rfl⟩ := Option.map_eq_some_iff.mp member
    have fewer : (counted results).countP (satisfies · thresholds) ≤ (counted results).length :=
      List.countP_le_length
    refine ⟨?_, perSecond_mono (by exact_mod_cast fewer)⟩
    have none : perSecond results 0 = 0 := by simp [perSecond]
    rw [← none]
    exact perSecond_mono (Nat.cast_nonneg _)
  attained attained member share among percent here := by
    obtain ⟨thresholds, -, rfl⟩ := Option.map_eq_some_iff.mp member
    simp only [List.mem_cons, List.not_mem_nil, or_false] at among
    rcases among with rfl | rfl | rfl
    · exact attainmentPct_le here
    · exact attainmentPct_le here
    · exact attainmentPct_le here

end

/-- Whatever the results, what `build_report` returns is true of them: every summary is one of its values
and in order, those by shape stand by name and count each request once, no rate exceeds what it is part
of, and an attainment is a percentage. `build_point` says so of each repeat and of all of them together. -/
theorem report_well_formed (slo : Option SLOThresholds) :
    (∀ (results : List Timed) (report : RunReport), buildReport results slo = .ok report →
      ReportOk results report) ∧
    ∀ (runs : List (List Timed)) (point : PointReport), buildPoint runs slo = .ok point →
      List.Forall₂ ReportOk runs point.repeats ∧ LatencyOk runs.flatten point.latency := by
  have single : ∀ (results : List Timed) (report : RunReport), buildReport results slo = .ok report →
      ReportOk results report := by
    intro results report built
    obtain ⟨latency, ttftGrowth, ok, rfl⟩ := buildReport_ok built
    exact reportOf_ok ok slo ttftGrowth
  refine ⟨single, fun runs point built => ?_⟩
  obtain ⟨repeats, each, built⟩ := bind_ok built
  obtain ⟨latency, pooled, built⟩ := bind_ok built
  cases built
  obtain ⟨latency', summarized, ok⟩ := summarizeLatencies_ok runs.flatten
  rw [pooled] at summarized
  cases summarized
  exact ⟨(mapM_eq_ok.mp each).imp fun results report => single results report, ok⟩

def sampleArrival (k : Nat) : Timed :=
  { shape := "chat", result := { numTokensReceived := 1, tokenTimes := [] }
    latency := k + 1, firstTokenLatency := some (k + 1), completedAt := 2 * k + 1, scheduledAt := some k }

def sampleArrivals : List Timed := (List.range 40).map sampleArrival

theorem report_well_formed_sample :
    (∃ report, buildReport sampleArrivals (some { ttftMs := some 5500 }) = .ok report ∧
      ReportOk sampleArrivals report) ∧
    ∃ point, buildPoint [sampleArrivals, []] (some { ttftMs := some 5500 }) = .ok point ∧
      List.Forall₂ ReportOk [sampleArrivals, []] point.repeats ∧
      LatencyOk (sampleArrivals ++ []) point.latency := by
  obtain ⟨single, repeats⟩ := report_well_formed (some { ttftMs := some 5500 })
  obtain ⟨latency, summarized, -⟩ := summarizeLatencies_ok sampleArrivals
  have grown : ttftGrowth sampleArrivals = .ok (some (71 / 11)) := by decide +kernel
  have built := buildReport_eq summarized (some { ttftMs := some 5500 })
  rw [grown] at built
  constructor
  · exact ⟨_, built, single _ _ built⟩
  · obtain ⟨pooled, all, -⟩ := summarizeLatencies_ok [sampleArrivals, []].flatten
    obtain ⟨nothing, empty, -⟩ := summarizeLatencies_ok []
    have idle := buildReport_eq empty (some { ttftMs := some 5500 })
    rw [show ttftGrowth [] = .ok none from rfl] at idle
    obtain ⟨reports, each⟩ : ∃ reports, [sampleArrivals, []].mapM
        (buildReport · (some { ttftMs := some 5500 })) = .ok reports :=
      ⟨_, mapM_eq_ok.mpr (.cons built (.cons idle .nil))⟩
    have both : buildPoint [sampleArrivals, []] (some { ttftMs := some 5500 }) =
        .ok { repeats := reports, latency := pooled } := by
      rw [buildPoint, each, all]
      rfl
    exact ⟨_, both, repeats _ _ both⟩

end LlmServing.LoadGen
