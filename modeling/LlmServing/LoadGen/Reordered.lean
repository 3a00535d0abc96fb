import LlmServing.LoadGen.Report

/-!
# The report and the order of completion

Results come in the order their requests completed. `build_report` does not depend on it, and of a run of
the open loop it says the load that was drawn.
-/

namespace LlmServing.LoadGen

open Scheduling Lib Observability

/-- One shape has more arrivals than any other. -/
def Leading (results : List Timed) : Prop :=
  let shapes := (results.filterMap (·.arrival)).map (·.shape)
  ∃ common, ∀ other ∈ shapes, other ≠ common → shapes.count other < shapes.count common

structure Unambiguous (results : List Timed) : Prop where
  leading : Leading results
  apart : (results.filterMap (·.scheduledAt)).Nodup

section

variable {results results' : List Timed}

theorem successes_congr (perm : results.Perm results') : (successes results).Perm (successes results') :=
  perm.filter _

theorem wallClock_congr (perm : results.Perm results') : wallClock results = wallClock results' := by
  rw [wallClock, wallClock, max?_congr (perm.map _)]

theorem sendWindow_congr (perm : results.Perm results') : sendWindow results = sendWindow results' := by
  rw [sendWindow, sendWindow, max?_congr (perm.filterMap _), wallClock_congr perm]

theorem counted_congr (perm : results.Perm results') : (counted results).Perm (counted results') := by
  rw [counted, counted, sendWindow_congr perm]
  exact (successes_congr perm).filter _

theorem perSecond_congr (perm : results.Perm results') : perSecond results = perSecond results' := by
  funext count
  rw [perSecond, perSecond, sendWindow_congr perm]

theorem attainmentPct_congr (perm : results.Perm results') (value : Timed → Option Time)
    (threshold : Option ℚ) : attainmentPct results value threshold = attainmentPct results' value threshold := by
  cases threshold with
  | none => rfl
  | some threshold =>
      have values := perm.filterMap value
      simp only [attainmentPct, values.isEmpty_eq, values.countP_eq, values.length_eq]

theorem summarizeShapes_congr {values values' : List (String × Time)} (perm : values.Perm values') :
    summarizeShapes values = summarizeShapes values' := by
  unfold summarizeShapes
  rw [ranked_congr (perm.map _).dedup]
  refine congrArg (List.mapM · _) (funext fun shape => ?_)
  rw [summarize_congr ((perm.filter _).map _)]

theorem summarizeAny_congr {values values' : List Time} (perm : values.Perm values') :
    summarizeAny values = summarizeAny values' := by
  rw [summarizeAny, summarizeAny, summarize_congr perm, perm.isEmpty_eq]

theorem summarizeLatencies_congr (perm : results.Perm results') :
    summarizeLatencies results = summarizeLatencies results' := by
  have done := successes_congr perm
  unfold summarizeLatencies ttfts e2es
  rw [summarizeShapes_congr (done.filterMap _), summarizeShapes_congr (done.map _),
    summarizeAny_congr (done.map (·.latency)), summarizeAny_congr (done.filterMap tpot),
    summarizeAny_congr (done.flatMap_right _)]

theorem mostCommon_arrival (perm : results.Perm results') (clear : Unambiguous results) :
    mostCommon ((results.filterMap (·.arrival)).map (·.shape)) =
      mostCommon ((results'.filterMap (·.arrival)).map (·.shape)) :=
  mostCommon_congr ((perm.filterMap _).map _) clear.leading

theorem scheduledAt_arrival (results : List Timed) :
    List.Sublist ((results.filterMap (·.arrival)).map (·.scheduledAt)) (results.filterMap (·.scheduledAt)) := by
  induction results with
  | nil => exact .slnil
  | cons r rest ih =>
      cases due : r.scheduledAt with
      | none => simpa [Timed.arrival, due] using ih
      | some scheduledAt =>
          rw [List.filterMap_cons_some due]
          cases here : r.arrival with
          | none =>
              rw [List.filterMap_cons_none here]
              exact ih.cons scheduledAt
          | some arrival =>
              have same : arrival.scheduledAt = scheduledAt := by
                unfold Timed.arrival at here
                grind
              rw [List.filterMap_cons_some here, List.map_cons, same]
              exact ih.cons_cons scheduledAt

theorem ttftGrowth_congr (perm : results.Perm results') (clear : Unambiguous results) :
    ttftGrowth results = ttftGrowth results' := by
  have arrivals := perm.filterMap (·.arrival)
  have apart : ((results.filterMap (·.arrival)).map (·.scheduledAt)).Nodup :=
    clear.apart.sublist (scheduledAt_arrival results)
  unfold ttftGrowth
  dsimp only
  rw [← mostCommon_arrival perm clear]
  cases mostCommon ((results.filterMap (·.arrival)).map (·.shape)) with
  | none => rfl
  | some common =>
      have ordered := insertionSort_key_congr Arrival.scheduledAt
        (apart.sublist (List.filter_sublist.map _)) (arrivals.filter (·.shape = common))
      simp only [ordered]

theorem reportOf_congr (perm : results.Perm results') (slo : Option SLOThresholds) (latency : LatencyReport) :
    reportOf results slo latency = reportOf results' slo latency := by
  have counted := counted_congr perm
  have done := successes_congr perm
  simp only [reportOf, sendWindow_congr perm, wallClock_congr perm, perm.any_eq, perm.length_eq,
    done.length_eq, perSecond_congr perm, counted.length_eq, (counted.map _).sum_eq, counted.countP_eq,
    attainmentPct_congr done]

theorem buildReport_congr (perm : results'.Perm results) (clear : Unambiguous results)
    (slo : Option SLOThresholds) : buildReport results' slo = buildReport results slo := by
  obtain ⟨latency, summarized, -⟩ := summarizeLatencies_ok results
  have others := (summarizeLatencies_congr perm).trans summarized
  rw [buildReport_eq others, buildReport_eq summarized, reportOf_congr perm,
    ttftGrowth_congr perm.symm clear]

end

theorem keepsUp_congr {point point' : PointReport} (perm : point'.repeats.Perm point.repeats) :
    point'.keepsUp = point.keepsUp := by
  have verdicts := perm.map (·.keepsUp)
  simp only [PointReport.keepsUp, verdicts.mem_iff]

/-- However the results of a run are ordered its report is the same, but for `ttft_growth` where shapes
or arrival times tie; a median of zero there is all that it fails of. Repeated runs say the same together
whichever came first. -/
theorem report_order (slo : Option SLOThresholds) :
    (∀ results, ∃ report : RunReport, ∀ results' : List Timed, results'.Perm results →
      buildReport results' slo =
        (fun ttftGrowth => { report with ttftGrowth }) <$> ttftGrowth results') ∧
    (∀ results results' : List Timed, results'.Perm results → Unambiguous results →
      buildReport results' slo = buildReport results slo) ∧
    (∀ results error, buildReport results slo = .error error → error = "float division by zero") ∧
    ∀ (runs runs' : List (List Timed)) (point : PointReport), runs'.Perm runs →
      buildPoint runs slo = .ok point →
      ∃ point', buildPoint runs' slo = .ok point' ∧ point'.repeats.Perm point.repeats ∧
        point'.latency = point.latency ∧ point'.keepsUp = point.keepsUp := by
  refine ⟨fun results => ?_, fun results results' perm clear => buildReport_congr perm clear slo,
    fun results error failed => ?_, fun runs runs' point perm built => ?_⟩
  · obtain ⟨latency, summarized, -⟩ := summarizeLatencies_ok results
    refine ⟨reportOf results slo latency, fun results' perm => ?_⟩
    rw [buildReport_eq ((summarizeLatencies_congr perm).trans summarized), reportOf_congr perm]
  · obtain ⟨latency, summarized, -⟩ := summarizeLatencies_ok results
    rw [buildReport_eq summarized] at failed
    rcases ttftGrowth_ok results with ⟨growth, computed⟩ | zero
    · rw [computed] at failed
      cases failed
    · rw [zero] at failed
      cases failed
      rfl
  · obtain ⟨repeats, each, built⟩ := bind_ok built
    obtain ⟨latency, pooled, built⟩ := bind_ok built
    cases built
    obtain ⟨repeats', mapped, same⟩ := mapM_perm perm each
    have others := (summarizeLatencies_congr perm.flatten).trans pooled
    refine ⟨⟨repeats', latency⟩, ?_, same, rfl, keepsUp_congr same⟩
    rw [buildPoint, mapped, others]
    rfl

theorem sampleArrivals_clear : Unambiguous sampleArrivals := by
  constructor
  · exact Exists.intro "chat" (by decide +kernel)
  · decide +kernel

theorem report_order_sample :
    (buildReport sampleArrivals.reverse none).map (·.keepsUp) = .ok (some false) ∧
    ∃ point, buildPoint [[], sampleArrivals] none = .ok point ∧ point.keepsUp = some false := by
  obtain ⟨-, order, -, repeats⟩ := report_order none
  have late : (buildReport sampleArrivals none).map (·.keepsUp) = .ok (some false) := by decide +kernel
  constructor
  · rw [order sampleArrivals _ (List.reverse_perm _) sampleArrivals_clear]
    exact late
  · have both : (buildPoint [sampleArrivals, []] none).map (·.keepsUp) = .ok (some false) := by
      decide +kernel
    cases built : buildPoint [sampleArrivals, []] none with
    | error message =>
        rw [built] at both
        cases both
    | ok point =>
        rw [built] at both
        obtain ⟨point', swapped, -, -, same⟩ := repeats _ _ point (.swap _ _ []) built
        exact ⟨point', swapped, same.trans (Except.ok.inj both)⟩

section

variable {results : List Timed} {bound : Time}

theorem le_wallClock {r : Timed} (member : r ∈ results) : r.completedAt ≤ wallClock results := by
  obtain ⟨last, found⟩ := Option.isSome_iff_exists.mp
    (List.isSome_max?_iff.mpr (List.ne_nil_of_mem (List.mem_map_of_mem (f := (·.completedAt)) member)))
  rw [wallClock, found]
  exact (List.max?_eq_some_iff.mp found).2 _ (List.mem_map_of_mem member)

theorem wallClock_le (nonneg : 0 ≤ bound) (each : ∀ r ∈ results, r.completedAt ≤ bound) :
    wallClock results ≤ bound := by
  rw [wallClock]
  cases found : (results.map (·.completedAt)).max? with
  | none => exact nonneg
  | some last =>
      obtain ⟨r, member, rfl⟩ := List.mem_map.mp (List.max?_eq_some_iff.mp found).1
      exact each r member

end

section

variable {numRequests : Nat} {maxDuration : Option Time} {gaps : Nat → Time} {start clock : Time}
  {shapes : List RequestShape} {s : OpenLoop}

theorem offset_mono (nonneg : ∀ k, 0 ≤ gaps k) : Monotone (offset gaps) := by
  refine monotone_nat_of_le_succ fun k => ?_
  rw [offset_succ]
  exact le_add_of_nonneg_right (nonneg k)

theorem offset_strictMono (positive : ∀ k, 0 < gaps k) : StrictMono (offset gaps) := by
  refine strictMono_nat_of_lt_succ fun k => ?_
  rw [offset_succ]
  exact lt_add_of_pos_right _ (positive k)

theorem max?_offset (nonneg : ∀ k, 0 ≤ gaps k) (n : Nat) :
    ((List.range (n + 1)).map (offset gaps)).max? = some (offset gaps n) := by
  refine List.max?_eq_some_iff.mpr ⟨List.mem_map_of_mem (List.mem_range.mpr n.lt_succ_self), ?_⟩
  intro time member
  obtain ⟨k, before, rfl⟩ := List.mem_map.mp member
  exact offset_mono nonneg (Nat.lt_succ_iff.mp (List.mem_range.mp before))

theorem OnSchedule.due (holds : OnSchedule numRequests shapes maxDuration gaps start clock s)
    (gathering : s.sender = .gathering) (all : ∀ task ∈ s.tasks, ∃ intended, task = .returned intended) :
    (s.results.filterMap (·.scheduledAt)).Perm
      ((List.range (arrivals numRequests maxDuration gaps)).map (offset gaps)) := by
  have due := (holds.finished gathering all).1.filterMap id
  rw [List.filterMap_map, List.filterMap_map] at due
  simpa [Function.comp_def] using due

theorem OnSchedule.sendWindow (nonneg : ∀ k, 0 ≤ gaps k)
    (holds : OnSchedule numRequests shapes maxDuration gaps start clock s)
    (gathering : s.sender = .gathering) (all : ∀ task ∈ s.tasks, ∃ intended, task = .returned intended) :
    sendWindow s.results = offset gaps (arrivals numRequests maxDuration gaps - 1) := by
  rw [LoadGen.sendWindow, max?_congr (holds.due gathering all)]
  cases count : arrivals numRequests maxDuration gaps with
  | zero =>
      have none := (holds.finished gathering all).1.length_eq
      rw [count, List.length_map, List.range_zero, List.map_nil, List.length_nil] at none
      rw [List.eq_nil_of_length_eq_zero none]
      rfl
  | succ n =>
      rw [max?_offset nonneg n]
      rfl

theorem OnSchedule.wallClock (holds : OnSchedule numRequests shapes maxDuration gaps start clock s) :
    LoadGen.sendWindow s.results ≤ wallClock s.results ∧ wallClock s.results ≤ clock - start := by
  constructor
  · cases greatest : (s.results.filterMap (·.scheduledAt)).max? with
    | none => rw [LoadGen.sendWindow, greatest, Option.getD_none]
    | some last =>
        obtain ⟨r, member, due⟩ := List.mem_filterMap.mp (List.max?_eq_some_iff.mp greatest).1
        have measured := holds.measured r member
        have before : last ≤ r.completedAt := by
          rw [measured.scheduled, Option.some.injEq] at due
          rw [← due]
          exact sub_le_self _ measured.latency
        rw [LoadGen.sendWindow, greatest, Option.getD_some]
        exact before.trans (le_wallClock member)
  · exact wallClock_le (sub_nonneg.mpr holds.started) fun r member => (holds.measured r member).completed

theorem OnSchedule.apart (positive : ∀ k, 0 < gaps k)
    (holds : OnSchedule numRequests shapes maxDuration gaps start clock s)
    (gathering : s.sender = .gathering) (all : ∀ task ∈ s.tasks, ∃ intended, task = .returned intended) :
    (s.results.filterMap (·.scheduledAt)).Nodup := by
  rw [(holds.due gathering all).nodup_iff]
  exact List.nodup_range.map (offset_strictMono positive).injective

/-- Whatever the server does, the report of a run that returns says of the load what was drawn: its
requests, its window and the rate offered are those of the schedule, and where one shape leads the order
of the answers is in none of it. -/
theorem open_loop_report (numRequests : Nat) (shapes : List RequestShape) (maxDuration : Option Time)
    (gaps : Nat → Time) (start : Time) (nonneg : ∀ k, 0 ≤ gaps k) (enough : numRequests ≤ shapes.length)
    {s : OpenLoop} {clock : Time}
    (reachable : (openLoopLoadGen numRequests shapes maxDuration gaps start).Reachable (s, clock))
    (gathering : s.sender = .gathering) (all : ∀ task ∈ s.tasks, ∃ intended, task = .returned intended)
    (slo : Option SLOThresholds) {report : RunReport} (built : buildReport s.results slo = .ok report) :
    report.requests = arrivals numRequests maxDuration gaps ∧
      report.sendWindow = offset gaps (report.requests - 1) ∧
      report.sendWindow ≤ report.wallClock ∧ report.wallClock ≤ clock - start ∧
      report.offeredReqS =
        (if 0 < report.sendWindow then some (report.requests / report.sendWindow) else none) ∧
      ((∀ k, 0 < gaps k) → Leading s.results →
        ∀ results : List Timed, results.Perm s.results → buildReport results slo = .ok report) := by
  have holds := onSchedule nonneg enough reachable
  have window := holds.sendWindow nonneg gathering all
  obtain ⟨drained, within⟩ := holds.wallClock
  have requests : s.results.length = arrivals numRequests maxDuration gaps := by
    simpa using (holds.finished gathering all).1.length_eq
  obtain ⟨latency, growth, -, rfl⟩ := buildReport_ok built
  refine ⟨requests, ?_, drained, within, ?_, ?_⟩
  · show sendWindow s.results = offset gaps (s.results.length - 1)
    rw [window, requests]
  · show (if (s.results.any fun r => r.scheduledAt.isSome) = true ∧ sendWindow s.results > 0 then _ else _) = _
    refine if_congr (and_iff_right_of_imp fun positive => ?_) rfl rfl
    -- A window of some length ends with an arrival.
    cases greatest : (s.results.filterMap (·.scheduledAt)).max? with
    | none =>
        have empty := (holds.due gathering all).length_eq
        rw [List.max?_eq_none_iff.mp greatest, List.length_map, List.length_range] at empty
        rw [window, ← empty] at positive
        exact absurd positive (lt_irrefl 0)
    | some last =>
        obtain ⟨r, member, due⟩ := List.mem_filterMap.mp (List.max?_eq_some_iff.mp greatest).1
        exact List.any_eq_true.mpr ⟨r, member, by rw [due]; rfl⟩
  · intro positive leading results perm
    rw [buildReport_congr perm ⟨leading, holds.apart positive gathering all⟩]
    exact built

end

def sampleShape : RequestShape := ⟨"chat", "hello", 64, 1⟩

def sampleSent (sender : Sender) (drawn : Nat) (tasks : List SendTask) (begun : Nat) (results : List Timed) :
    OpenLoop :=
  ⟨sender, drawn, offset (fun _ => 2) drawn, tasks, (List.replicate 2 sampleShape).drop begun, results⟩

def sampleResults : List Timed :=
  [{ timed 4 0 2 sampleShape sampleAnswer with scheduledAt := some (2 - 0) },
    { timed 5 0 0 sampleShape sampleAnswer with scheduledAt := some (0 - 0) }]

theorem sampleSent_reachable :
    (openLoopLoadGen 2 (List.replicate 2 sampleShape) none (fun _ => 2) 0).Reachable
      (sampleSent .gathering 2 [.returned 0, .returned 2] 2 sampleResults, 5) := by
  have create : nextArrival 2 none (fun _ => 2) 0 0 (sampleSent .looping 0 [] 0 []) =
      sampleSent .looping 1 [.created 0] 0 [] := by
    simp [nextArrival, createTask, sampleSent, offset]
  have sleep : nextArrival 2 none (fun _ => 2) 0 0 (sampleSent .looping 1 [.created 0] 0 []) =
      sampleSent .sleeping 1 [.created 0] 0 [] := by
    simp [nextArrival, sampleSent, offset]
  have wake : createTask (fun _ => 2) (sampleSent .sleeping 1 [.awaiting 0 sampleShape 1] 1 []) =
      sampleSent .looping 2 [.awaiting 0 sampleShape 1, .created 2] 1 [] := by
    simp [createTask, sampleSent, offset, List.range_succ]
  have gather : nextArrival 2 none (fun _ => 2) 0 4
      (sampleSent .looping 2 [.awaiting 0 sampleShape 1, .returned 2] 2 (sampleResults.take 1)) =
      sampleSent .gathering 2 [.awaiting 0 sampleShape 1, .returned 2] 2 (sampleResults.take 1) := by
    simp [nextArrival, sampleSent]
  have first : OpenStep 2 none (fun _ => 2) 0 (sampleSent .looping 0 [] 0 []) ⟨none, [0]⟩
      (sampleSent .looping 1 [.created 0] 0 []) := create ▸ .arrive rfl
  have second : OpenStep 2 none (fun _ => 2) 0 (sampleSent .looping 1 [.created 0] 0 []) ⟨none, [0]⟩
      (sampleSent .sleeping 1 [.created 0] 0 []) := sleep ▸ .arrive rfl
  have third : OpenStep 2 none (fun _ => 2) 0 (sampleSent .sleeping 1 [.created 0] 0 []) ⟨none, [1]⟩
      (sampleSent .sleeping 1 [.awaiting 0 sampleShape 1] 1 []) :=
    .begin (show _ = [] ++ SendTask.created 0 :: [] from rfl)
      (show _ = (.awaiting 0 sampleShape 1, sampleSent .sleeping 1 [.created 0] 1 []) from rfl)
  have fourth : OpenStep 2 none (fun _ => 2) 0 (sampleSent .sleeping 1 [.awaiting 0 sampleShape 1] 1 [])
      ⟨none, [2]⟩ (sampleSent .looping 2 [.awaiting 0 sampleShape 1, .created 2] 1 []) :=
    wake ▸ .wake rfl (by decide +kernel)
  have fifth : OpenStep 2 none (fun _ => 2) 0
      (sampleSent .looping 2 [.awaiting 0 sampleShape 1, .created 2] 1 []) ⟨none, [2]⟩
      (sampleSent .looping 2 [.awaiting 0 sampleShape 1, .awaiting 2 sampleShape 2] 2 []) := by
    have moved : beginTask 2 2 (sampleSent .looping 2 [.awaiting 0 sampleShape 1, .created 2] 1 []) =
        (.awaiting 2 sampleShape 2,
          sampleSent .looping 2 [.awaiting 0 sampleShape 1, .created 2] 2 []) := rfl
    exact .begin (show _ = [SendTask.awaiting 0 sampleShape 1] ++ .created 2 :: [] from rfl) moved
  have sixth : OpenStep 2 none (fun _ => 2) 0
      (sampleSent .looping 2 [.awaiting 0 sampleShape 1, .awaiting 2 sampleShape 2] 2 [])
      ⟨some sampleAnswer, [4]⟩
      (sampleSent .looping 2 [.awaiting 0 sampleShape 1, .returned 2] 2 (sampleResults.take 1)) := by
    have read : ReadBetween 2 4 sampleAnswer := by
      unfold ReadBetween
      decide
    have slot : (sampleSent .looping 2 [.awaiting 0 sampleShape 1, .awaiting 2 sampleShape 2] 2 []).tasks =
        [.awaiting 0 sampleShape 1] ++ .awaiting 2 sampleShape 2 :: [] := rfl
    exact .resume slot read
  have seventh : OpenStep 2 none (fun _ => 2) 0
      (sampleSent .looping 2 [.awaiting 0 sampleShape 1, .returned 2] 2 (sampleResults.take 1)) ⟨none, [4]⟩
      (sampleSent .gathering 2 [.awaiting 0 sampleShape 1, .returned 2] 2 (sampleResults.take 1)) :=
    gather ▸ .arrive rfl
  have eighth : OpenStep 2 none (fun _ => 2) 0
      (sampleSent .gathering 2 [.awaiting 0 sampleShape 1, .returned 2] 2 (sampleResults.take 1))
      ⟨some sampleAnswer, [5]⟩ (sampleSent .gathering 2 [.returned 0, .returned 2] 2 sampleResults) :=
    .resume (show _ = [] ++ SendTask.awaiting 0 sampleShape 1 :: [.returned 2] from rfl)
      (by unfold ReadBetween; decide)
  have start : (openLoopLoadGen 2 (List.replicate 2 sampleShape) none (fun _ => 2) 0).Reachable
      (sampleSent .looping 0 [] 0 [], 0) := .initial ⟨rfl, rfl⟩
  have created := Machine.timed_next start _ 0 (by decide) (by decide +kernel) first
  have asleep := Machine.timed_next created _ 0 (by decide) (by decide +kernel) second
  have sent := Machine.timed_next asleep _ 1 (by decide) (by decide +kernel) third
  have woken := Machine.timed_next sent _ 2 (by decide) (by decide +kernel) fourth
  have both := Machine.timed_next woken _ 2 (by decide) (by decide +kernel) fifth
  have one := Machine.timed_next both _ 4 (by decide) (by decide +kernel) sixth
  have gathered := Machine.timed_next one _ 4 (by decide) (by decide +kernel) seventh
  exact Machine.timed_next gathered _ 5 (by decide) (by decide +kernel) eighth

theorem open_loop_report_sample : ∃ report, buildReport sampleResults none = .ok report ∧
    report.offeredReqS = some 1 ∧ report.wallClock ≤ 5 ∧
    buildReport sampleResults.reverse none = .ok report := by
  obtain ⟨latency, summarized, -⟩ := summarizeLatencies_ok sampleResults
  have few : ttftGrowth sampleResults = .ok none := by decide +kernel
  have built : buildReport sampleResults none = .ok (reportOf sampleResults none latency) := by
    rw [buildReport_eq summarized, few]
    rfl
  obtain ⟨requests, window, -, within, offered, same⟩ := open_loop_report 2
    (List.replicate 2 sampleShape) none (fun _ => 2) 0 (fun _ => by decide) (by decide) sampleSent_reachable
    rfl (by simp [sampleSent]) none built
  have two : arrivals 2 none (fun _ => 2) = 2 := by decide +kernel
  rw [two] at requests
  rw [requests] at window offered
  have apart : offset (fun _ => 2) (2 - 1) = 2 := by decide +kernel
  rw [window, apart] at offered
  refine ⟨_, built, offered.trans (by decide +kernel), within.trans (by decide +kernel), ?_⟩
  · have leading : Leading sampleResults := Exists.intro "chat" (by decide +kernel)
    exact same (fun _ => by decide) leading _ (List.reverse_perm _)

end LlmServing.LoadGen
