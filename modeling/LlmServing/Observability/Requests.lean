import LlmServing.Observability.Metrics
import LlmServing.Scheduling.Sequence
import Mathlib.Algebra.Order.BigOperators.Group.List

/-!
# The latencies of one request, and what is recorded of it

`RequestMetrics` and `summarize_stage_latencies` of `metrics.py`, and `record_request` of
`metrics_export.py`. A histogram is the list of what it observed, which its buckets, its sum and its
count are read off.
-/

namespace LlmServing.Observability

open Scheduling

def scheduleLatency (metrics : RequestMetrics) : Option Time :=
  metrics.admitTime.map (· - metrics.enqueueTime)

def prefillLatency (metrics : RequestMetrics) : Option Time := do
  let first ← metrics.firstTokenTime
  let entered ← metrics.admitTime
  pure (first - entered)

def gaps (times : List Time) : List Time := times.zipWith (fun a b => b - a) times.tail

def interTokenLatencies (metrics : RequestMetrics) : List Time := gaps metrics.tokenTimes

def totalLatency (metrics : RequestMetrics) : Option Time :=
  metrics.doneTime.map (· - metrics.enqueueTime)

/-- `REQUESTS_TOTAL` by its label, and the four latency histograms. -/
structure Registry where
  success : Nat := 0
  error : Nat := 0
  schedule : List Time := []
  prefill : List Time := []
  interToken : List Time := []
  total : List Time := []
  deriving DecidableEq

def recordRequest (r : Registry) (metrics : RequestMetrics) : Registry where
  schedule := r.schedule ++ (scheduleLatency metrics).toList
  prefill := r.prefill ++ (prefillLatency metrics).toList
  interToken := r.interToken ++ interTokenLatencies metrics
  total := r.total ++ (totalLatency metrics).toList
  success := if metrics.doneTime.isSome then r.success + 1 else r.success
  error := if metrics.doneTime.isSome then r.error else r.error + 1

inductive Stage where
  | schedule | prefill | total | interToken
  deriving DecidableEq

def Stage.values (metrics : List RequestMetrics) : Stage → List Time
  | .schedule => metrics.flatMap fun m => (scheduleLatency m).toList
  | .prefill => metrics.flatMap fun m => (prefillLatency m).toList
  | .total => metrics.flatMap fun m => (totalLatency m).toList
  | .interToken => metrics.flatMap interTokenLatencies

def summarizeStageLatencies (metrics : List RequestMetrics) :
    Except String (List (Stage × LatencySummary)) :=
  [Stage.schedule, .prefill, .total, .interToken].filter (fun stage => stage.values metrics ≠ [])
    |>.mapM fun stage => do
      let summary ← summarize (stage.values metrics)
      pure (stage, summary)

/-- Every stage that some request came through is summarized, and no other. -/
theorem summarizeStageLatencies_ok (metrics : List RequestMetrics) : ∃ summaries,
    summarizeStageLatencies metrics = .ok summaries ∧
      (∀ stage, stage ∈ summaries.map (·.1) ↔ stage.values metrics ≠ []) ∧
      ∀ pair ∈ summaries, pair.2.Ordered (pair.1.values metrics) := by
  have filled : ∀ stage ∈ [Stage.schedule, .prefill, .total, .interToken].filter
      (fun stage => stage.values metrics ≠ []), stage.values metrics ≠ [] := by
    intro stage member
    exact of_decide_eq_true (List.mem_filter.mp member).2
  obtain ⟨summaries, mapped, names, each⟩ := summarize_each (Stage.values metrics) filled
  refine ⟨summaries, mapped, fun stage => ?_, each⟩
  rw [names, List.mem_filter, decide_eq_true_iff]
  exact and_iff_right (by cases stage <;> decide)

theorem gaps_cons_cons (a b : Time) (rest : List Time) : gaps (a :: b :: rest) = (b - a) :: gaps (b :: rest) :=
  rfl

theorem length_gaps (times : List Time) : (gaps times).length = times.length - 1 := by
  simp [gaps]

theorem sum_gaps (first : Time) (rest : List Time) :
    (gaps (first :: rest)).sum = (first :: rest).getLast (List.cons_ne_nil _ _) - first := by
  induction rest generalizing first with
  | nil => simp [gaps]
  | cons second rest ih =>
      rw [gaps_cons_cons, List.sum_cons, ih, List.getLast_cons (List.cons_ne_nil second rest)]
      ring

theorem gaps_nonneg {times : List Time} (sorted : times.Pairwise (· ≤ ·)) : ∀ gap ∈ gaps times, 0 ≤ gap := by
  induction times with
  | nil => exact List.forall_mem_nil _
  | cons first rest ih =>
      cases rest with
      | nil => exact List.forall_mem_nil _
      | cons second rest =>
          obtain ⟨least, sorted⟩ := List.pairwise_cons.mp sorted
          rw [gaps_cons_cons]
          refine List.forall_mem_cons.mpr ⟨?_, ih sorted⟩
          exact sub_nonneg.mpr (least second List.mem_cons_self)

structure Stamped (metrics : RequestMetrics) : Prop where
  admitted : ∀ entered ∈ metrics.admitTime, metrics.enqueueTime ≤ entered
  first : metrics.firstTokenTime = metrics.tokenTimes.head?
  sorted : metrics.tokenTimes.Pairwise (· ≤ ·)
  tokens : ∀ time ∈ metrics.tokenTimes, ∃ entered ∈ metrics.admitTime, entered ≤ time
  done : ∀ time ∈ metrics.doneTime, metrics.tokenTimes.getLast? = some time

variable {metrics : RequestMetrics}

theorem Stamped.nonneg (stamped : Stamped metrics) :
    (∀ latency ∈ scheduleLatency metrics, 0 ≤ latency) ∧ (∀ latency ∈ prefillLatency metrics, 0 ≤ latency) ∧
      ∀ gap ∈ interTokenLatencies metrics, 0 ≤ gap := by
  refine ⟨fun latency scheduled => ?_, fun latency prefilled => ?_, gaps_nonneg stamped.sorted⟩
  · obtain ⟨entered, admitted, rfl⟩ := Option.mem_map.mp scheduled
    exact sub_nonneg.mpr (stamped.admitted entered admitted)
  · unfold prefillLatency at prefilled
    rw [stamped.first] at prefilled
    cases times : metrics.tokenTimes with
    | nil =>
        rw [times] at prefilled
        cases prefilled
    | cons first rest =>
        obtain ⟨entered, admitted, before⟩ := stamped.tokens first (by simp [times])
        rw [times, admitted] at prefilled
        cases prefilled
        exact sub_nonneg.mpr before

theorem length_prefillLatency (stamped : Stamped metrics) :
    (prefillLatency metrics).toList.length + (interTokenLatencies metrics).length =
      metrics.tokenTimes.length := by
  unfold prefillLatency interTokenLatencies
  rw [stamped.first, length_gaps]
  cases times : metrics.tokenTimes with
  | nil => rfl
  | cons first rest =>
      obtain ⟨entered, admitted, -⟩ := stamped.tokens first (by simp [times])
      rw [admitted]
      simp [Nat.add_comm]

theorem Stamped.total (stamped : Stamped metrics) {total : Time} (done : totalLatency metrics = some total) :
    ∃ schedule prefill, scheduleLatency metrics = some schedule ∧ prefillLatency metrics = some prefill ∧
      total = schedule + prefill + (interTokenLatencies metrics).sum := by
  obtain ⟨time, finished, rfl⟩ := Option.map_eq_some_iff.mp done
  have last := stamped.done time finished
  cases times : metrics.tokenTimes with
  | nil =>
      rw [times] at last
      cases last
  | cons first rest =>
      obtain ⟨entered, admitted, -⟩ := stamped.tokens first (by simp [times])
      have start : metrics.firstTokenTime = some first := by
        rw [stamped.first, times]
        rfl
      rw [times, List.getLast?_eq_some_getLast (List.cons_ne_nil first rest)] at last
      refine ⟨entered - metrics.enqueueTime, first - entered, ?_, ?_, ?_⟩
      · rw [scheduleLatency, admitted]
        rfl
      · rw [prefillLatency, start, admitted]
        rfl
      · rw [interTokenLatencies, times, sum_gaps, Option.some.inj last]
        ring

theorem recordRequest_values (metrics : List RequestMetrics) :
    metrics.foldl recordRequest {} =
      { success := metrics.countP (·.doneTime.isSome)
        error := metrics.countP (! ·.doneTime.isSome)
        schedule := Stage.schedule.values metrics
        prefill := Stage.prefill.values metrics
        interToken := Stage.interToken.values metrics
        total := Stage.total.values metrics } := by
  induction metrics using List.reverseRecOn with
  | nil => rfl
  | append_singleton front last ih =>
      rw [List.foldl_append, ih]
      cases done : last.doneTime with
      | none => simp [recordRequest, Stage.values, done]
      | some time => simp [recordRequest, Stage.values, done]

theorem Stamped.total_le (stamped : Stamped metrics) :
    (totalLatency metrics).toList.sum ≤ (scheduleLatency metrics).toList.sum +
        (prefillLatency metrics).toList.sum + (interTokenLatencies metrics).sum ∧
      (metrics.doneTime.isSome → (totalLatency metrics).toList.sum =
        (scheduleLatency metrics).toList.sum + (prefillLatency metrics).toList.sum +
          (interTokenLatencies metrics).sum) := by
  obtain ⟨schedule, prefill, interToken⟩ := stamped.nonneg
  have each {latency : Option Time} (nonneg : ∀ time ∈ latency, 0 ≤ time) : 0 ≤ latency.toList.sum :=
    List.sum_nonneg fun time member => nonneg time (Option.mem_toList.mp member)
  cases total : totalLatency metrics with
  | none =>
      have unfinished : metrics.doneTime = none := Option.map_eq_none_iff.mp total
      refine ⟨?_, fun done => by simp [unfinished] at done⟩
      exact add_nonneg (add_nonneg (each schedule) (each prefill)) (List.sum_nonneg interToken)
  | some latency =>
      obtain ⟨scheduled, prefilled, atSchedule, atPrefill, sum⟩ := stamped.total total
      have same : (some latency).toList.sum = (scheduleLatency metrics).toList.sum +
          (prefillLatency metrics).toList.sum + (interTokenLatencies metrics).sum := by
        rw [atSchedule, atPrefill]
        simpa using sum
      exact ⟨same.le, fun _ => same⟩

theorem sum_total_le {all : List RequestMetrics} (stamped : ∀ metrics ∈ all, Stamped metrics) :
    (Stage.total.values all).sum ≤ (Stage.schedule.values all).sum + (Stage.prefill.values all).sum +
        (Stage.interToken.values all).sum ∧
      ((∀ metrics ∈ all, metrics.doneTime.isSome) → (Stage.total.values all).sum =
        (Stage.schedule.values all).sum + (Stage.prefill.values all).sum +
          (Stage.interToken.values all).sum) := by
  induction all with
  | nil => simp [Stage.values]
  | cons metrics rest ih =>
      obtain ⟨here, others⟩ := List.forall_mem_cons.mp stamped
      obtain ⟨le, same⟩ := here.total_le
      obtain ⟨restLe, restSame⟩ := ih others
      simp only [Stage.values, List.flatMap_cons, List.sum_append] at restLe restSame ⊢
      refine ⟨by linarith, fun done => ?_⟩
      obtain ⟨finished, rest⟩ := List.forall_mem_cons.mp done
      have first := same finished
      have later := restSame rest
      linarith

end LlmServing.Observability
