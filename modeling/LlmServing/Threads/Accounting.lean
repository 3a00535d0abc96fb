import LlmServing.Engine.Delivery
import LlmServing.Threads.Refinement

/-!
# Every request is accounted for

`_submitted` counts the requests on their way to the scheduler thread and those it has, no request
being in two places, and `_ended` those it has ended. The distinct ids are also what the refinement of
the loop needs.
-/

namespace LlmServing.Threads

open Scheduling Runner Engine Lib

variable {α ρ : Type}

def SubmitAt.counting : SubmitAt → List IngressRequest
  | .counted req => [req]
  | .checking | .accepted | .opened _ | .queued _ => []

def SubmitAt.uncounted : SubmitAt → List IngressRequest
  | .opened req => [req]
  | .checking | .accepted | .counted _ | .queued _ => []

def InferenceEngine.inIngress (s : InferenceEngine α ρ) : List IngressRequest :=
  s.ingress.reduceOption ++ s.submitting.elim [] SubmitAt.counting

def InferenceEngine.uncounted (s : InferenceEngine α ρ) : List IngressRequest :=
  s.submitting.elim [] SubmitAt.uncounted

variable [KVAllocator α] {runner : ModelRunner ρ} {scheduler : Scheduler}
  {s t : InferenceEngine α ρ}

def countedIds (runner : ModelRunner ρ) (s : InferenceEngine α ρ) : List SeqId :=
  s.inIngress.map (·.seqId) ++ (view runner s).ids

structure Counted (runner : ModelRunner ρ) (s : InferenceEngine α ρ) : Prop where
  distinct : (s.uncounted.map (·.seqId) ++ countedIds runner s).Nodup
  fresh : ∀ id ∈ s.uncounted.map (·.seqId) ++ countedIds runner s, id < s.nextSeqId
  submitted : s.submitted = (countedIds runner s).length
  queued : ∀ id, s.submitting = some (.queued id) → id ∈ countedIds runner s
  returned : ∀ id ∈ s.returned, id ∈ countedIds runner s

theorem Counted.moved (ok : Counted runner s) (perm : (countedIds runner t).Perm (countedIds runner s))
    (submitting : t.submitting = s.submitting) (submitted : t.submitted = s.submitted)
    (nextSeqId : t.nextSeqId = s.nextSeqId) (returned : t.returned = s.returned) :
    Counted runner t := by
  have uncounted : t.uncounted = s.uncounted := by rw [InferenceEngine.uncounted, submitting]; rfl
  have every := perm.append_left (s.uncounted.map (·.seqId))
  refine ⟨?_, fun id member => ?_, ?_, fun id here => ?_, fun id member => ?_⟩
  · rw [uncounted]
    exact every.nodup_iff.mpr ok.distinct
  · rw [uncounted] at member
    rw [nextSeqId]
    exact ok.fresh id (every.mem_iff.mp member)
  · rw [submitted, ok.submitted, perm.length_eq]
  · exact perm.mem_iff.mpr (ok.queued id (submitting ▸ here))
  · exact perm.mem_iff.mpr (ok.returned id (returned ▸ member))

theorem Seen.countedIds_perm (seen : Seen runner scheduler s t)
    (ok : Consistent runner (view runner s)) (submitting : t.submitting = s.submitting) :
    (countedIds runner t).Perm (countedIds runner s) := by
  simp only [countedIds, InferenceEngine.inIngress, submitting]
  cases seen with
  | same view ingress => rw [view, ingress]
  | moves event step quiet ingress =>
      rw [ingress]
      exact (ids_step ok step quiet).append_left _
  | arrives req ingress _ _ view =>
      rw [ingress, view]
      refine ((ids_arrive req).append_left _).trans ?_
      rw [List.cons_append, List.map_cons, List.cons_append]
      exact List.perm_middle

theorem Counted.schedulerStep (ok : Counted runner s) (handOff : HandOffOk runner s)
    (consistent : Consistent runner (view runner s)) (step : SchedulerStep runner scheduler s t) :
    Counted runner t := by
  have perm := step.seen handOff |>.countedIds_perm consistent (by cases step <;> rfl)
  cases step <;> exact ok.moved perm rfl rfl rfl rfl

theorem Counted.workerStep (scheduler : Scheduler) (ok : Counted runner s)
    (handOff : HandOffOk runner s) (consistent : Consistent runner (view runner s))
    (step : WorkerStep runner s t) : Counted runner t := by
  have perm := step.seen scheduler handOff |>.countedIds_perm consistent (by cases step <;> rfl)
  cases step <;> exact ok.moved perm rfl rfl rfl rfl

theorem Counted.submitStep (ok : Counted runner s) (step : SubmitStep s t) : Counted runner t := by
  obtain ⟨distinct, fresh, submitted, queued, returned⟩ := ok
  cases step with
  | acquire here | refuse here _ | accept here _ =>
      simp only [countedIds, InferenceEngine.inIngress, InferenceEngine.uncounted, here]
        at distinct fresh submitted returned
      exact ⟨distinct, fresh, submitted, nofun, returned⟩
  | @newOutputChannel req here next =>
      simp only [countedIds, InferenceEngine.inIngress, InferenceEngine.uncounted, here]
        at distinct fresh submitted returned
      refine ⟨List.nodup_cons.mpr ⟨fun member => ?_, distinct⟩, fun id member => ?_, submitted,
        nofun, returned⟩
      · exact absurd (fresh _ member) (Nat.not_lt.mpr next)
      · rcases List.mem_cons.mp member with rfl | member
        · exact Nat.lt_succ_self _
        · exact (fresh id member).trans_le (next.trans (Nat.le_succ _))
  | @count req here =>
      have counted : (countedIds runner { s with
          submitting := some (.counted req), submitted := s.submitted + 1 }).Perm
            (req.seqId :: countedIds runner s) := by
        simp only [countedIds, InferenceEngine.inIngress, here, List.map_append, List.append_assoc]
        exact List.perm_middle
      have uncounted : s.uncounted.map (·.seqId) = [req.seqId] := by
        rw [InferenceEngine.uncounted, here]
        rfl
      rw [uncounted] at distinct fresh
      refine ⟨counted.nodup_iff.mpr distinct, fun id member => ?_, ?_, nofun, fun id member => ?_⟩
      · exact fresh id (counted.mem_iff.mp member)
      · rw [counted.length_eq, List.length_cons, ← submitted]
      · exact counted.mem_iff.mpr (List.mem_cons_of_mem _ (returned id member))
  | @put req here =>
      have counted : countedIds runner { s with
          submitting := some (.queued req.seqId), ingress := s.ingress ++ [some req] } =
            countedIds runner s := by
        simp only [countedIds, InferenceEngine.inIngress, here, List.reduceOption_append, Option.elim,
          SubmitAt.counting, List.append_nil]
        rfl
      have uncounted : s.uncounted = [] := by rw [InferenceEngine.uncounted, here]; rfl
      rw [uncounted, ← counted] at distinct fresh
      rw [← counted] at submitted returned
      refine ⟨distinct, fresh, submitted, ?_, returned⟩
      rintro _ ⟨⟩
      rw [counted, countedIds, InferenceEngine.inIngress, here]
      simp [SubmitAt.counting]
  | @«return» seqId here =>
      have counted := queued seqId here
      simp only [countedIds, InferenceEngine.inIngress, InferenceEngine.uncounted, here]
        at distinct fresh submitted returned counted
      refine ⟨distinct, fresh, submitted, nofun, fun id member => ?_⟩
      rcases List.mem_append.mp member with member | member
      · exact returned id member
      · exact List.mem_singleton.mp member ▸ counted

omit [KVAllocator α] in
theorem ControlStep.reduceOption_ingress (step : ControlStep s t) :
    t.ingress.reduceOption = s.ingress.reduceOption := by
  cases step with
  | ingressPut _ => simp [List.reduceOption_append]
  | _ => rfl

theorem Counted.controlStep (ok : Counted runner s) (step : ControlStep s t) : Counted runner t := by
  have counted : countedIds runner t = countedIds runner s := by
    simp only [countedIds, InferenceEngine.inIngress, step.reduceOption_ingress]
    cases step <;> rfl
  cases step <;> exact ok.moved (.of_eq counted) rfl rfl rfl rfl

theorem Seen.move (seen : Seen runner scheduler s t) (counted : Counted runner s) :
    view runner t = view runner s ∨
      ∃ event, Engine.Step runner scheduler (view runner s) event (view runner t) := by
  cases seen with
  | same view _ => exact .inl view
  | moves event step _ _ => exact .inr ⟨event, step⟩
  | arrives req ingress idle live view =>
      refine .inr ⟨.arrive req, ?_⟩
      rw [view]
      refine .arrive idle live fun taken => ?_
      have distinct := counted.distinct.of_append_right
      rw [countedIds, InferenceEngine.inIngress, ingress, List.cons_append, List.map_cons,
        List.cons_append, List.nodup_cons] at distinct
      exact distinct.1 (List.mem_append_right _ taken)

theorem threads_refine (runner : ModelRunner ρ) (scheduler : Scheduler) (allocator : α) (start : ρ) :
    (threads runner scheduler allocator start).Refines (loop runner scheduler allocator start)
      (view runner) (Counted runner) where
  initial s started := by
    obtain ⟨nextSeqId, rfl⟩ := started
    exact ⟨rfl, List.nodup_nil, nofun, rfl, nofun, nofun⟩
  step s thread t reachable seen counted step := by
    have handOff := handOffOk reachable
    have consistent := Engine.consistent seen
    cases thread with
    | scheduler =>
        exact ⟨(step.seen handOff).move counted, counted.schedulerStep handOff consistent step⟩
    | worker =>
        exact ⟨(step.seen scheduler handOff).move counted,
          counted.workerStep scheduler handOff consistent step⟩
    | submitter => exact ⟨.inl (by cases step <;> rfl), counted.submitStep step⟩
    | control => exact ⟨.inl (by cases step <;> rfl), counted.controlStep step⟩

def SchedulerAt.closed : SchedulerAt → Bool
  | .drainIngress failing => failing
  | .abortAll | .ends _ .abortAll | .clearWaiting | .failed => true
  | _ => false

def SchedulerAt.drained : SchedulerAt → Bool
  | .abortAll | .ends _ .abortAll | .clearWaiting | .failed => true
  | _ => false

def ControlAt.closed : ControlAt → Bool
  | .idle | .closeIngress | .stop .closeIngress false => false
  | _ => true

structure Closing (s : InferenceEngine α ρ) : Prop where
  submitting : s.accepting = false → s.submitting = none ∨ s.submitting = some .checking
  scheduler : s.scheduler.closed = true → s.accepting = false
  control : s.control.closed = true → s.accepting = false
  drained : s.scheduler.drained = true → s.ingress.reduceOption = []

theorem SchedulerAt.closed_of_drained {place : SchedulerAt} (drained : place.drained = true) :
    place.closed = true := by
  cases place with
  | ends seqs endsOf => cases endsOf <;> first | rfl | cases drained
  | abortAll | clearWaiting | failed => rfl
  | _ => cases drained

omit [KVAllocator α] in
theorem Closing.open_place (ok : Closing s) {place : SchedulerAt} {core : EngineState α ρ}
    (closed : place.closed = false) {planQueue : List (Option Handed)}
    {resultsQueue : List (Handed × Outcome)} {ingress : List (Option IngressRequest)} {handed : Nat} :
    Closing { s with scheduler := place, core, planQueue, resultsQueue, ingress, handed } where
  submitting := ok.submitting
  scheduler here := by cases closed.symm.trans here
  control := ok.control
  drained here := by cases closed.symm.trans (SchedulerAt.closed_of_drained here)

theorem Closing.schedulerStep (ok : Closing s) (step : SchedulerStep runner scheduler s t) :
    Closing t := by
  have shut := ok.scheduler
  have empty := ok.drained
  cases step with
  | stop _ _ | await _ _ | go _ _ | take _ _ | schedulerStep _ _ | freePreempted _ | abortRejected _
  | put _ _ | block _ _ | wake _ _ => exact ok.open_place rfl
  | @apply inFlight taken now here =>
      refine ok.open_place ?_
      rcases startApply_cases now inFlight.plan inFlight.seqs taken.2 s.core with lost | ⟨_, ends⟩
      · rw [lost]; rfl
      · rw [ends]; rfl
  | @«end» seq rest endsOf here =>
      rw [here] at shut empty
      cases endsOf <;> exact ⟨ok.submitting, shut, ok.control, empty⟩
  | @ended endsOf here =>
      rw [here] at shut empty
      cases endsOf <;> exact ⟨ok.submitting, shut, ok.control, empty⟩
  | @drain failing item rest here queue =>
      refine ⟨ok.submitting, shut, ok.control, fun drained => ?_⟩
      rw [here] at drained
      cases drained
  | @drained failing here none =>
      rw [here] at shut
      cases failing with
      | false => exact ok.open_place rfl
      | true => exact ⟨ok.submitting, shut, ok.control, fun _ => by rw [none]; rfl⟩
  | failClose here free => exact ⟨fun _ => .inl free, fun _ => rfl, fun _ => rfl, nofun⟩
  | abortAll here | clearWaiting here =>
      rw [here] at shut empty
      exact ⟨ok.submitting, shut, ok.control, empty⟩

omit [KVAllocator α] in
theorem Closing.workerStep (ok : Closing s) (step : WorkerStep runner s t) : Closing t := by
  cases step <;> exact ⟨ok.submitting, ok.scheduler, ok.control, ok.drained⟩

omit [KVAllocator α] in
theorem Closing.submitStep (ok : Closing s) (step : SubmitStep s t) : Closing t := by
  have past {place : SubmitAt} (here : s.submitting = some place) (ne : place ≠ .checking) :
      s.accepting = true := by
    by_contra shut
    rcases ok.submitting (by simpa using shut) with none | checking
    · cases here.symm.trans none
    · exact ne (Option.some.inj (here.symm.trans checking))
  cases step with
  | acquire here => exact ⟨fun _ => .inr rfl, ok.scheduler, ok.control, ok.drained⟩
  | refuse here shut => exact ⟨fun _ => .inl rfl, ok.scheduler, ok.control, ok.drained⟩
  | «return» here => exact ⟨fun _ => .inl rfl, ok.scheduler, ok.control, ok.drained⟩
  | accept here accepting =>
      exact ⟨(fun shut => nomatch accepting.symm.trans shut), ok.scheduler, ok.control, ok.drained⟩
  | newOutputChannel _ here _ | count here =>
      have accepting := past here nofun
      exact ⟨(fun shut => nomatch accepting.symm.trans shut), ok.scheduler, ok.control, ok.drained⟩
  | put here =>
      have accepting := past here nofun
      refine ⟨(fun shut => nomatch accepting.symm.trans shut), ok.scheduler, ok.control,
        fun drained => ?_⟩
      have shut := ok.scheduler (SchedulerAt.closed_of_drained drained)
      cases accepting.symm.trans shut

omit [KVAllocator α] in
theorem Closing.controlStep (ok : Closing s) (step : ControlStep s t) : Closing t := by
  have shut := ok.control
  have drained : t.scheduler.drained = true → t.ingress.reduceOption = [] := by
    rw [step.reduceOption_ingress]
    cases step <;> exact ok.drained
  cases step with
  | closeIngress _ free | stopClose _ free =>
      exact ⟨fun _ => .inl free, fun _ => rfl, fun _ => rfl, drained⟩
  | callStop here | switchModel here => exact ⟨ok.submitting, ok.scheduler, nofun, drained⟩
  | readEnded here | sleep here _ | idle here _ | setStop here | load here | ingressPut here
  | planPut here =>
      rw [here] at shut
      exact ⟨ok.submitting, ok.scheduler, fun _ => shut rfl, drained⟩

theorem closing {allocator : α} {start : ρ}
    (reachable : (threads runner scheduler allocator start).Reachable s) : Closing s := by
  refine reachable.invariant (P := Closing) ?_ fun _ thread _ _ ok step => ?_
  · rintro _ ⟨_, rfl⟩
    exact ⟨nofun, nofun, nofun, nofun⟩
  · cases thread with
    | scheduler => exact ok.schedulerStep step
    | worker => exact ok.workerStep step
    | submitter => exact ok.submitStep step
    | control => exact ok.controlStep step

end LlmServing.Threads
