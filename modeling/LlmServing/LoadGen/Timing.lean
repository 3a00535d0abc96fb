import LlmServing.Lib.Machine
import LlmServing.LoadGen.Client
import LlmServing.LoadGen.Schedule

/-!
# The closed loop

`closed_loop_load_gen` of `loadgen/timing.py` over a `send_fn` of `request_sender`. The clients are
coroutines: what stands between two awaits is one step, and any client may take the next one.
-/

namespace LlmServing.LoadGen

open Scheduling Lib

/-- The dict of `request_sender`'s `send`, with what the loop adds to it. -/
structure Timed where
  shape : String
  result : Result
  latency : Time
  firstTokenLatency : Option Time
  completedAt : Time
  scheduledAt : Option Time := none

/-- `_timed`, its `time.monotonic()` reading `now`. -/
def timed (now start sent : Time) (shape : RequestShape) (result : Result) : Timed where
  shape := shape.name
  result
  latency := now - sent
  firstTokenLatency := result.tokenTimes.head?.map (· - sent)
  completedAt := now - start

/-- `exhausted` is the `RuntimeError` of a `StopIteration` in `send`. -/
inductive LoopClient where
  | ready
  | awaiting (shape : RequestShape) (sent : Time)
  | returned
  | raised (shape : RequestShape)
  | exhausted
  deriving DecidableEq

structure ClosedLoop where
  clients : List LoopClient
  unsent : Nat
  queued : List RequestShape
  results : List Timed := []

/-- From the top of `while` to the next await, the clock read for the check and for `sent`. -/
def around (maxDuration : Option Time) (start check sent : Time) (s : ClosedLoop) :
    LoopClient × ClosedLoop :=
  if s.unsent = 0 then (.returned, s)
  else if maxDuration.any (· ≤ check - start) then (.returned, s)
  else
    match s.queued with
    | [] => (.exhausted, { s with unsent := s.unsent - 1 })
    | shape :: queued => (.awaiting shape sent, { s with unsent := s.unsent - 1, queued })

structure LoopEvent where
  result : Option Result := none
  times : List Time := []

def LoopEvent.Reads (event : LoopEvent) (clock stop : Time) : Prop :=
  (clock :: event.times ++ [stop]).Pairwise (· ≤ ·)

instance (event : LoopEvent) (clock stop : Time) : Decidable (event.Reads clock stop) :=
  inferInstanceAs (Decidable (List.Pairwise _ _))

/-- `send_request` reads the clock as well, for each token that it sees. -/
def ReadBetween (sent now : Time) (result : Result) : Prop :=
  ∀ time ∈ result.tokenTimes, sent ≤ time ∧ time ≤ now

inductive ClosedStep (maxDuration : Option Time) (start : Time) :
    ClosedLoop → LoopEvent → ClosedLoop → Prop where
  | run {s t : ClosedLoop} {front behind : List LoopClient} {client : LoopClient} {check sent : Time} :
      s.clients = front ++ .ready :: behind →
      around maxDuration start check sent s = (client, t) →
      ClosedStep maxDuration start s ⟨none, [check, sent]⟩
        { t with clients := front ++ client :: behind }
  | resume {s t : ClosedLoop} {front behind : List LoopClient} {client : LoopClient}
      {shape : RequestShape} {began now check sent : Time} {result : Result} :
      s.clients = front ++ .awaiting shape began :: behind → ReadBetween began now result →
      around maxDuration start check sent
        { s with
          clients := front ++ .ready :: behind
          results := s.results ++ [timed now start began shape result] } = (client, t) →
      ClosedStep maxDuration start s ⟨some result, [now, check, sent]⟩
        { t with clients := front ++ client :: behind }
  | raise {s : ClosedLoop} {front behind : List LoopClient} {shape : RequestShape} {began : Time} :
      s.clients = front ++ .awaiting shape began :: behind →
      ClosedStep maxDuration start s {} { s with clients := front ++ .raised shape :: behind }

def closedLoopLoadGen (concurrency numRequests : Nat) (shapes : List RequestShape)
    (maxDuration : Option Time) (start : Time) : Machine (ClosedLoop × Time) LoopEvent :=
  Machine.timed
    { initial := fun s => s =
        { clients := List.replicate concurrency .ready, unsent := numRequests, queued := shapes }
      step := ClosedStep maxDuration start }
    LoopEvent.Reads start

structure Measured (start clock : Time) (timed : Timed) : Prop where
  latency : 0 ≤ timed.latency
  began : timed.latency ≤ timed.completedAt
  completed : timed.completedAt ≤ clock - start
  firstToken : ∀ first ∈ timed.firstTokenLatency, 0 ≤ first ∧ first ≤ timed.latency

variable {start clock stop now sent : Time} {shape : RequestShape} {result : Result}

theorem Measured.later {timed : Timed} (measured : Measured start clock timed) (le : clock ≤ stop) :
    Measured start stop timed :=
  ⟨measured.latency, measured.began, measured.completed.trans (sub_le_sub_right le start),
    measured.firstToken⟩

theorem measured_timed (began : start ≤ sent) (le : sent ≤ now) (read : ReadBetween sent now result)
    (shape : RequestShape) : Measured start now (timed now start sent shape result) where
  latency := sub_nonneg.mpr le
  began := sub_le_sub_left began now
  completed := le_refl _
  firstToken first token := by
    obtain ⟨time, head, rfl⟩ := Option.map_eq_some_iff.mp token
    obtain ⟨after, before⟩ := read time (List.mem_of_mem_head? head)
    exact ⟨sub_nonneg.mpr after, sub_le_sub_right before sent⟩

/-! ## The clients divide the requests -/

def LoopClient.claimed : LoopClient → List RequestShape
  | .awaiting shape _ => [shape]
  | .raised shape => [shape]
  | _ => []

/-- The shapes of the requests that have been sent. -/
def sentNames (s : ClosedLoop) : List String :=
  s.results.map (·.shape) ++ (s.clients.flatMap LoopClient.claimed).map (·.name)

def inFlight (s : ClosedLoop) : Nat := s.clients.countP fun
  | .awaiting _ _ => true
  | _ => false

def ClientOk (start clock : Time) (through : Prop) : LoopClient → Prop
  | .ready => True
  | .awaiting _ sent => start ≤ sent ∧ sent ≤ clock
  | .returned => through
  | .raised _ => True
  | .exhausted => False

theorem ClientOk.later {through through' : Prop} {client : LoopClient} (ok : ClientOk start clock through client)
    (le : clock ≤ stop) (still : through → through') : ClientOk start stop through' client := by
  cases client with
  | ready => trivial
  | awaiting shape sent => exact ⟨ok.1, ok.2.trans le⟩
  | returned => exact still ok
  | raised shape => trivial
  | exhausted => exact ok

structure Dividing (concurrency numRequests : Nat) (shapes : List RequestShape)
    (maxDuration : Option Time) (start clock : Time) (s : ClosedLoop) : Prop where
  started : start ≤ clock
  clients : s.clients.length = concurrency
  each : ∀ client ∈ s.clients, ClientOk start clock (maxDuration = none → s.unsent = 0) client
  shared : s.unsent + (sentNames s).length = numRequests
  queued : s.queued = shapes.drop (sentNames s).length
  shapes : (sentNames s).Perm ((shapes.take (sentNames s).length).map (·.name))
  measured : ∀ timed ∈ s.results, Measured start clock timed
  order : (s.results.map (·.completedAt)).Pairwise (· ≤ ·)

theorem forall_replaced {γ : Type} {P : γ → Prop} {front behind : List γ} {old new : γ}
    (each : ∀ other ∈ front ++ old :: behind, P other) (here : P new) :
    ∀ other ∈ front ++ new :: behind, P other := by
  intro other member
  rcases List.mem_append.mp member with member | member
  · exact each other (List.mem_append_left _ member)
  · rcases List.mem_cons.mp member with rfl | member
    · exact here
    · exact each other (List.mem_append_right _ (List.mem_cons_of_mem _ member))

theorem names_claim {γ : Type} (claimed : γ → List RequestShape) (done : List String) (front behind : List γ)
    (old new : γ) {shape : RequestShape} (none : claimed old = []) (one : claimed new = [shape]) :
    (done ++ ((front ++ new :: behind).flatMap claimed).map (·.name)).Perm
      (done ++ ((front ++ old :: behind).flatMap claimed).map (·.name) ++ [shape.name]) := by
  simp only [List.flatMap_append, List.flatMap_cons, none, one, List.map_append, List.nil_append,
    List.map_cons, List.append_assoc, List.singleton_append]
  have behindIt (names : List String) : ([shape.name] ++ names).Perm (names ++ [shape.name]) :=
    List.perm_append_comm
  exact ((behindIt _).append_left _).append_left _

theorem names_finish {γ : Type} (claimed : γ → List RequestShape) (done : List String) (front behind : List γ)
    (old new : γ) {shape : RequestShape} (one : claimed old = [shape]) (none : claimed new = []) :
    (done ++ [shape.name] ++ ((front ++ new :: behind).flatMap claimed).map (·.name)).Perm
      (done ++ ((front ++ old :: behind).flatMap claimed).map (·.name)) := by
  simp only [List.flatMap_append, List.flatMap_cons, none, one, List.map_append, List.nil_append,
    List.append_assoc]
  exact List.perm_append_comm_assoc _ _ _ |>.append_left _

section

variable {concurrency numRequests : Nat} {shapes : List RequestShape} {maxDuration : Option Time}
  {s t : ClosedLoop} {front behind : List LoopClient} {client : LoopClient} {check : Time}

theorem Dividing.around (enough : numRequests ≤ shapes.length)
    (holds : Dividing concurrency numRequests shapes maxDuration start clock s)
    (slot : s.clients = front ++ .ready :: behind) (le : clock ≤ sent)
    (moved : around maxDuration start check sent s = (client, t)) :
    Dividing concurrency numRequests shapes maxDuration start sent
      { t with clients := front ++ client :: behind } := by
  obtain ⟨started, clients, each, shared, queued, took, measured, order⟩ := holds
  have measured' := fun timed member => (measured timed member).later le
  have length (client : LoopClient) : (front ++ client :: behind).length = concurrency := by
    rw [← clients, slot, List.length_append, List.length_append]
    rfl
  have stopped (through : maxDuration = none → s.unsent = 0) :
      Dividing concurrency numRequests shapes maxDuration start sent
        { s with clients := front ++ .returned :: behind } := by
    have same : sentNames { s with clients := front ++ .returned :: behind } = sentNames s := by
      simp [sentNames, slot, LoopClient.claimed]
    refine ⟨started.trans le, length _, ?_, same ▸ shared, same ▸ queued, same ▸ took, measured', order⟩
    exact forall_replaced (fun other member => (each other (slot ▸ member)).later le id) through
  unfold LoadGen.around at moved
  split at moved
  · rename_i spent
    cases moved
    exact stopped fun _ => spent
  · split at moved
    · rename_i through
      cases moved
      refine stopped fun unlimited => ?_
      rw [unlimited] at through
      cases through
    · split at moved
      · rename_i exhausted
        have short : shapes.length ≤ (sentNames s).length := List.drop_eq_nil_iff.mp (queued ▸ exhausted)
        omega
      · rename_i some _ _ shape rest next
        cases moved
        have perm : (s.results.map (·.shape) ++ ((front ++ .awaiting shape sent :: behind).flatMap
            LoopClient.claimed).map (·.name)).Perm (sentNames s ++ [shape.name]) := by
          have claim := names_claim LoopClient.claimed (s.results.map (·.shape)) front behind .ready
            (.awaiting shape sent) rfl rfl
          rwa [← slot] at claim
        have more := perm.length_eq.trans (show _ = (sentNames s).length + 1 by simp)
        rw [next] at queued
        have taken : shapes.take ((sentNames s).length + 1) = shapes.take (sentNames s).length ++ [shape] := by
          rw [List.take_add, ← queued]
          rfl
        refine ⟨started.trans le, length _, ?_, ?_, ?_, ?_, measured', order⟩
        · have others : ∀ other ∈ front ++ .ready :: behind,
              ClientOk start sent (maxDuration = none → s.unsent - 1 = 0) other := by
            intro other member
            refine (each other (slot ▸ member)).later le fun through unlimited => ?_
            exact absurd (through unlimited) some
          exact forall_replaced others ⟨started.trans le, le_refl sent⟩
        · show s.unsent - 1 + _ = _
          rw [sentNames, more]
          omega
        · show rest = shapes.drop _
          rw [sentNames, more, List.drop_add_one_eq_tail_drop, ← queued]
          rfl
        · rw [sentNames, more, taken, List.map_append]
          exact perm.trans (took.append_right _)

theorem Dividing.finish (holds : Dividing concurrency numRequests shapes maxDuration start clock s)
    {shape : RequestShape} {began : Time} (slot : s.clients = front ++ .awaiting shape began :: behind)
    (le : clock ≤ now) (read : ReadBetween began now result) :
    Dividing concurrency numRequests shapes maxDuration start now
      { s with
        clients := front ++ .ready :: behind
        results := s.results ++ [timed now start began shape result] } := by
  obtain ⟨started, clients, each, shared, queued, took, measured, order⟩ := holds
  obtain ⟨after, before⟩ := each (.awaiting shape began) (by simp [slot])
  have perm : (sentNames { s with
      clients := front ++ .ready :: behind
      results := s.results ++ [timed now start began shape result] }).Perm (sentNames s) := by
    rw [sentNames, sentNames, slot, List.map_append]
    exact names_finish LoopClient.claimed (s.results.map (·.shape)) front behind (.awaiting shape began)
      .ready rfl rfl
  have length := perm.length_eq
  refine ⟨started.trans le, ?_, ?_, ?_, ?_, ?_, ?_, ?_⟩
  · rw [← clients, slot, List.length_append, List.length_append]
    rfl
  · exact forall_replaced (fun other member => (each other (slot ▸ member)).later le id) trivial
  · rw [length]
    exact shared
  · rw [length]
    exact queued
  · rw [length]
    exact perm.trans took
  · intro timed member
    rcases List.mem_append.mp member with member | member
    · exact (measured timed member).later le
    · rw [List.mem_singleton.mp member]
      exact measured_timed after (before.trans le) read shape
  · rw [List.map_append]
    refine List.pairwise_append.mpr ⟨order, List.pairwise_singleton _ _, fun first member last here => ?_⟩
    obtain ⟨timed, found, rfl⟩ := List.mem_map.mp member
    rw [List.mem_singleton.mp here]
    exact (measured timed found).completed.trans (sub_le_sub_right le start)

theorem Dividing.raised (holds : Dividing concurrency numRequests shapes maxDuration start clock s)
    {shape : RequestShape} {began : Time} (slot : s.clients = front ++ .awaiting shape began :: behind)
    (le : clock ≤ stop) : Dividing concurrency numRequests shapes maxDuration start stop
      { s with clients := front ++ .raised shape :: behind } := by
  obtain ⟨started, clients, each, shared, queued, took, measured, order⟩ := holds
  have same : sentNames { s with clients := front ++ .raised shape :: behind } = sentNames s := by
    simp [sentNames, slot, LoopClient.claimed]
  refine ⟨started.trans le, ?_, ?_, same ▸ shared, same ▸ queued, same ▸ took,
    fun timed member => (measured timed member).later le, order⟩
  · rw [← clients, slot, List.length_append, List.length_append]
    rfl
  · exact forall_replaced (fun other member => (each other (slot ▸ member)).later le id) trivial

theorem Dividing.later (holds : Dividing concurrency numRequests shapes maxDuration start clock s)
    (le : clock ≤ stop) : Dividing concurrency numRequests shapes maxDuration start stop s :=
  ⟨holds.started.trans le, holds.clients, fun client member => (holds.each client member).later le id,
    holds.shared, holds.queued, holds.shapes, fun timed member => (holds.measured timed member).later le,
    holds.order⟩

theorem Dividing.step {event : LoopEvent} (enough : numRequests ≤ shapes.length)
    (holds : Dividing concurrency numRequests shapes maxDuration start clock s)
    (reads : event.Reads clock stop) (step : ClosedStep maxDuration start s event t) :
    Dividing concurrency numRequests shapes maxDuration start stop t := by
  unfold LoopEvent.Reads at reads
  cases step with
  | run slot moved =>
      simp at reads
      exact (holds.around enough slot (by tauto) moved).later (by tauto)
  | resume slot read moved =>
      simp at reads
      have finished := holds.finish slot (by tauto) read
      exact (finished.around enough rfl (by tauto) moved).later (by tauto)
  | raise slot =>
      simp at reads
      exact holds.raised slot (by tauto)

theorem dividing (enough : numRequests ≤ shapes.length) {s : ClosedLoop}
    (reachable : (closedLoopLoadGen concurrency numRequests shapes maxDuration start).Reachable (s, clock)) :
    Dividing concurrency numRequests shapes maxDuration start clock s := by
  refine reachable.invariant (P := fun s =>
    Dividing concurrency numRequests shapes maxDuration start s.2 s.1) ?_ ?_
  · rintro ⟨s, clock⟩ ⟨rfl, rfl⟩
    have none : sentNames
        { clients := List.replicate concurrency .ready, unsent := numRequests, queued := shapes } = [] := by
      simp [sentNames, LoopClient.claimed]
    refine ⟨le_refl _, List.length_replicate, fun client member => ?_, by simp [none], by simp [none],
      by simp [none], List.forall_mem_nil _, List.Pairwise.nil⟩
    rw [List.eq_of_mem_replicate member]
    trivial
  · rintro ⟨s, clock⟩ event ⟨t, stop⟩ before holds ⟨le, reads, step⟩
    exact holds.step enough reads step

theorem Dividing.full (holds : Dividing concurrency numRequests shapes none start clock s)
    (started : .ready ∉ s.clients) (clean : ∀ shape, .raised shape ∉ s.clients) :
    inFlight s = concurrency ∨ s.unsent = 0 := by
  by_cases through : .returned ∈ s.clients
  · exact .inr (holds.each .returned through rfl)
  · left
    rw [inFlight, ← holds.clients]
    refine List.countP_eq_length.mpr fun client member => ?_
    cases client with
    | ready => exact absurd member started
    | awaiting shape sent => rfl
    | returned => exact absurd member through
    | raised shape => exact absurd member (clean shape)
    | exhausted => exact (holds.each .exhausted member).elim

theorem sentNames_returned (all : ∀ client ∈ s.clients, client = .returned) :
    sentNames s = s.results.map (·.shape) := by
  have none : s.clients.flatMap LoopClient.claimed = [] := by
    refine List.flatMap_eq_nil_iff.mpr fun client member => ?_
    rw [all client member]
    rfl
  rw [sentNames, none]
  exact List.append_nil _

end

/-- In every run, however the clients take turns and whatever they are sent, they divide the requests:
each shape is taken once, in the order of `shapes`, and the names of those taken are what the results
and the requests in flight name; a result holds what the clock said. Without a
limit there are `concurrency` requests in flight until all have been sent, and a run that returns has a
result for each. -/
theorem closed_loop_divides (concurrency numRequests : Nat) (shapes : List RequestShape)
    (maxDuration : Option Time) (start : Time) (enough : numRequests ≤ shapes.length)
    {s : ClosedLoop} {clock : Time}
    (reachable : (closedLoopLoadGen concurrency numRequests shapes maxDuration start).Reachable (s, clock)) :
    s.unsent + (sentNames s).length = numRequests ∧ s.queued = shapes.drop (sentNames s).length ∧
      (sentNames s).Perm ((shapes.take (sentNames s).length).map (·.name)) ∧
      inFlight s ≤ concurrency ∧ .exhausted ∉ s.clients ∧
      (∀ timed ∈ s.results, Measured start clock timed) ∧
      (s.results.map (·.completedAt)).Pairwise (· ≤ ·) ∧
      (maxDuration = none → .ready ∉ s.clients → (∀ shape, .raised shape ∉ s.clients) →
        inFlight s = concurrency ∨ s.unsent = 0) ∧
      (maxDuration = none → 0 < concurrency → (∀ client ∈ s.clients, client = .returned) →
        (s.results.map (·.shape)).Perm ((shapes.take numRequests).map (·.name))) := by
  have holds := dividing enough reachable
  refine ⟨holds.shared, holds.queued, holds.shapes, ?_, fun member => holds.each .exhausted member,
    holds.measured, holds.order, ?_, ?_⟩
  · rw [← holds.clients]
    exact List.countP_le_length
  · rintro rfl started clean
    exact holds.full started clean
  · rintro rfl some all
    obtain ⟨client, member⟩ := List.exists_mem_of_length_pos (holds.clients ▸ some)
    have spent : s.unsent = 0 := holds.each .returned (all client member ▸ member) rfl
    have took := holds.shapes
    rw [sentNames_returned all] at took
    have length := holds.shared
    rw [spent, sentNames_returned all, Nat.zero_add] at length
    rwa [length] at took

def sampleShapes : List RequestShape := [⟨"chat", "hello", 64, 1⟩, ⟨"document", "worker 1", 256, 1⟩]

def sampleAnswer : Result := { numTokensReceived := 1, tokenTimes := [3] }

def sampleLoop (clients : List LoopClient) (sent : Nat) (results : List Timed) : ClosedLoop :=
  ⟨clients, 2 - sent, sampleShapes.drop sent, results⟩

theorem sampleLoop_reachable : ∃ results,
    (closedLoopLoadGen 2 2 sampleShapes none 0).Reachable
      (sampleLoop [.returned, .returned] 2 results, 5) := by
  let chat : RequestShape := ⟨"chat", "hello", 64, 1⟩
  let document : RequestShape := ⟨"document", "worker 1", 256, 1⟩
  let results := [timed 4 0 2 document sampleAnswer, timed 5 0 1 chat sampleAnswer]
  have first : ClosedStep none 0 (sampleLoop [.ready, .ready] 0 []) ⟨none, [0, 1]⟩
      (sampleLoop [.awaiting chat 1, .ready] 1 []) :=
    .run (show _ = [] ++ LoopClient.ready :: [.ready] from rfl)
      (show _ = (.awaiting chat 1, sampleLoop [.ready, .ready] 1 []) from rfl)
  have second : ClosedStep none 0 (sampleLoop [.awaiting chat 1, .ready] 1 []) ⟨none, [1, 2]⟩
      (sampleLoop [.awaiting chat 1, .awaiting document 2] 2 []) :=
    .run (show _ = [_] ++ LoopClient.ready :: [] from rfl)
      (show _ = (.awaiting document 2, sampleLoop [.awaiting chat 1, .ready] 2 []) from rfl)
  have third : ClosedStep none 0 (sampleLoop [.awaiting chat 1, .awaiting document 2] 2 [])
      ⟨some sampleAnswer, [4, 4, 4]⟩ (sampleLoop [.awaiting chat 1, .returned] 2 (results.take 1)) :=
    .resume (show _ = [_] ++ LoopClient.awaiting document 2 :: [] from rfl)
      (by unfold ReadBetween; decide)
      (show _ = (.returned, sampleLoop [.awaiting chat 1, .ready] 2 (results.take 1)) from rfl)
  have fourth : ClosedStep none 0 (sampleLoop [.awaiting chat 1, .returned] 2 (results.take 1))
      ⟨some sampleAnswer, [5, 5, 5]⟩ (sampleLoop [.returned, .returned] 2 results) :=
    .resume (show _ = [] ++ LoopClient.awaiting chat 1 :: [_] from rfl)
      (by unfold ReadBetween; decide)
      (show _ = (.returned, sampleLoop [.ready, .returned] 2 results) from rfl)
  have start : (closedLoopLoadGen 2 2 sampleShapes none 0).Reachable
      (sampleLoop [.ready, .ready] 0 [], 0) := .initial ⟨rfl, rfl⟩
  have started := Machine.timed_next start _ 1 (by decide) (by decide +kernel) first
  have full := Machine.timed_next started _ 3 (by decide) (by decide +kernel) second
  have one := Machine.timed_next full _ 4 (by decide) (by decide +kernel) third
  exact ⟨results, Machine.timed_next one _ 5 (by decide) (by decide +kernel) fourth⟩

theorem closed_loop_divides_sample : ∃ results : List Timed,
    (results.map (·.shape)).Perm ["chat", "document"] := by
  obtain ⟨results, reachable⟩ := sampleLoop_reachable
  have divides := closed_loop_divides 2 2 sampleShapes none 0 (by decide) reachable
  obtain ⟨-, -, -, -, -, -, -, -, all⟩ := divides
  refine ⟨results, all rfl (by decide) fun client member => ?_⟩
  simpa [sampleLoop] using member

end LlmServing.LoadGen
