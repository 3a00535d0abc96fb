import Mathlib.Data.List.Basic

/-!
# Bounded first-in first-out queues

The calls of a queue that do not wait, as `asyncio.Queue` has them: a `maxsize` of zero is no bound.
`offer` and `force` are what a put comes to when a full queue drops the new item, or its oldest.
-/

namespace LlmServing.Lib

@[ext] structure BoundedQueue (ι : Type*) where
  maxsize : Nat
  items : List ι
  bounded : maxsize = 0 ∨ items.length ≤ maxsize

inductive QueueError where
  | full | empty
  deriving DecidableEq

namespace BoundedQueue

variable {ι : Type*}

def empty (maxsize : Nat) : BoundedQueue ι := ⟨maxsize, [], .inr (Nat.zero_le _)⟩

def full (q : BoundedQueue ι) : Bool := q.maxsize ≠ 0 ∧ q.maxsize ≤ q.items.length

theorem bounded_push {q : BoundedQueue ι} (room : q.full = false) (item : ι) :
    q.maxsize = 0 ∨ (q.items ++ [item]).length ≤ q.maxsize := by
  simp only [full, decide_eq_false_iff_not] at room
  rw [List.length_append, List.length_singleton]
  omega

theorem bounded_tail (q : BoundedQueue ι) :
    q.maxsize = 0 ∨ q.items.tail.length ≤ q.maxsize := by
  have bounded := q.bounded
  rw [List.length_tail]
  omega

def putNowait (item : ι) (q : BoundedQueue ι) : Except QueueError (BoundedQueue ι) :=
  if room : q.full = false then .ok ⟨q.maxsize, q.items ++ [item], bounded_push room item⟩
  else .error .full

def getNowait (q : BoundedQueue ι) : Except QueueError (ι × BoundedQueue ι) :=
  match q.items.head? with
  | none => .error .empty
  | some item => .ok (item, ⟨q.maxsize, q.items.tail, bounded_tail q⟩)

def offer (item : ι) (q : BoundedQueue ι) : BoundedQueue ι :=
  match q.putNowait item with
  | .ok q => q
  | .error _ => q

def force (item : ι) (q : BoundedQueue ι) : Except QueueError (BoundedQueue ι) := do
  let q ← if q.full then Prod.snd <$> q.getNowait else pure q
  q.putNowait item

theorem exists_put {q : BoundedQueue ι} (room : q.full = false) (item : ι) :
    ∃ q', q.putNowait item = .ok q' ∧ q'.maxsize = q.maxsize ∧ q'.items = q.items ++ [item] :=
  ⟨_, dif_pos room, rfl, rfl⟩

theorem getNowait_of_head {q : BoundedQueue ι} {item : ι} (head : q.items.head? = some item) :
    q.getNowait = .ok (item, ⟨q.maxsize, q.items.tail, bounded_tail q⟩) := by
  rw [getNowait, head]

theorem getNowait_of_nil {q : BoundedQueue ι} (nothing : q.items = []) :
    q.getNowait = .error .empty := by
  have head : q.items.head? = none := by rw [nothing, List.head?_nil]
  rw [getNowait, head]

theorem offer_eq (item : ι) (q : BoundedQueue ι) :
    (q.offer item).maxsize = q.maxsize ∧
      (q.offer item).items = if q.full then q.items else q.items ++ [item] := by
  unfold offer
  cases room : q.full with
  | false =>
      obtain ⟨q', put, maxsize, items⟩ := exists_put room item
      rw [put]
      exact ⟨maxsize, items⟩
  | true =>
      have refused : q.putNowait item = .error .full := dif_neg (by simp [room])
      rw [refused]
      exact ⟨rfl, rfl⟩

theorem exists_force (item : ι) (q : BoundedQueue ι) :
    ∃ q', q.force item = .ok q' ∧ q'.maxsize = q.maxsize ∧
      q'.items = (if q.full then q.items.tail else q.items) ++ [item] := by
  unfold force
  cases room : q.full with
  | false => exact exists_put room item
  | true =>
      have filled : q.maxsize ≠ 0 ∧ q.maxsize ≤ q.items.length := of_decide_eq_true room
      have bounded := q.bounded
      obtain ⟨oldest, rest, items⟩ : ∃ oldest rest, q.items = oldest :: rest :=
        List.exists_cons_of_length_pos (by omega)
      have head : q.items.head? = some oldest := by rw [items, List.head?_cons]
      have taken := getNowait_of_head head
      have emptied : full ⟨q.maxsize, q.items.tail, bounded_tail q⟩ = false := by
        simp only [BoundedQueue.full, decide_eq_false_iff_not, List.length_tail]
        omega
      rw [taken]
      exact exists_put emptied item

end BoundedQueue

end LlmServing.Lib
