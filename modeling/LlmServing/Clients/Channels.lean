import LlmServing.Lib.BoundedQueue
import LlmServing.Scheduling.Dispatch
import Mathlib.Logic.Function.Basic

/-!
# The event loop's side of delivery

The receiving half of `dispatch.py`, and the loop of `stream` in `server.py` that reads one channel.
Everything here runs on the event loop, so a callback is one step however many channels it serves.
-/

namespace LlmServing.Clients

open Scheduling Lib

abbrev OutputQueue := BoundedQueue Item

/-- `output_channels`. -/
abbrev Channels := SeqId → Option OutputQueue

def putTerminal (q : OutputQueue) (sentinel : Terminal) : Except QueueError OutputQueue := do
  let q ← if q.full then Prod.snd <$> q.getNowait else pure q
  q.putNowait (.terminal sentinel)

/-- One round of the loop in `_deliver_results`, whose `QueueFull` is caught in `offer`. -/
def deliverResult (channels : Channels) : SeqId × Token × Bool → Except QueueError Channels
  | (seqId, token, finished) =>
      match channels seqId with
      | none => pure channels
      | some q => do
          let q := q.offer (.token token)
          let q ← if finished then putTerminal q .done else pure q
          pure (Function.update channels seqId (some q))

def deliverAborted (channels : Channels) (seqId : SeqId) : Except QueueError Channels :=
  match channels seqId with
  | none => pure channels
  | some q => do
      let q ← putTerminal q .aborted
      pure (Function.update channels seqId (some q))

def deliver (channels : Channels) : Callback → Except QueueError Channels
  | .deliverResults results => results.foldlM deliverResult channels
  | .deliverAborted seqIds => seqIds.foldlM deliverAborted channels

def isTerminal : Item → Bool
  | .token _ => false
  | .terminal _ => true

/-- One turn of the loop of `stream`, with the items it has obtained: it waits while the queue is
empty, and ends with the first terminal. -/
def streamTurn (q : OutputQueue) (obtained : List Item) : OutputQueue × List Item :=
  if obtained.any isTerminal then (q, obtained)
  else
    match q.getNowait with
    | .error _ => (q, obtained)
    | .ok (item, q) => (q, obtained ++ [item])

structure EventLoop where
  nextSeqId : SeqId := 0
  channels : Channels := fun _ => none
  obtained : SeqId → List Item := fun _ => []

def newOutputChannel (maxsize : Nat) (s : EventLoop) : EventLoop where
  nextSeqId := s.nextSeqId + 1
  channels := Function.update s.channels s.nextSeqId (some (.empty maxsize))
  obtained := Function.update s.obtained s.nextSeqId []

def get (id : SeqId) (s : EventLoop) : EventLoop :=
  match s.channels id with
  | none => s
  | some q =>
      let turned := streamTurn q (s.obtained id)
      { s with
        channels := Function.update s.channels id (some turned.1)
        obtained := Function.update s.obtained id turned.2 }

/-- The `finally` of `stream`, of a client that is gone or whose stream has ended. -/
def disconnect (id : SeqId) (s : EventLoop) : EventLoop :=
  { s with channels := Function.update s.channels id none }

inductive Event where
  | newOutputChannel (maxsize : Nat)
  | callback (callback : Callback)
  | get (id : SeqId)
  | disconnect (id : SeqId)

def step (s : EventLoop) : Event → Except QueueError EventLoop
  | .newOutputChannel maxsize => pure (newOutputChannel maxsize s)
  | .callback callback => do
      let channels ← deliver s.channels callback
      pure { s with channels }
  | .get id => pure (get id s)
  | .disconnect id => pure (disconnect id s)

def run (s : EventLoop) (events : List Event) : Except QueueError EventLoop := events.foldlM step s

def callbacksOf (events : List Event) : List Callback :=
  events.filterMap fun
    | .callback callback => some callback
    | _ => none

end LlmServing.Clients
