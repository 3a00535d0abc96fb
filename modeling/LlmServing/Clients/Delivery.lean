import LlmServing.Clients.Channels
import LlmServing.Engine.Delivery
import LlmServing.Engine.Iteration

/-!
# What one client reads

The events of the loop, seen from one channel: a channel's queue and what its stream has read depend
on the deliveries to it and the turns of its own stream alone.
-/

namespace LlmServing.Clients

open Scheduling Lib

def land (q : OutputQueue) (sentinel : Terminal) : OutputQueue :=
  match putTerminal q sentinel with
  | .ok q => q
  | .error _ => q

theorem putTerminal_land (q : OutputQueue) (sentinel : Terminal) :
    putTerminal q sentinel = .ok (land q sentinel) ∧ (land q sentinel).maxsize = q.maxsize ∧
      (land q sentinel).items = (if q.full then q.items.tail else q.items) ++
        [.terminal sentinel] := by
  obtain ⟨q', landed, maxsize, items⟩ := BoundedQueue.exists_force (.terminal sentinel) q
  have same : putTerminal q sentinel = .ok q' := landed
  rw [land, same]
  exact ⟨rfl, maxsize, items⟩

inductive ChannelEvent where
  | result (token : Token) (finished : Bool)
  | aborted
  | turn
  deriving DecidableEq

def resultQueue (q : OutputQueue) (token : Token) (finished : Bool) : OutputQueue :=
  if finished then land (q.offer (.token token)) .done else q.offer (.token token)

theorem deliverResult_eq (channels : Channels) (seqId : SeqId) (token : Token) (finished : Bool) :
    deliverResult channels (seqId, token, finished) =
      .ok (Function.update channels seqId
        ((channels seqId).map fun q => resultQueue q token finished)) := by
  cases found : channels seqId with
  | none =>
      have same : Function.update channels seqId none = channels :=
        Function.update_eq_self_iff.mpr found.symm
      simp only [deliverResult, found, Option.map_none, same]
      rfl
  | some q =>
      simp only [deliverResult, found, Option.map_some]
      cases finished with
      | false => rfl
      | true =>
          rw [if_pos rfl, (putTerminal_land _ _).1]
          rfl

theorem deliverAborted_eq (channels : Channels) (seqId : SeqId) :
    deliverAborted channels seqId =
      .ok (Function.update channels seqId ((channels seqId).map (land · .aborted))) := by
  cases found : channels seqId with
  | none =>
      have same : Function.update channels seqId none = channels :=
        Function.update_eq_self_iff.mpr found.symm
      simp only [deliverAborted, found, Option.map_none, same]
      rfl
  | some q =>
      simp only [deliverAborted, found, Option.map_some]
      rw [(putTerminal_land q _).1]
      rfl

/-! ## One channel -/

abbrev Channel := OutputQueue × List Item

def channelStep : Channel → ChannelEvent → Channel
  | (q, obtained), .result token finished => (resultQueue q token finished, obtained)
  | (q, obtained), .aborted => (land q .aborted, obtained)
  | (q, obtained), .turn => streamTurn q obtained

def callbackEvents (id : SeqId) : Callback → List ChannelEvent
  | .deliverResults results => results.filterMap fun (seqId, token, finished) =>
      if seqId = id then some (.result token finished) else none
  | .deliverAborted seqIds => seqIds.filterMap fun seqId =>
      if seqId = id then some .aborted else none

def eventsOf (id : SeqId) (events : List Event) : List ChannelEvent :=
  events.flatMap fun
    | .newOutputChannel _ => []
    | .callback callback => callbackEvents id callback
    | .get owner => if owner = id then [.turn] else []
    | .disconnect _ => []

def channelOf (id : SeqId) (s : EventLoop) : Option Channel :=
  (s.channels id).map fun q => (q, s.obtained id)

theorem foldlM_updates {ι : Type} {round : Channels → ι → Except QueueError Channels} {key : ι → SeqId}
    {event : ι → ChannelEvent} {change : ι → OutputQueue → OutputQueue}
    (updates : ∀ channels i, round channels i =
      .ok (Function.update channels (key i) ((channels (key i)).map (change i))))
    (changes : ∀ i q obtained, channelStep (q, obtained) (event i) = (change i q, obtained))
    (is : List ι) (channels : Channels) :
    ∃ after, is.foldlM round channels = .ok after ∧ ∀ id (obtained : List Item),
      (after id).map (fun q => (q, obtained)) = (channels id).map fun q =>
        (is.filterMap fun i => if key i = id then some (event i) else none).foldl channelStep
          (q, obtained) := by
  induction is generalizing channels with
  | nil => exact ⟨channels, rfl, fun id obtained => rfl⟩
  | cons i rest ih =>
      obtain ⟨after, delivered, each⟩ :=
        ih (Function.update channels (key i) ((channels (key i)).map (change i)))
      refine ⟨after, ?_, fun id obtained => ?_⟩
      · rw [List.foldlM_cons, updates]
        exact delivered
      · rw [each]
        by_cases same : key i = id
        · subst same
          rw [Function.update_self, Option.map_map]
          simp [changes, Function.comp_def]
        · rw [Function.update_of_ne (Ne.symm same)]
          simp [same]

theorem deliver_eq (callback : Callback) (channels : Channels) :
    ∃ after, deliver channels callback = .ok after ∧ ∀ id (obtained : List Item),
      (after id).map (fun q => (q, obtained)) = (channels id).map fun q =>
        (callbackEvents id callback).foldl channelStep (q, obtained) := by
  cases callback with
  | deliverResults results =>
      exact foldlM_updates (fun channels (seqId, token, finished) =>
        deliverResult_eq channels seqId token finished) (fun _ _ _ => rfl) results channels
  | deliverAborted seqIds =>
      exact foldlM_updates deliverAborted_eq (fun _ _ _ => rfl) seqIds channels

theorem channel_run (s : EventLoop) (events : List Event) {id : SeqId} (known : id < s.nextSeqId)
    (connected : ∀ event ∈ events, event ≠ .disconnect id) :
    ∃ t, run s events = .ok t ∧
      channelOf id t = (channelOf id s).map fun channel =>
        (eventsOf id events).foldl channelStep channel := by
  induction events generalizing s with
  | nil => exact ⟨s, rfl, by simp [eventsOf]⟩
  | cons event rest ih =>
      rw [List.forall_mem_cons] at connected
      -- What one event does to the channel.
      obtain ⟨next, stepped, known', here⟩ : ∃ next, step s event = .ok next ∧
          id < next.nextSeqId ∧ channelOf id next = (channelOf id s).map fun channel =>
            (eventsOf id [event]).foldl channelStep channel := by
        cases event with
        | newOutputChannel maxsize =>
            have other : id ≠ s.nextSeqId := Nat.ne_of_lt known
            refine ⟨_, rfl, Nat.lt_succ_of_lt known, ?_⟩
            simp [channelOf, newOutputChannel, eventsOf, Function.update_of_ne other,
              Function.comp_def]
        | callback callback =>
            obtain ⟨after, delivered, each⟩ := deliver_eq callback s.channels
            refine ⟨{ s with channels := after }, ?_, known, ?_⟩
            · simp only [step, delivered]
              rfl
            · rw [channelOf, each, channelOf, Option.map_map]
              simp [eventsOf, Function.comp_def]
        | get owner =>
            refine ⟨_, rfl, ?_, ?_⟩
            · unfold get
              cases s.channels owner <;> exact known
            · unfold get
              by_cases same : owner = id
              · subst same
                cases found : s.channels owner with
                | none => simp [channelOf, found]
                | some q => simp [channelOf, found, eventsOf, channelStep]
              · have other : id ≠ owner := Ne.symm same
                cases found : s.channels owner with
                | none => simp [eventsOf, same]
                | some q =>
                    simp [channelOf, eventsOf, same, Function.update_of_ne other, Function.comp_def]
        | disconnect owner =>
            have other : id ≠ owner := fun same => connected.1 (same ▸ rfl)
            refine ⟨_, rfl, known, ?_⟩
            simp [channelOf, disconnect, eventsOf, Function.update_of_ne other, Function.comp_def]
      obtain ⟨t, ran, there⟩ := ih next known' connected.2
      refine ⟨t, ?_, ?_⟩
      · rw [run, List.foldlM_cons, stepped]
        exact ran
      · rw [there, here, Option.map_map]
        simp [eventsOf, Function.comp_def]

def itemsOf : ChannelEvent → List Item
  | .result token finished => .token token :: if finished then [.terminal .done] else []
  | .aborted => [.terminal .aborted]
  | .turn => []

theorem itemsOf_callbackEvents (id : SeqId) (callback : Callback) :
    (callbackEvents id callback).flatMap itemsOf = itemsFor id [callback] := by
  cases callback with
  | deliverResults results =>
      induction results with
      | nil => rfl
      | cons result rest ih =>
          obtain ⟨owner, token, finished⟩ := result
          rw [itemsFor_deliverResults_cons, ← ih]
          by_cases same : owner = id
          · simp [callbackEvents, same, itemsOf]
          · simp [callbackEvents, same]
  | deliverAborted seqIds =>
      induction seqIds with
      | nil => rfl
      | cons owner rest ih =>
          rw [itemsFor_deliverAborted_cons, ← ih]
          by_cases same : owner = id
          · simp [callbackEvents, same, itemsOf]
          · simp [callbackEvents, same]

theorem itemsOf_eventsOf (id : SeqId) (events : List Event) :
    (eventsOf id events).flatMap itemsOf = itemsFor id (callbacksOf events) := by
  induction events with
  | nil => rfl
  | cons event rest ih =>
      have split : (eventsOf id (event :: rest)).flatMap itemsOf =
          (eventsOf id [event]).flatMap itemsOf ++ (eventsOf id rest).flatMap itemsOf := by
        simp [eventsOf]
      rw [split, ih]
      cases event with
      | newOutputChannel maxsize => rfl
      | disconnect owner => rfl
      | get owner =>
          by_cases same : owner = id
          · simp [eventsOf, same, itemsOf, callbacksOf]
          · simp [eventsOf, same, callbacksOf]
      | callback callback =>
          have here : (eventsOf id [.callback callback]).flatMap itemsOf =
              itemsFor id [callback] := by
            rw [← itemsOf_callbackEvents]
            simp [eventsOf]
          rw [here, ← itemsFor_append]
          rfl

theorem streamTurn_kept (q : OutputQueue) (obtained : List Item) :
    (streamTurn q obtained).1.maxsize = q.maxsize ∧
      (streamTurn q obtained).2 ++ (streamTurn q obtained).1.items = obtained ++ q.items := by
  unfold streamTurn
  split
  · exact ⟨rfl, rfl⟩
  · cases items : q.items with
    | nil =>
        rw [BoundedQueue.getNowait_of_nil items]
        exact ⟨rfl, by rw [items]⟩
    | cons item rest =>
        have head : q.items.head? = some item := by rw [items, List.head?_cons]
        rw [BoundedQueue.getNowait_of_head head]
        simp [items]

theorem turns_kept (events : List ChannelEvent) (channel : Channel)
    (nothing : events.flatMap itemsOf = []) :
    (events.foldl channelStep channel).1.maxsize = channel.1.maxsize ∧
      (events.foldl channelStep channel).2 ++ (events.foldl channelStep channel).1.items =
        channel.2 ++ channel.1.items := by
  induction events generalizing channel with
  | nil => exact ⟨rfl, rfl⟩
  | cons event rest ih =>
      rw [List.flatMap_cons, List.append_eq_nil_iff] at nothing
      cases event with
      | result token finished => cases nothing.1
      | aborted => cases nothing.1
      | turn =>
          obtain ⟨maxsize, kept⟩ := ih (streamTurn channel.1 channel.2) nothing.2
          have turned := streamTurn_kept channel.1 channel.2
          exact ⟨maxsize.trans turned.1, kept.trans turned.2⟩

variable {q : OutputQueue} {obtained : List Item} {kept : List Token}

theorem offer_kept (read : obtained ++ q.items = kept.map .token) (token : Token) :
    ∃ kept', kept'.Sublist (kept ++ [token]) ∧
      obtained ++ (q.offer (.token token)).items = kept'.map .token ∧
      (q.full = false → kept' = kept ++ [token]) := by
  have offered := (BoundedQueue.offer_eq (.token token) q).2
  cases full : q.full with
  | true =>
      rw [full, if_pos rfl] at offered
      exact ⟨kept, List.sublist_append_left _ _, offered ▸ read, fun room => by cases room⟩
  | false =>
      rw [full, if_neg Bool.false_ne_true] at offered
      refine ⟨kept ++ [token], List.Sublist.refl _, ?_, fun _ => rfl⟩
      rw [offered, ← List.append_assoc, read, List.map_append]
      rfl

theorem land_kept (read : obtained ++ q.items = kept.map .token) (sentinel : Terminal) :
    ∃ kept', kept'.Sublist kept ∧
      obtained ++ (land q sentinel).items = kept'.map .token ++ [.terminal sentinel] ∧
      (q.full = false → kept' = kept) := by
  have landed := (putTerminal_land q sentinel).2.2
  cases full : q.full with
  | false =>
      rw [full, if_neg Bool.false_ne_true] at landed
      exact ⟨kept, List.Sublist.refl _, by rw [landed, ← List.append_assoc, read], fun _ => rfl⟩
  | true =>
      rw [full, if_pos rfl] at landed
      obtain ⟨front, behind, rfl, before, items⟩ := List.map_eq_append_iff.mp read.symm
      refine ⟨front ++ behind.tail, (List.tail_sublist behind).append_left front, ?_,
        fun room => by cases room⟩
      rw [landed, ← items, ← before, List.map_append, List.map_tail, List.append_assoc]

/-- Every delivery finds two free slots. -/
def Unhurried : Channel → List ChannelEvent → Prop
  | _, [] => True
  | channel, event :: events =>
      (event ≠ .turn → channel.1.items.length + 2 ≤ channel.1.maxsize) ∧
        Unhurried (channelStep channel event) events

theorem not_full {q : OutputQueue} (room : q.items.length < q.maxsize) : q.full = false := by
  simp only [BoundedQueue.full, decide_eq_false_iff_not]
  omega

theorem terminal_reads {events : List ChannelEvent} {tokens : List Token} {last : List Item}
    {sentinel : Terminal} (read : obtained ++ q.items = kept.map .token)
    (delivers : .terminal sentinel :: events.flatMap itemsOf = tokens.map .token ++ last)
    (ends : last = [] ∨ ∃ sentinel, last = [.terminal sentinel]) :
    let after := events.foldl channelStep (land q sentinel, obtained)
    after.1.maxsize = q.maxsize ∧ tokens = [] ∧
      ∃ kept', kept'.Sublist kept ∧ after.2 ++ after.1.items = kept'.map .token ++ last ∧
        (q.full = false → kept' = kept) := by
  cases tokens with
  | cons token tokens => cases delivers
  | nil =>
      obtain rfl | ⟨last, rfl⟩ := ends
      · cases delivers
      · obtain ⟨landed, nothing⟩ := List.cons.inj delivers
        obtain rfl : sentinel = last := Item.terminal.inj landed
        obtain ⟨kept', sublist, reads, whole⟩ := land_kept read sentinel
        obtain ⟨maxsize, same⟩ := turns_kept events (land q sentinel, obtained) nothing
        exact ⟨maxsize.trans (putTerminal_land q sentinel).2.1, rfl, kept', sublist,
          same.trans reads, whole⟩

/-- Induction over the channel's events, with the tokens `kept` of those delivered so far. -/
theorem channel_reads (events : List ChannelEvent) (q : OutputQueue) (obtained : List Item)
    (kept tokens : List Token) (last : List Item) (read : obtained ++ q.items = kept.map .token)
    (delivers : events.flatMap itemsOf = tokens.map .token ++ last)
    (ends : last = [] ∨ ∃ sentinel, last = [.terminal sentinel]) :
    let after := events.foldl channelStep (q, obtained)
    after.1.maxsize = q.maxsize ∧
      ∃ kept', kept'.Sublist (kept ++ tokens) ∧
        after.2 ++ after.1.items = kept'.map .token ++ last ∧
        (Unhurried (q, obtained) events → kept' = kept ++ tokens) := by
  induction events generalizing q obtained kept tokens with
  | nil =>
      obtain ⟨none, rfl⟩ := List.append_eq_nil_iff.mp delivers.symm
      obtain rfl := List.map_eq_nil_iff.mp none
      exact ⟨rfl, kept, by simp, by simpa using read, fun _ => (List.append_nil kept).symm⟩
  | cons event rest ih =>
      rw [List.flatMap_cons] at delivers
      cases event with
      | turn =>
          obtain ⟨maxsize, moved⟩ := streamTurn_kept q obtained
          obtain ⟨maxsize', kept', sublist, reads, whole⟩ :=
            ih (streamTurn q obtained).1 (streamTurn q obtained).2 kept tokens
              (moved.trans read) delivers
          exact ⟨maxsize'.trans maxsize, kept', sublist, reads, fun calm => whole calm.2⟩
      | aborted =>
          obtain ⟨maxsize, rfl, kept', sublist, reads, whole⟩ := terminal_reads read delivers ends
          refine ⟨maxsize, kept', by simpa using sublist, reads, fun calm => ?_⟩
          have room : q.items.length + 2 ≤ q.maxsize := calm.1 ChannelEvent.noConfusion
          rw [whole (not_full (by omega)), List.append_nil]
      | result token finished =>
          obtain ⟨offered, taken, reads, whole⟩ := offer_kept read token
          obtain ⟨maxsize, items⟩ := BoundedQueue.offer_eq (.token token) q
          have roomy (calm : Unhurried (q, obtained) (.result token finished :: rest)) :
              q.full = false ∧ (q.offer (.token token)).full = false := by
            have room : q.items.length + 2 ≤ q.maxsize := calm.1 ChannelEvent.noConfusion
            have unfilled := not_full (show q.items.length < q.maxsize by omega)
            rw [unfilled, if_neg Bool.false_ne_true] at items
            refine ⟨unfilled, not_full ?_⟩
            rw [items, maxsize, List.length_append, List.length_singleton]
            omega
          cases tokens with
          | nil =>
              obtain rfl | ⟨sentinel, rfl⟩ := ends
              · cases delivers
              · cases (List.cons.inj delivers).1
          | cons first tokens =>
              obtain ⟨named, later⟩ := List.cons.inj delivers
              obtain rfl : token = first := Item.token.inj named
              cases finished with
              | false =>
                  have later : rest.flatMap itemsOf = tokens.map .token ++ last := later
                  obtain ⟨maxsize', kept', sublist, reads, whole'⟩ :=
                    ih (q.offer (.token token)) obtained offered tokens reads later
                  refine ⟨maxsize'.trans maxsize, kept', ?_, reads, fun calm => ?_⟩
                  · have more := sublist.trans (taken.append_right tokens)
                    rwa [List.append_assoc] at more
                  · rw [whole' calm.2, whole (roomy calm).1, List.append_assoc]
                    rfl
              | true =>
                  have later : .terminal .done :: rest.flatMap itemsOf =
                      tokens.map .token ++ last := later
                  obtain ⟨maxsize', rfl, kept', sublist, reads, whole'⟩ :=
                    terminal_reads reads later ends
                  refine ⟨maxsize'.trans maxsize, kept', sublist.trans taken, reads, fun calm => ?_⟩
                  rw [whole' (roomy calm).2, whole (roomy calm).1]

theorem engine_delivers {α ρ : Type} [KVAllocator α] {runner : Runner.ModelRunner ρ}
    {scheduler : Scheduler} {allocator : α} {start : ρ} {s : Engine.EngineState α ρ}
    (reachable : (Engine.loop runner scheduler allocator start).Reachable s) (id : SeqId)
    {callbacks : List Callback} (called : callbacks <+: s.callbacks) :
    ∃ (tokens : List Token) (last : List Item),
      itemsFor id callbacks = tokens.map .token ++ last ∧
      (last = [] ∨ ∃ sentinel, last = [.terminal sentinel]) := by
  have delivered := Engine.delivered reachable
  obtain ⟨tokens, last, whole, ends⟩ : ∃ (tokens : List Token) (last : List Item),
      itemsFor id s.callbacks = tokens.map .token ++ last ∧
      (last = [] ∨ ∃ sentinel, last = [.terminal sentinel]) := by
    by_cases here : id ∈ s.ids
    · simp only [Engine.EngineState.ids, List.mem_map, List.mem_append] at here
      obtain ⟨seq, (running | waiting) | ended, rfl⟩ := here
      · exact ⟨seq.generatedTokens, [], by simpa using (delivered.running seq running).1, .inl rfl⟩
      · exact ⟨seq.generatedTokens, [], by simpa using (delivered.waiting seq waiting).1, .inl rfl⟩
      · exact ⟨_, _, delivered.ended seq ended, .inr ⟨_, rfl⟩⟩
    · exact ⟨[], [], delivered.others id here, .inl rfl⟩
  obtain ⟨later, same⟩ := called
  rw [← same, itemsFor_append] at whole
  -- The calls still queued hold the rest of the tokens, or at most the terminal.
  rcases List.append_eq_append_iff.mp whole with ⟨behind, read, -⟩ | ⟨front, read, rest⟩
  · obtain ⟨before, _, rfl, mapped, -⟩ := List.map_eq_append_iff.mp read
    exact ⟨before, [], by rw [mapped, List.append_nil], .inl rfl⟩
  · refine ⟨tokens, front, read, ?_⟩
    obtain rfl | ⟨sentinel, rfl⟩ := ends
    · exact .inl (List.append_eq_nil_iff.mp rest.symm).1
    · obtain ⟨rfl, -⟩ | ⟨rfl, -⟩ := List.append_eq_singleton_iff.mp rest.symm
      · exact .inl rfl
      · exact .inr ⟨sentinel, rfl⟩

/-! ## The stream takes its turns -/

theorem isTerminal_of_token {item : Item} (member : item ∈ kept.map Item.token) :
    isTerminal item = false := by
  obtain ⟨token, -, rfl⟩ := List.mem_map.mp member
  rfl

theorem unended {item : Item} {rest last : List Item} (read : obtained ++ item :: rest = kept.map .token ++ last)
    (ends : last = [] ∨ ∃ sentinel, last = [.terminal sentinel]) : obtained.any isTerminal = false := by
  have before : ∀ item ∈ (kept.map Item.token ++ last).dropLast, item ∈ kept.map Item.token := by
    obtain rfl | ⟨sentinel, rfl⟩ := ends
    · intro item member
      rw [List.append_nil] at member
      exact List.mem_of_mem_dropLast member
    · intro item member
      rwa [List.dropLast_concat] at member
  rw [← read, List.dropLast_append_of_ne_nil (List.cons_ne_nil item rest)] at before
  rw [List.any_eq_false]
  intro other member
  rw [isTerminal_of_token (before other (List.mem_append_left _ member))]
  exact Bool.false_ne_true

theorem streamTurn_cons {item : Item} {rest : List Item} (items : q.items = item :: rest)
    (open' : obtained.any isTerminal = false) :
    (streamTurn q obtained).1.items = rest ∧ (streamTurn q obtained).2 = obtained ++ [item] := by
  have head : q.items.head? = some item := by rw [items, List.head?_cons]
  rw [streamTurn, open', if_neg Bool.false_ne_true, BoundedQueue.getNowait_of_head head]
  simp [items]

theorem streamTurn_nil (items : q.items = []) : streamTurn q obtained = (q, obtained) := by
  rw [streamTurn, BoundedQueue.getNowait_of_nil items]
  split <;> rfl

theorem turns_read {last : List Item} (events : List ChannelEvent) (nothing : events.flatMap itemsOf = [])
    (read : obtained ++ q.items = kept.map .token ++ last)
    (ends : last = [] ∨ ∃ sentinel, last = [.terminal sentinel])
    (enough : q.items.length ≤ events.length) :
    (events.foldl channelStep (q, obtained)).2 = kept.map .token ++ last := by
  induction events generalizing q obtained with
  | nil =>
      have items : q.items = [] := List.length_eq_zero_iff.mp (Nat.le_zero.mp enough)
      rwa [items, List.append_nil] at read
  | cons event rest ih =>
      rw [List.flatMap_cons, List.append_eq_nil_iff] at nothing
      cases event with
      | result token finished => cases nothing.1
      | aborted => cases nothing.1
      | turn =>
          have turned := (streamTurn_kept q obtained).2
          have fewer : (streamTurn q obtained).1.items.length ≤ rest.length := by
            cases items : q.items with
            | nil =>
                rw [streamTurn_nil items, items]
                exact Nat.zero_le _
            | cons item behind =>
                rw [(streamTurn_cons items (unended (items ▸ read) ends)).1]
                rw [items] at enough
                exact Nat.le_of_succ_le_succ enough
          have drained : (rest.foldl channelStep ((streamTurn q obtained).1, (streamTurn q obtained).2)).2 =
              kept.map .token ++ last := ih nothing.2 (turned.trans read) fewer
          exact drained

def turnsOf (id : SeqId) (events : List Event) : Nat := (eventsOf id events).count .turn

theorem turnsOf_eq {id : SeqId} {events : List Event} (nothing : itemsFor id (callbacksOf events) = []) :
    (eventsOf id events).flatMap itemsOf = [] ∧ turnsOf id events = (eventsOf id events).length := by
  have quiet : (eventsOf id events).flatMap itemsOf = [] := (itemsOf_eventsOf id events).trans nothing
  refine ⟨quiet, List.count_eq_length.mpr fun event member => ?_⟩
  have none := List.flatMap_eq_nil_iff.mp quiet event member
  cases event with
  | result token finished => cases none
  | aborted => cases none
  | turn => rfl

/-- Whatever the engine has had called so far brings a new channel some tokens and then at most one
terminal. Its stream reads some of the tokens, in order, and the terminal after them; and all of them
when two slots are free at each delivery. Each of its turns takes the oldest item queued, so once nothing
more is delivered it has read everything, the terminal last, after as many turns as there are items.
Neither the other channels nor the order of their events matter. -/
theorem stream_reads (m : Nat) (positive : 1 ≤ m) (s : EventLoop) (events : List Event)
    (connected : ∀ event ∈ events, event ≠ .disconnect s.nextSeqId) :
    (∀ {α ρ : Type} [KVAllocator α] (runner : Runner.ModelRunner ρ) (scheduler : Scheduler) (allocator : α)
      (start : ρ) (e : Engine.EngineState α ρ),
      (Engine.loop runner scheduler allocator start).Reachable e → callbacksOf events <+: e.callbacks →
      ∃ (tokens : List Token) (last : List Item),
        itemsFor s.nextSeqId (callbacksOf events) = tokens.map .token ++ last ∧
        (last = [] ∨ ∃ sentinel, last = [.terminal sentinel])) ∧
    ∀ (tokens : List Token) (last : List Item),
      itemsFor s.nextSeqId (callbacksOf events) = tokens.map .token ++ last →
      (last = [] ∨ ∃ sentinel, last = [.terminal sentinel]) →
      ∃ t q, run (newOutputChannel m s) events = .ok t ∧ t.channels s.nextSeqId = some q ∧
        q.maxsize = m ∧ q.items.length ≤ m ∧
        (q, t.obtained s.nextSeqId) =
          (eventsOf s.nextSeqId events).foldl channelStep (.empty m, []) ∧
        ∃ kept : List Token, kept.Sublist tokens ∧
          t.obtained s.nextSeqId ++ q.items = kept.map .token ++ last ∧
          (Unhurried (.empty m, []) (eventsOf s.nextSeqId events) → kept = tokens) ∧
          (∀ item rest, q.items = item :: rest →
            (get s.nextSeqId t).obtained s.nextSeqId = t.obtained s.nextSeqId ++ [item] ∧
            ∃ q', (get s.nextSeqId t).channels s.nextSeqId = some q' ∧ q'.items = rest) ∧
          ∀ later : List Event, (∀ event ∈ later, event ≠ .disconnect s.nextSeqId) →
            itemsFor s.nextSeqId (callbacksOf later) = [] →
            q.items.length ≤ turnsOf s.nextSeqId later →
            ∃ t', run t later = .ok t' ∧ t'.obtained s.nextSeqId = kept.map .token ++ last := by
  refine ⟨fun runner scheduler allocator start e reachable called =>
    engine_delivers reachable s.nextSeqId called, fun tokens last delivers ends => ?_⟩
  obtain ⟨t, ran, channel⟩ := channel_run (newOutputChannel m s) events
    (Nat.lt_succ_self s.nextSeqId) connected
  have opened : channelOf s.nextSeqId (newOutputChannel m s) = some (.empty m, []) := by
    simp [channelOf, newOutputChannel]
  rw [opened, Option.map_some] at channel
  obtain ⟨q, found, same⟩ := Option.map_eq_some_iff.mp channel
  obtain ⟨maxsize, kept, sublist, reads, whole⟩ := channel_reads (eventsOf s.nextSeqId events)
    (.empty m) [] [] tokens last rfl ((itemsOf_eventsOf s.nextSeqId events).trans delivers) ends
  rw [← same] at maxsize reads
  have size : q.maxsize = m := maxsize
  have bounded := q.bounded
  refine ⟨t, q, ran, found, size, by omega, same, kept, sublist, reads, whole, ?_, ?_⟩
  · intro item rest items
    obtain ⟨moved, took⟩ := streamTurn_cons items (unended (items ▸ reads) ends)
    simp only [get, found, Function.update_self]
    exact ⟨took, _, rfl, moved⟩
  · intro later kept_open nothing enough
    have both : ∀ event ∈ events ++ later, event ≠ .disconnect s.nextSeqId := fun event member =>
      (List.mem_append.mp member).elim (connected event) (kept_open event)
    obtain ⟨t', ran', channel'⟩ := channel_run (newOutputChannel m s) (events ++ later)
      (Nat.lt_succ_self s.nextSeqId) both
    rw [run, List.foldlM_append, ← run, ran] at ran'
    refine ⟨t', ran', ?_⟩
    have split : eventsOf s.nextSeqId (events ++ later) =
        eventsOf s.nextSeqId events ++ eventsOf s.nextSeqId later := by simp [eventsOf]
    rw [opened, Option.map_some, split, List.foldl_append, ← same] at channel'
    obtain ⟨q', -, same'⟩ := Option.map_eq_some_iff.mp channel'
    obtain ⟨quiet, count⟩ := turnsOf_eq nothing
    have all := turns_read (eventsOf s.nextSeqId later) quiet reads ends (count ▸ enough)
    rwa [← same'] at all

def served : Engine.EngineState BlockAllocator Runner.Caches :=
  Engine.iterationHf [] List.length Engine.sampleScheduler 0
    (Engine.iterationHf [] List.length Engine.sampleScheduler 0
      (Engine.arrived [Engine.sampleRequest 0 1 [] 1, Engine.sampleRequest 1 1 [] 4]
        { allocator := Engine.samplePool 9 1, runner := fun _ => [] }))

theorem served_reachable :
    (Engine.loop (Runner.hfRunner [] List.length) Engine.sampleScheduler (Engine.samplePool 9 1)
      fun _ => []).Reachable served := by
  have first : (Engine.loop (Runner.hfRunner [] List.length) Engine.sampleScheduler (Engine.samplePool 9 1)
      fun _ => []).Reachable (Engine.arrived [Engine.sampleRequest 0 1 [] 1, Engine.sampleRequest 1 1 [] 4] _) :=
    Engine.arrived_reachable _ (.initial rfl) rfl (by decide) (by decide) (by decide)
  obtain ⟨second, idle, serving⟩ := Engine.iterationHf_reachable 0 first rfl rfl
  exact (Engine.iterationHf_reachable 0 second idle serving).1

/-- A client of one slot that is slow: of the engine's two tokens for it one drops, and its terminal does
not. -/
def sampleEvents : List Event :=
  [.callback (.deliverResults [(0, 1, false), (1, 1, false)]), .newOutputChannel 4,
    .callback (.deliverResults [(0, 2, true), (1, 2, false)]), .get 0, .disconnect 1]

def laterEvents : List Event := [.callback (.deliverResults [(1, 3, false)]), .get 0, .newOutputChannel 2]

theorem stream_reads_sample :
    (∃ (tokens : List Token) (last : List Item),
      itemsFor 0 (callbacksOf sampleEvents) = tokens.map .token ++ last ∧
      (last = [] ∨ ∃ sentinel, last = [.terminal sentinel])) ∧
    ∃ t t', run (newOutputChannel 1 {}) sampleEvents = .ok t ∧ run t laterEvents = .ok t' ∧
      ∃ kept : List Token, kept.Sublist [1, 2] ∧ t'.obtained 0 = kept.map .token ++ [.terminal .done] := by
  obtain ⟨engine, reads⟩ := stream_reads 1 (Nat.le_refl 1) {} sampleEvents (by simp [sampleEvents])
  constructor
  · have called : callbacksOf sampleEvents = served.callbacks := by decide +kernel
    exact engine _ _ _ _ served served_reachable (called ▸ List.prefix_refl _)
  · obtain ⟨t, q, ran, -, -, size, -, kept, sublist, -, -, -, finish⟩ :=
      reads [1, 2] [.terminal .done] rfl (.inr ⟨.done, rfl⟩)
    obtain ⟨t', ran', read⟩ := finish laterEvents (by simp [laterEvents]) rfl size
    exact ⟨t, t', ran, ran', kept, sublist, read⟩

end LlmServing.Clients
