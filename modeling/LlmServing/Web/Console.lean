import LlmServing.Lib.Incremental
import LlmServing.LoadGen.Client

/-!
# The browser console

The read loop of `send` in `web/index.html`: a response read in whatever chunks the network makes of it.
Its strings are lists of characters, and all clock readings of one chunk are one.
-/

namespace LlmServing.Web

open Scheduling Lib Server LoadGen

/-- A `TextDecoder` drops a byte-order mark that comes first. -/
def dropMark : Bool → Text → Bool × Text
  | true, text => (true, text)
  | false, [] => (false, [])
  | false, c :: text => (true, if c = '\uFEFF' then text else c :: text)

def markReader : Incremental Bool Char Char where
  start := false
  read := dropMark
  idle := rfl
  read_append begun first second := by
    cases begun with
    | true => rfl
    | false =>
        cases first with
        | nil => rfl
        | cons c text =>
            simp only [List.cons_append, dropMark]
            split <;> rfl

/-- `decoder.decode(value, { stream: true })`, then `buffer.split("\n\n")` and its `pop`. -/
def eventReader : Incremental ((Utf8.State × Bool) × Text) UInt8 Text :=
  (Incremental.doubled '\n').comp (markReader.comp (.ofTransducer Utf8.decoder))

/-- What `setStatus` shows, an error without the `error: ` before it. A parse error's message is the
browser's own, here its type. -/
inductive Status where
  | streaming
  | done (firstTokenMs : Option Time) (totalMs : Time)
  | error (message : Text)
  | stopped

structure Console where
  output : Text := []
  status : Status := .streaming
  firstTokenMs : Option Time := none

def jsString : Json.Value → Text
  | .text chars => chars
  | .number value => Json.writeNumber value
  | .bool true => ['t', 'r', 'u', 'e']
  | .bool false => ['f', 'a', 'l', 's', 'e']

def dataPrefix : Text := dataField ++ [' ']

/-- The loop's body for one event. An exception leaves what has been shown. -/
def handleEvent (codec : JsonCodec) (start now : Time) (shown : Console) (event : Text) :
    Except Console Console :=
  match (event.splitOn '\n').find? (dataPrefix.isPrefixOf ·) with
  | none => pure shown
  | some line =>
      match codec.loads (line.drop dataPrefix.length) with
      | none => throw { shown with status := .error "SyntaxError".toList }
      | some payload =>
          if (payload.get "done").any truthy then
            pure { shown with status := .done shown.firstTokenMs (now - start) }
          else
            match payload.get "error" with
            | some error => pure { shown with status := .error (jsString error) }
            | none =>
                match payload.get "token" with
                | some token => pure { shown with
                    firstTokenMs := some (shown.firstTokenMs.getD (now - start))
                    output := shown.output ++ jsString token }
                | none => pure shown

/-- How a response ends: read to its end, by the stop button, or by a failure of the network. -/
inductive Ending where
  | closed
  | aborted
  | failed (message : Text)

def Console.finish (shown : Console) : Ending → Console
  | .closed => shown
  | .aborted => { shown with status := .stopped }
  | .failed message => { shown with status := .error message }

def receive (codec : JsonCodec) (start : Time) :
    (Utf8.State × Bool) × Text → Console → List (List UInt8 × Time) → Ending → Console
  | _, shown, [], ending => shown.finish ending
  | state, shown, (value, now) :: chunks, ending =>
      let (next, events) := eventReader.read state value
      match events.foldlM (handleEvent codec start now) shown with
      | .ok shown => receive codec start next shown chunks ending
      | .error shown => shown

theorem receive_cons (codec : JsonCodec) (start : Time) (state : (Utf8.State × Bool) × Text)
    (shown : Console) (value : List UInt8) (now : Time) (chunks : List (List UInt8 × Time))
    (ending : Ending) :
    receive codec start state shown ((value, now) :: chunks) ending =
      match (eventReader.read state value).2.foldlM (handleEvent codec start now) shown with
      | .ok shown => receive codec start (eventReader.read state value).1 shown chunks ending
      | .error shown => shown := rfl

theorem sseLine_printable (codec : JsonCodec) (event : Json.Object) :
    ∀ c ∈ sseLine codec event, Json.Printable c := by
  intro c member
  rcases List.mem_append.mp member with field | member
  · exact Json.forall_printable (by decide) c field
  · rcases List.mem_cons.mp member with rfl | member
    · decide
    · exact codec.printable event c member

theorem newline_not_mem_sseLine (codec : JsonCodec) (event : Json.Object) : '\n' ∉ sseLine codec event :=
  fun member => absurd (sseLine_printable codec event _ member) (by decide)

theorem run_encode (text : Text) :
    Utf8.decoder.run .ground (Utf8.encode text) = (.ground, text) := by
  induction text with
  | nil => rfl
  | cons c text ih =>
      rw [Utf8.encode] at ih ⊢
      rw [List.flatMap_cons, Transducer.run_append, Utf8.run_utf8EncodeChar]
      simp only [ih, List.singleton_append]

theorem responseBytes_eq (chunks : List Text) : responseBytes chunks = Utf8.encode chunks.flatten := by
  induction chunks with
  | nil => rfl
  | cons chunk chunks ih =>
      rw [responseBytes, Utf8.encode] at ih ⊢
      rw [List.flatMap_cons, ih, List.flatten_cons, List.flatMap_append]
      rfl

theorem read_encode {text : Text} (unmarked : (dropMark false text).2 = text) :
    (eventReader.read eventReader.start (Utf8.encode text)).2 = (Incremental.cutDouble '\n' text).1 := by
  show (Incremental.cutDouble '\n' ([] ++ (dropMark false (Utf8.decoder.run .ground _).2).2)).1 = _
  rw [run_encode, List.nil_append, unmarked]

theorem flatten_formatSse (codec : JsonCodec) (events : List Json.Object) :
    (events.map (formatSse codec)).flatten = (events.map (sseLine codec)).flatMap (· ++ ['\n', '\n']) := by
  rw [List.flatMap_map, ← List.flatMap_def]
  rfl

theorem lines_plain (codec : JsonCodec) (events : List Json.Object) :
    ∀ line ∈ events.map (sseLine codec), '\n' ∉ line := by
  intro line member
  obtain ⟨event, -, rfl⟩ := List.mem_map.mp member
  exact newline_not_mem_sseLine codec event

theorem read_events (codec : JsonCodec) (events : List Json.Object) :
    (eventReader.read eventReader.start (responseBytes (events.map (formatSse codec)))).2 =
      events.map (sseLine codec) := by
  have unmarked : (dropMark false (events.map (formatSse codec)).flatten).2 =
      (events.map (formatSse codec)).flatten := by
    cases events with
    | nil => rfl
    | cons event events => rfl
  rw [responseBytes_eq, read_encode unmarked, flatten_formatSse,
    Incremental.cutDouble_pieces _ (lines_plain codec events)]

theorem read_open (codec : JsonCodec) (events : List Json.Object) (last : Json.Object) :
    ∃ bytes, responseBytes ((events ++ [last]).map (formatSse codec)) = bytes ++ [10] ∧
      (eventReader.read eventReader.start bytes).2 = events.map (sseLine codec) := by
  let text := (events.map (formatSse codec)).flatten ++ (sseLine codec last ++ ['\n'])
  have unmarked : (dropMark false text).2 = text := by
    cases events with
    | nil => rfl
    | cons event events => rfl
  refine ⟨Utf8.encode text, ?_, ?_⟩
  · have all : ((events ++ [last]).map (formatSse codec)).flatten = text ++ ['\n'] := by
      rw [List.map_append, List.flatten_append, List.append_assoc, List.append_assoc]
      simp [formatSse]
    rw [responseBytes_eq, all, Utf8.encode, List.flatMap_append]
    rfl
  · rw [read_encode unmarked]
    show (Incremental.cutDouble '\n' ((events.map (formatSse codec)).flatten ++ _)).1 = _
    rw [flatten_formatSse, Incremental.cutDouble_open _ (lines_plain codec events)
      (newline_not_mem_sseLine codec last)]

theorem responseBytes_mono (codec : JsonCodec) {events events' : List Json.Object}
    (front : events <+: events') :
    responseBytes (events.map (formatSse codec)) <+: responseBytes (events'.map (formatSse codec)) := by
  obtain ⟨rest, rfl⟩ := front
  exact ⟨responseBytes (rest.map (formatSse codec)), by simp [responseBytes]⟩

theorem read_prefix (codec : JsonCodec) (events : List Json.Object) {received : List UInt8}
    (sent : received <+: responseBytes (events.map (formatSse codec))) :
    ∃ k ≤ events.length, (eventReader.read eventReader.start received).2 =
        (events.take k).map (sseLine codec) ∧
      (∀ j ≤ events.length,
        responseBytes ((events.take j).map (formatSse codec)) <+: received ↔ j ≤ k) ∧
      (received = responseBytes (events.map (formatSse codec)) → k = events.length) := by
  have whole := read_events codec events
  have front := eventReader.read_mono eventReader.start sent
  rw [whole] at front
  have taken := List.prefix_iff_eq_take.mp front
  generalize held : (eventReader.read eventReader.start received).2.length = k at taken
  have within : k ≤ events.length := by simpa [held] using front.length_le
  have came : responseBytes ((events.take k).map (formatSse codec)) <+: received := by
    cases k with
    | zero => exact List.nil_prefix
    | succ n =>
        have more : events.take (n + 1) = events.take n ++ [events[n]] := by
          rw [List.take_add_one, List.getElem?_eq_getElem within]
          rfl
        obtain ⟨bytes, last, read⟩ := read_open codec (events.take n) events[n]
        rw [more]
        rcases List.prefix_or_prefix_of_prefix
          (more ▸ responseBytes_mono codec (List.take_prefix (n + 1) events)) sent with here | short
        · exact here
        · rw [last, List.prefix_concat_iff] at short
          rcases short with all | less
          · rw [last, all]
          · -- the read of `bytes` has one event less
            have fewer := (eventReader.read_mono eventReader.start less).length_le
            rw [held, read, List.length_map, List.length_take] at fewer
            omega
  refine ⟨k, within, by rw [List.map_take, ← taken], fun j inside => ⟨fun here => ?_, fun le => ?_⟩, ?_⟩
  · have fewer := (eventReader.read_mono eventReader.start here).length_le
    rwa [read_events, List.length_map, List.length_take, Nat.min_eq_left inside, held] at fewer
  · exact (responseBytes_mono codec (List.take_prefix_take_left le)).trans came
  · rintro rfl
    rw [whole, List.length_map] at held
    exact held.symm

/-! ## What is shown -/

def showEvent (start now : Time) (shown : Console) (payload : Json.Object) : Console :=
  if (payload.get "done").any truthy then
    { shown with status := .done shown.firstTokenMs (now - start) }
  else
    match payload.get "error" with
    | some error => { shown with status := .error (jsString error) }
    | none =>
        match payload.get "token" with
        | some token => { shown with
            firstTokenMs := some (shown.firstTokenMs.getD (now - start))
            output := shown.output ++ jsString token }
        | none => shown

theorem handleEvent_sseLine (codec : JsonCodec) (start now : Time) (shown : Console) (event : Json.Object) :
    handleEvent codec start now shown (sseLine codec event) = .ok (showEvent start now shown event) := by
  have line : (sseLine codec event).splitOn '\n' = [sseLine codec event] :=
    List.splitOn_eq_singleton (newline_not_mem_sseLine codec event)
  have field : dataPrefix.isPrefixOf (sseLine codec event) = true := by
    refine List.isPrefixOf_iff_prefix.mpr ⟨codec.dumps event, ?_⟩
    rfl
  have payload : (sseLine codec event).drop dataPrefix.length = codec.dumps event := rfl
  unfold handleEvent showEvent
  rw [line, List.find?_cons_of_pos field]
  simp only [payload, codec.loads_dumps]
  split
  · rfl
  · split
    · rfl
    · split <;> rfl

def Ended (first : Option Time) : Terminal → Status → Prop
  | .done, status => ∃ total, status = .done first total
  | .aborted, status => status = .error "request aborted by the engine".toList

structure Shows (texts : List Text) (promptLen : Nat) (terminal : Terminal) (count : Nat)
    (shown : Console) : Prop where
  output : shown.output = (texts.take count).flatten
  first : shown.firstTokenMs.isSome ↔ texts.take count ≠ []
  streaming : count ≤ texts.length → shown.status = .streaming
  ended : texts.length < count → Ended shown.firstTokenMs terminal shown.status

section

variable {codec : JsonCodec} {texts : List Text} {promptLen count : Nat}
  {terminal : Terminal} {shown : Console}

def responseEvents (texts : List Text) (promptLen : Nat) (terminal : Terminal) : List Json.Object :=
  texts.map tokenEvent ++ [terminalEvent promptLen texts.length terminal]

theorem Shows.next (start now : Time) (shows : Shows texts promptLen terminal count shown) {event : Json.Object}
    (here : (responseEvents texts promptLen terminal)[count]? = some event) :
    Shows texts promptLen terminal (count + 1) (showEvent start now shown event) := by
  obtain ⟨output, first, streaming, ended⟩ := shows
  rcases Nat.lt_or_ge count texts.length with inside | last
  · have token : event = tokenEvent texts[count] := by
      rw [responseEvents, List.getElem?_append_left (by simpa using inside), List.getElem?_map,
        List.getElem?_eq_getElem inside] at here
      exact (Option.some.inj here).symm
    subst token
    have more : texts.take (count + 1) = texts.take count ++ [texts[count]] := by
      rw [List.take_add_one, List.getElem?_eq_getElem inside]
      rfl
    refine ⟨?_, ?_, fun _ => streaming inside.le, fun beyond => absurd beyond (by omega)⟩
    · show shown.output ++ texts[count] = _
      rw [more, List.flatten_append, output]
      simp
    · rw [more]
      exact ⟨fun _ => List.append_ne_nil_of_right_ne_nil _ (List.cons_ne_nil _ _), fun _ => rfl⟩
  · have same : count = texts.length := by
      have bound := (List.getElem?_eq_some_iff.mp here).1
      rw [responseEvents, List.length_append, List.length_map, List.length_singleton] at bound
      omega
    subst same
    have event' : event = terminalEvent promptLen texts.length terminal := by
      rw [responseEvents, List.getElem?_append_right (by simp)] at here
      simpa using here.symm
    subst event'
    have kept : (showEvent start now shown (terminalEvent promptLen texts.length terminal)).output =
          shown.output ∧ (showEvent start now shown
            (terminalEvent promptLen texts.length terminal)).firstTokenMs = shown.firstTokenMs := by
      cases terminal <;> exact ⟨rfl, rfl⟩
    have all : texts.take (texts.length + 1) = texts.take texts.length := by
      rw [List.take_length, List.take_of_length_le (Nat.le_succ _)]
    refine ⟨?_, ?_, fun inside => absurd inside (by omega), fun _ => ?_⟩
    · rw [kept.1, all, output]
    · rw [kept.2, all, first]
    · rw [kept.2]
      cases terminal with
      | done => exact ⟨_, rfl⟩
      | aborted => rfl

theorem Shows.chunk (codec : JsonCodec) (start now : Time) (shows : Shows texts promptLen terminal count shown)
    {events : List Json.Object}
    (here : events <+: (responseEvents texts promptLen terminal).drop count) :
    ∃ after, (events.map (sseLine codec)).foldlM (handleEvent codec start now) shown = .ok after ∧
      Shows texts promptLen terminal (count + events.length) after := by
  induction events generalizing count shown with
  | nil => exact ⟨shown, rfl, shows⟩
  | cons event events ih =>
      obtain ⟨rest, split⟩ := here
      have head : (responseEvents texts promptLen terminal)[count]? = some event := by
        rw [← List.head?_drop, ← split]
        rfl
      have tail : events <+: (responseEvents texts promptLen terminal).drop (count + 1) :=
        ⟨rest, by rw [← List.tail_drop, ← split]; rfl⟩
      obtain ⟨after, handled, shows'⟩ := ih (shows.next start now head) tail
      refine ⟨after, ?_, ?_⟩
      · rw [List.map_cons, List.foldlM_cons, handleEvent_sseLine]
        exact handled
      · rwa [List.length_cons, Nat.add_comm events.length, ← Nat.add_assoc]

theorem Shows.receive (codec : JsonCodec) (start : Time) (ending : Ending)
    (state : (Utf8.State × Bool) × Text) (chunks : List (List UInt8 × Time))
    (shows : Shows texts promptLen terminal count shown) {events : List Json.Object}
    (read : (eventReader.readAll state (chunks.map (·.1))).2.flatten = events.map (sseLine codec))
    (here : events <+: (responseEvents texts promptLen terminal).drop count) :
    ∃ after, receive codec start state shown chunks ending = after.finish ending ∧
      Shows texts promptLen terminal (count + events.length) after := by
  induction chunks generalizing state count shown events with
  | nil =>
      have none : events = [] := List.map_eq_nil_iff.mp read.symm
      subst none
      exact ⟨shown, rfl, shows⟩
  | cons chunk chunks ih =>
      obtain ⟨value, now⟩ := chunk
      rw [List.map_cons, Incremental.readAll_cons, List.flatten_cons] at read
      obtain ⟨first, rest, rfl, own, behind⟩ := List.map_eq_append_iff.mp read.symm
      have front : first <+: (responseEvents texts promptLen terminal).drop count :=
        (List.prefix_append first rest).trans here
      have back : rest <+: (responseEvents texts promptLen terminal).drop (count + first.length) := by
        obtain ⟨more, split⟩ := here
        refine ⟨more, ?_⟩
        rw [← List.drop_drop, ← split, List.append_assoc, List.drop_left]
      obtain ⟨middle, handled, shows'⟩ := shows.chunk codec start now front
      obtain ⟨after, received, shows''⟩ := ih _ shows' behind.symm back
      refine ⟨after, ?_, ?_⟩
      · rw [own] at handled
        rw [receive_cons, handled]
        exact received
      · rwa [List.length_append, ← Nat.add_assoc]

end

/-- However the network cuts the response up, and wherever it stops: the console shows the events that have
come whole and no others, and after the last byte how the request ended. -/
theorem console_shows (codec : JsonCodec) (decodeIncremental : List Token → Text) (promptLen : Nat)
    (tokens : List Token) (terminal : Terminal) (later : List Item) (start : Time)
    (chunks : List (List UInt8 × Time)) (ending : Ending)
    (sent : (chunks.map (·.1)).flatten <+: responseBytes
      (stream codec decodeIncremental promptLen [] (tokens.map .token ++ .terminal terminal :: later))) :
    ∃ count shown, receive codec start eventReader.start {} chunks ending = Console.finish shown ending ∧
      Shows (tokenTexts decodeIncremental [] tokens) promptLen terminal count shown ∧
      (∀ j ≤ tokens.length + 1, responseBytes ((stream codec decodeIncremental promptLen []
          (tokens.map .token ++ .terminal terminal :: later)).take j) <+: (chunks.map (·.1)).flatten ↔
        j ≤ count) ∧
      ((chunks.map (·.1)).flatten = responseBytes (stream codec decodeIncremental promptLen []
          (tokens.map .token ++ .terminal terminal :: later)) →
        shown.output = (tokenTexts decodeIncremental [] tokens).flatten ∧
          Ended shown.firstTokenMs terminal shown.status) := by
  have length := length_tokenTexts decodeIncremental [] tokens
  have same : sentEvents decodeIncremental promptLen tokens terminal =
      responseEvents (tokenTexts decodeIncremental [] tokens) promptLen terminal := by
    rw [sentEvents, responseEvents, length]
  have total : (responseEvents (tokenTexts decodeIncremental [] tokens) promptLen terminal).length =
      tokens.length + 1 := by
    rw [responseEvents, List.length_append, List.length_map, length]
    rfl
  rw [stream_eq, same] at sent ⊢
  obtain ⟨count, inside, read, arrived, whole⟩ := read_prefix codec _ sent
  rw [total] at inside arrived whole
  obtain ⟨-, all⟩ := eventReader.readAll_eq (chunks.map (·.1))
  have none : Shows (tokenTexts decodeIncremental [] tokens) promptLen terminal 0 {} :=
    ⟨rfl, by simp, fun _ => rfl, fun beyond => absurd beyond (Nat.not_lt_zero _)⟩
  obtain ⟨shown, received, shows⟩ := none.receive codec start ending eventReader.start chunks
    (all.trans read) (List.take_prefix _ _)
  rw [Nat.zero_add, List.length_take, total, Nat.min_eq_left inside] at shows
  refine ⟨count, shown, received, shows, fun j within => ?_, fun complete => ?_⟩
  · rw [← List.map_take]
    exact arrived j within
  · have last := whole complete
    subst last
    refine ⟨?_, shows.ended (by omega)⟩
    rw [shows.output, List.take_of_length_le (by omega)]

def sampleBytes : List UInt8 :=
  responseBytes (stream jsonCodec sampleTexts 3 [] [.token 7, .token 8, .terminal .done])

theorem console_shows_sample : ∃ shown : Console,
    receive jsonCodec 0 eventReader.start {} [(sampleBytes.take 10, 1), (sampleBytes.drop 10, 2)] .closed =
      shown ∧ shown.output = (tokenTexts sampleTexts [] [7, 8]).flatten := by
  have whole : ([(sampleBytes.take 10, (1 : Time)), (sampleBytes.drop 10, 2)].map (·.1)).flatten =
      sampleBytes := by
    rw [List.map_cons, List.map_cons, List.map_nil, List.flatten_cons, List.flatten_singleton,
      List.take_append_drop]
  obtain ⟨count, shown, received, -, -, complete⟩ := console_shows jsonCodec sampleTexts 3 [7, 8] .done []
    0 [(sampleBytes.take 10, 1), (sampleBytes.drop 10, 2)] .closed (whole ▸ List.prefix_refl _)
  exact ⟨shown, received, (complete whole).1⟩

end LlmServing.Web
