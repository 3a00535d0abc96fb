import LlmServing.Lib.Lines
import LlmServing.Server.Stream

/-!
# The load generator's reading of a stream

`_parse_sse_line` and the loop of `send_request` in `loadgen/client.py`.
-/

namespace LlmServing.LoadGen

open Scheduling Lib Server

def isSpace (c : Char) : Bool :=
  (0x09 ≤ c.toNat && c.toNat ≤ 0x0D) || (0x1C ≤ c.toNat && c.toNat ≤ 0x20) || c.toNat == 0x85 ||
    c.toNat == 0xA0 || c.toNat == 0x1680 || (0x2000 ≤ c.toNat && c.toNat ≤ 0x200A) ||
    c.toNat == 0x2028 || c.toNat == 0x2029 || c.toNat == 0x202F || c.toNat == 0x205F ||
    c.toNat == 0x3000

def strip (text : Text) : Text :=
  (text.reverse.dropWhile isSpace).reverse.dropWhile isSpace

def doneMarker : Text := ['[', 'D', 'O', 'N', 'E', ']']

def parseSseLine (codec : JsonCodec) (line : Text) : Except String (Option Json.Object) :=
  if ¬dataField <+: line then pure none
  else
    let payload := strip (line.drop dataField.length)
    if payload = [] ∨ payload = doneMarker then pure none
    else
      match codec.loads payload with
      | some event => pure (some event)
      | none => throw "JSONDecodeError"

def str : Json.Value → Text
  | .text chars => chars
  | .number value => Json.writeNumber value
  | .bool true => ['T', 'r', 'u', 'e']
  | .bool false => ['F', 'a', 'l', 's', 'e']

def truthy : Json.Value → Bool
  | .text chars => !chars.isEmpty
  | .number value => value != 0
  | .bool value => value

structure Result where
  success : Bool := true
  error : Option Text := none
  numTokensReceived : Nat := 0
  tokenTimes : List Time := []
  promptTokens : Option Json.Value := none
  outputTokens : Option Json.Value := none

/-- `httpx.HTTPError`, also that of a status that is no success. -/
structure HttpError where
  typeName : Text
  message : Text

/-- The lines a response gives, each with the time it came, and the error that cuts them short. -/
structure Response where
  lines : List (Text × Time)
  failure : Option HttpError

inductive Handled where
  | returned (result : Result)
  | awaiting (result : Result)

def handle (result : Result) (event : Json.Object) (time : Time) : Handled :=
  match event.get "error" with
  | some error => .returned { result with success := false, error := some (str error) }
  | none =>
      let result :=
        if (event.get "token").isSome then
          { result with
            tokenTimes := result.tokenTimes ++ [time]
            numTokensReceived := result.numTokensReceived + 1 }
        else result
      if (event.get "done").any truthy then
        .returned { result with
          promptTokens := event.get "prompt_tokens"
          outputTokens := event.get "output_tokens" }
      else .awaiting result

def receive (codec : JsonCodec) (failure : Option HttpError) :
    Result → List (Text × Time) → Except String Result
  | result, [] =>
      match failure with
      | none => pure result
      | some error => pure { result with
          success := false
          error := some (error.typeName ++ ':' :: ' ' :: error.message) }
  | result, (line, time) :: lines => do
      match ← parseSseLine codec line with
      | none => receive codec failure result lines
      | some event =>
          match handle result event time with
          | .returned result => pure result
          | .awaiting result => receive codec failure result lines

def sendRequest (codec : JsonCodec) (response : Response) : Except String Result :=
  receive codec response.failure {} response.lines

def seen (codec : JsonCodec) (line : Text) : List (Except String Json.Object) :=
  match parseSseLine codec line with
  | .ok none => []
  | .ok (some event) => [.ok event]
  | .error error => [.error error]

theorem strip_append_spaces {ending : Text} (spaces : ∀ c ∈ ending, isSpace c = true) (text : Text) :
    strip (text ++ ending) = strip text := by
  have dropped : (text ++ ending).reverse.dropWhile isSpace = text.reverse.dropWhile isSpace := by
    rw [List.reverse_append]
    exact List.dropWhile_append_of_pos fun c member => spaces c (List.mem_reverse.mp member)
  rw [strip, dropped, strip]

theorem dataField_prefix_append {line ending : Text} (spaces : ∀ c ∈ ending, isSpace c = true) :
    dataField <+: line ++ ending ↔ dataField <+: line := by
  constructor
  · intro starts
    rcases List.prefix_or_prefix_of_prefix starts (List.prefix_append line ending) with whole | part
    · exact whole
    · obtain ⟨more, split⟩ := part
      rw [← split, List.prefix_append_right_inj] at starts
      cases more with
      | nil => exact ⟨[], by rw [List.append_nil, ← split, List.append_nil]⟩
      | cons c more =>
          have field : c ∈ dataField := by simp [← split]
          have space := spaces c (starts.subset List.mem_cons_self)
          have none : dataField.all (!isSpace ·) = true := by decide
          have mute := List.all_eq_true.mp none c field
          rw [space] at mute
          cases mute
  · intro starts
    exact starts.trans (List.prefix_append line ending)

theorem seen_append_spaces (codec : JsonCodec) (line : Text) {ending : Text}
    (spaces : ∀ c ∈ ending, isSpace c = true) : seen codec (line ++ ending) = seen codec line := by
  have same : parseSseLine codec (line ++ ending) = parseSseLine codec line := by
    by_cases starts : dataField <+: line
    · have payload : strip ((line ++ ending).drop dataField.length) =
          strip (line.drop dataField.length) := by
        rw [List.drop_append_of_le_length starts.length_le, strip_append_spaces spaces]
      simp only [parseSseLine, dataField_prefix_append spaces, payload]
    · simp only [parseSseLine, dataField_prefix_append spaces, starts, not_false_eq_true, if_true]
  rw [seen, seen, same]

theorem seen_nil (codec : JsonCodec) : seen codec [] = [] := rfl

theorem strip_braced (inner : Text) :
    strip (' ' :: '{' :: (inner ++ ['}'])) = '{' :: (inner ++ ['}']) := by
  have kept : (' ' :: '{' :: (inner ++ ['}'])).reverse.dropWhile isSpace =
      (' ' :: '{' :: (inner ++ ['}'])).reverse := by
    rw [← List.cons_append, ← List.cons_append, List.reverse_append]
    exact List.dropWhile_cons_of_neg (by decide)
  rw [strip, kept, List.reverse_reverse]
  rfl

theorem seen_sseLine (codec : JsonCodec) (event : Json.Object) :
    seen codec (sseLine codec event) = [.ok event] := by
  obtain ⟨inner, braced⟩ := codec.braced event
  have payload : strip ((sseLine codec event).drop dataField.length) = codec.dumps event := by
    rw [sseLine, List.drop_left, braced, strip_braced]
  have object : ¬(codec.dumps event = [] ∨ codec.dumps event = doneMarker) := by
    rw [braced]
    rintro (none | marker)
    · exact List.cons_ne_nil _ _ none
    · exact absurd (List.cons.inj marker).1 (by decide)
  have starts : dataField <+: sseLine codec event := List.prefix_append _ _
  rw [seen, parseSseLine, if_neg (not_not_intro starts), payload]
  dsimp only
  rw [if_neg object, codec.loads_dumps]
  rfl

theorem flatMap_seen (codec : JsonCodec) (events : List Json.Object) {isBreak : Char → Bool}
    (newline : isBreak '\n' = true) (printable : ∀ c, Json.Printable c → isBreak c = false)
    {lines : List Text}
    (reads : Reads isBreak (Utf8.decode (responseBytes (events.map (formatSse codec)))) lines) :
    lines.flatMap (seen codec) = events.map .ok := by
  have blocks : Utf8.decode (responseBytes (events.map (formatSse codec))) =
      (events.map (sseLine codec)).flatMap (· ++ ['\n', '\n']) := by
    rw [decode_responseBytes, List.flatMap_map, ← List.flatMap_def]
    rfl
  have ascii : ∀ event, ∀ c ∈ sseLine codec event, Json.Printable c := by
    intro event c member
    rcases List.mem_append.mp member with field | member
    · exact Json.forall_printable (by decide) c field
    · rcases List.mem_cons.mp member with rfl | member
      · decide
      · exact codec.printable event c member
  have plain : ∀ block ∈ events.map (sseLine codec), ∀ c ∈ block, isBreak c = false := by
    intro block member c inside
    obtain ⟨event, -, rfl⟩ := List.mem_map.mp member
    exact printable c (ascii event c inside)
  have spaces : ∀ c ∈ (events.map (sseLine codec)).flatMap (· ++ ['\n', '\n']),
      isBreak c = true → isSpace c = true := by
    intro c member breaks
    obtain ⟨block, inside, member⟩ := List.mem_flatMap.mp member
    rcases List.mem_append.mp member with member | member
    · exact absurd breaks (by rw [plain block inside c member]; decide)
    · have all : ['\n', '\n'].all isSpace = true := by decide
      exact List.all_eq_true.mp all c member
  have ends : ∀ c ∈ ['\n', '\n'], isBreak c = true := by simpa using newline
  rw [blocks] at reads
  rw [reads.flatMap_eq (seen_nil codec) spaces fun line _ => seen_append_spaces codec line,
    Reads.flatMap_splitOnP_blocks (seen_nil codec) plain ends (by decide), List.flatMap_map]
  simp only [seen_sseLine]
  exact List.map_eq_flatMap.symm

section

variable (codec : JsonCodec) (failure : Option HttpError)

theorem receive_next {event : Json.Object} {events : List (Except String Json.Object)}
    {lines : List (Text × Time)}
    (next : (lines.flatMap fun line => seen codec line.1) = .ok event :: events) (result : Result) :
    ∃ time rest, (rest.flatMap fun line => seen codec line.1) = events ∧
      receive codec failure result lines =
        match handle result event time with
        | .returned result => pure result
        | .awaiting result => receive codec failure result rest := by
  induction lines with
  | nil => simp at next
  | cons line lines ih =>
      obtain ⟨line, time⟩ := line
      rw [List.flatMap_cons, seen] at next
      rw [receive]
      cases parsed : parseSseLine codec line with
      | error error => simp [parsed] at next
      | ok found =>
          cases found with
          | none =>
              rw [parsed, List.nil_append] at next
              obtain ⟨later, rest, after, same⟩ := ih next
              exact ⟨later, rest, after, same⟩
          | some found =>
              rw [parsed, List.singleton_append] at next
              obtain ⟨same, after⟩ := List.cons.inj next
              obtain rfl := Except.ok.inj same
              exact ⟨time, lines, after, rfl⟩

theorem receive_tokens {texts : List Text} {events : List (Except String Json.Object)}
    {lines : List (Text × Time)}
    (next : (lines.flatMap fun line => seen codec line.1) =
      texts.map (fun text => .ok (tokenEvent text)) ++ events) (result : Result) :
    ∃ times rest, times.length = texts.length ∧
      (rest.flatMap fun line => seen codec line.1) = events ∧
      receive codec failure result lines = receive codec failure
        { result with
          numTokensReceived := result.numTokensReceived + texts.length
          tokenTimes := result.tokenTimes ++ times } rest := by
  induction texts generalizing lines result with
  | nil => exact ⟨[], lines, rfl, next, by simp⟩
  | cons text texts ih =>
      obtain ⟨time, rest, after, first⟩ := receive_next codec failure next result
      obtain ⟨times, last, count, final, later⟩ := ih after
        { result with
          numTokensReceived := result.numTokensReceived + 1
          tokenTimes := result.tokenTimes ++ [time] }
      refine ⟨time :: times, last, congrArg (· + 1) count, final, first.trans (later.trans ?_)⟩
      rw [List.append_assoc, List.singleton_append, Nat.add_assoc, Nat.add_comm 1]
      rfl

end

theorem stream_round_trip (codec : JsonCodec) (decodeIncremental : List Token → Text)
    (promptLen : Nat) (tokens : List Token) (terminal : Terminal) (later : List Item)
    (isBreak : Char → Bool) (newline : isBreak '\n' = true)
    (printable : ∀ c, Json.Printable c → isBreak c = false) (lines : List (Text × Time))
    (failure : Option HttpError)
    (reads : Reads isBreak
      (Utf8.decode (responseBytes (stream codec decodeIncremental promptLen []
        (tokens.map .token ++ .terminal terminal :: later)))) (lines.map (·.1))) :
    (lines.flatMap fun line => seen codec line.1) =
        ((tokenTexts decodeIncremental [] tokens).map tokenEvent ++
          [terminalEvent promptLen tokens.length terminal]).map .ok ∧
    ∃ result, sendRequest codec ⟨lines, failure⟩ = .ok result ∧
      result.numTokensReceived = tokens.length ∧ result.tokenTimes.length = tokens.length ∧
      (result.success = true ∧ result.outputTokens = some (.number tokens.length) ∧
        result.promptTokens = some (.number promptLen) ↔ terminal = .done) ∧
      (result.success = false ↔ terminal = .aborted) := by
  rw [stream_eq] at reads
  have events := flatMap_seen codec _ newline printable reads
  rw [List.flatMap_map, sentEvents] at events
  refine ⟨events, ?_⟩
  rw [List.map_append, List.map_map] at events
  obtain ⟨times, rest, count, last, tokens_⟩ := receive_tokens codec failure events {}
  obtain ⟨time, after, -, terminal_⟩ := receive_next codec failure last
    { numTokensReceived := 0 + (tokenTexts decodeIncremental [] tokens).length
      tokenTimes := [] ++ times }
  have received := tokens_.trans terminal_
  rw [length_tokenTexts] at received count
  cases terminal with
  | done =>
      refine ⟨_, received, Nat.zero_add _, count, ?_, ?_⟩
      · exact iff_of_true ⟨rfl, rfl, rfl⟩ rfl
      · exact iff_of_false Bool.noConfusion Terminal.noConfusion
  | aborted =>
      refine ⟨_, received, Nat.zero_add _, count, ?_, ?_⟩
      · exact iff_of_false (fun all => Bool.noConfusion all.1) Terminal.noConfusion
      · exact iff_of_true rfl rfl

/-- A reader that also ends lines at carriage returns and at U+2028. -/
def lineBreak (c : Char) : Bool := c == '\n' || c == '\r' || c == '\u2028'

theorem lineBreak_printable (c : Char) (printable : Json.Printable c) : lineBreak c = false := by
  by_contra breaks
  simp only [lineBreak, Bool.not_eq_false, Bool.or_eq_true, beq_iff_eq] at breaks
  rcases breaks with (rfl | rfl) | rfl
  · exact absurd printable (by decide)
  · exact absurd printable (by decide)
  · exact absurd printable (by decide)

def sampleTexts (generated : List Token) : Text :=
  match generated.length with
  | 1 => ['d', 'a', 't', 'a', ':', ' ', '"', '\n', '\n']
  | 2 => doneMarker ++ ['\u2028', '🦙']
  | _ => []

def sampleLines : List (Text × Time) :=
  ((Utf8.decode (responseBytes (stream jsonCodec sampleTexts 5 []
    ([7, 8, 9].map .token ++ [.terminal .done])))).splitOnP lineBreak).map fun line => (line, 0)

theorem stream_round_trip_sample :
    (sampleLines.flatMap fun line => seen jsonCodec line.1) =
        ((tokenTexts sampleTexts [] [7, 8, 9]).map tokenEvent ++
          [terminalEvent 5 3 .done]).map .ok ∧
    ∃ result, sendRequest jsonCodec ⟨sampleLines, none⟩ = .ok result ∧
      result.numTokensReceived = 3 ∧ result.tokenTimes.length = 3 ∧
      (result.success = true ∧ result.outputTokens = some (.number 3) ∧
        result.promptTokens = some (.number 5) ↔ Terminal.done = .done) ∧
      (result.success = false ↔ Terminal.done = .aborted) :=
  stream_round_trip jsonCodec sampleTexts 5 [7, 8, 9] .done [] lineBreak (by decide)
    lineBreak_printable sampleLines none (by
      rw [sampleLines, List.map_map]
      exact (List.map_id _).symm ▸ Reads.splitOnP lineBreak _)

end LlmServing.LoadGen
