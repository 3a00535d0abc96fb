import LlmServing.Lib.Json
import LlmServing.Scheduling.Dispatch
import LlmServing.Server.Tokenizer

/-!
# The events a request streams

`_format_sse` and `stream` of `server.py`, and what of `json` they rely on: an object is written in
printable ASCII between braces, and reading it gives it back.
-/

namespace LlmServing.Server

open Scheduling Lib

structure JsonCodec where
  dumps : Json.Object → Text
  loads : Text → Option Json.Object
  loads_dumps (object : Json.Object) : loads (dumps object) = some object
  printable (object : Json.Object) : ∀ c ∈ dumps object, Json.Printable c
  braced (object : Json.Object) : ∃ inner, dumps object = '{' :: (inner ++ ['}'])

def jsonCodec : JsonCodec where
  dumps := Json.dumps
  loads := Json.loads
  loads_dumps := Json.loads_dumps
  printable := Json.dumps_printable
  braced object := ⟨Json.writeFields object, rfl⟩

def dataField : Text := ['d', 'a', 't', 'a', ':']

def sseLine (codec : JsonCodec) (data : Json.Object) : Text := dataField ++ ' ' :: codec.dumps data

def formatSse (codec : JsonCodec) (data : Json.Object) : Text := sseLine codec data ++ ['\n', '\n']

def tokenEvent (text : Text) : Json.Object := [("token", .text text)]

def doneEvent (promptLen outputTokens : Nat) : Json.Object :=
  [("done", .bool true), ("prompt_tokens", .number promptLen),
    ("output_tokens", .number outputTokens)]

def abortedEvent : Json.Object := [("error", .text "request aborted by the engine".toList)]

def terminalEvent (promptLen outputTokens : Nat) : Terminal → Json.Object
  | .done => doneEvent promptLen outputTokens
  | .aborted => abortedEvent

/-- The loop of `stream` over the items of its queue. `generated` grows with every call of
`decode_incremental`, so whatever the calls return is a function of it. -/
def stream (codec : JsonCodec) (decodeIncremental : List Token → Text) (promptLen : Nat) :
    List Token → List Item → List Text
  | _, [] => []
  | generated, .terminal terminal :: _ =>
      [formatSse codec (terminalEvent promptLen generated.length terminal)]
  | generated, .token token :: items =>
      let generated := generated ++ [token]
      formatSse codec (tokenEvent (decodeIncremental generated)) ::
        stream codec decodeIncremental promptLen generated items

def tokenTexts (decodeIncremental : List Token → Text) : List Token → List Token → List Text
  | _, [] => []
  | generated, token :: tokens =>
      decodeIncremental (generated ++ [token]) ::
        tokenTexts decodeIncremental (generated ++ [token]) tokens

def sentEvents (decodeIncremental : List Token → Text) (promptLen : Nat) (tokens : List Token)
    (terminal : Terminal) : List Json.Object :=
  (tokenTexts decodeIncremental [] tokens).map tokenEvent ++
    [terminalEvent promptLen tokens.length terminal]

def responseBytes (chunks : List Text) : List UInt8 := chunks.flatMap Utf8.encode

theorem length_tokenTexts (decodeIncremental : List Token → Text) (generated tokens : List Token) :
    (tokenTexts decodeIncremental generated tokens).length = tokens.length := by
  induction tokens generalizing generated with
  | nil => rfl
  | cons token tokens ih => exact congrArg (· + 1) (ih (generated ++ [token]))

theorem exists_tokenTexts (texts : List Text) :
    ∃ decodeIncremental tokens, tokenTexts decodeIncremental [] tokens = texts := by
  have grown (front texts : List Text) :
      tokenTexts (fun generated => (front ++ texts).getD (generated.length - 1) [])
        (List.replicate front.length 0) (List.replicate texts.length 0) = texts := by
    induction texts generalizing front with
    | nil => rfl
    | cons text texts ih =>
        have here : (front ++ text :: texts).getD
            ((List.replicate front.length 0 ++ [0] : List Token).length - 1) [] = text := by simp
        have rest := ih (front ++ [text])
        rw [List.length_append, List.length_singleton, List.replicate_succ', List.append_assoc] at rest
        rw [List.length_cons, List.replicate_succ]
        exact congrArg₂ List.cons here rest
  exact ⟨_, _, grown [] texts⟩

theorem stream_eq (codec : JsonCodec) (decodeIncremental : List Token → Text) (promptLen : Nat)
    (tokens : List Token) (terminal : Terminal) (later : List Item) :
    stream codec decodeIncremental promptLen [] (tokens.map .token ++ .terminal terminal :: later) =
      (sentEvents decodeIncremental promptLen tokens terminal).map (formatSse codec) := by
  have grown (generated : List Token) :
      stream codec decodeIncremental promptLen generated
          (tokens.map .token ++ .terminal terminal :: later) =
        ((tokenTexts decodeIncremental generated tokens).map tokenEvent ++
          [terminalEvent promptLen (generated.length + tokens.length) terminal]).map
            (formatSse codec) := by
    induction tokens generalizing generated with
    | nil => rfl
    | cons token tokens ih =>
        have count : generated.length + (token :: tokens).length =
            (generated ++ [token]).length + tokens.length := by
          simp only [List.length_append, List.length_cons, List.length_nil]
          omega
        rw [count]
        exact congrArg _ (ih (generated ++ [token]))
  rw [grown [], sentEvents, List.length_nil, Nat.zero_add]

theorem decode_responseBytes (chunks : List Text) :
    Utf8.decode (responseBytes chunks) = chunks.flatten := by
  have joined : responseBytes chunks = Utf8.encode chunks.flatten := by
    induction chunks with
    | nil => rfl
    | cons chunk chunks ih =>
        rw [responseBytes, Utf8.encode] at ih ⊢
        rw [List.flatMap_cons, ih, List.flatten_cons, List.flatMap_append]
        rfl
  rw [joined, Utf8.decode_encode]

end LlmServing.Server
