import LlmServing.Lib.Utf8
import LlmServing.Scheduling.Sequence
import Mathlib.Data.List.Pairwise
import Mathlib.Logic.Function.Basic

/-!
# Incremental detokenization

`decode_incremental` and `forget` of `tokenizer.py`. The tokenizer is byte-level: it decodes token ids
by decoding the bytes the tokens stand for, a special token's none, as UTF-8.
-/

namespace LlmServing.Server

open Scheduling Lib

abbrev Text := List Char

def incompleteChar : Char := Utf8.replacement

def Incomplete (text : Text) : Prop := text.getLast? = some incompleteChar

instance (text : Text) : Decidable (Incomplete text) := inferInstanceAs (Decidable (_ = _))

structure Tokenizer where
  bytesOf : Token → List UInt8

def Tokenizer.decode (tokenizer : Tokenizer) (tokenIds : List Token) : Text :=
  Utf8.decode (tokenIds.flatMap tokenizer.bytesOf)

/-- `_decode_windows`: the prefix and read offsets of each sequence that has them. -/
abbrev DecodeWindows := SeqId → Option (Nat × Nat)

variable (tokenizer : Tokenizer)

def decodeIncremental (seqId : SeqId) (generatedTokens : List Token) (windows : DecodeWindows) :
    Text × DecodeWindows :=
  let (prefixOffset, readOffset) := (windows seqId).getD (0, 0)
  let prefixText := tokenizer.decode (Sequence.slice generatedTokens prefixOffset readOffset)
  let text := tokenizer.decode (generatedTokens.drop prefixOffset)
  if text.length ≤ prefixText.length ∨ Incomplete text then ([], windows)
  else (text.drop prefixText.length,
    Function.update windows seqId (some (readOffset, generatedTokens.length)))

def forget (seqId : SeqId) (windows : DecodeWindows) : DecodeWindows :=
  Function.update windows seqId none

inductive Call where
  | decodeIncremental (seqId : SeqId) (generatedTokens : List Token)
  | forget (seqId : SeqId)

def Call.seqId : Call → SeqId
  | .decodeIncremental seqId _ => seqId
  | .forget seqId => seqId

/-- What a run of calls returns: the piece of each `decode_incremental`, under its sequence. -/
def runCalls : DecodeWindows → List Call → List (SeqId × Text)
  | _, [] => []
  | windows, .decodeIncremental seqId generatedTokens :: calls =>
      let (piece, windows) := decodeIncremental tokenizer seqId generatedTokens windows
      (seqId, piece) :: runCalls windows calls
  | windows, .forget seqId :: calls => runCalls (forget seqId windows) calls

def ownCalls (seqId : SeqId) (calls : List Call) : List (List Token) :=
  calls.filterMap fun
    | .decodeIncremental other generatedTokens =>
        if other = seqId then some generatedTokens else none
    | .forget _ => none

def pieces (seqId : SeqId) (outputs : List (SeqId × Text)) : List Text :=
  outputs.filterMap fun (other, piece) => if other = seqId then some piece else none

def slide (generatedTokens : List Token) : Nat × Nat → Text × (Nat × Nat)
  | (prefixOffset, readOffset) =>
      let prefixText := tokenizer.decode (Sequence.slice generatedTokens prefixOffset readOffset)
      let text := tokenizer.decode (generatedTokens.drop prefixOffset)
      if text.length ≤ prefixText.length ∨ Incomplete text then ([], (prefixOffset, readOffset))
      else (text.drop prefixText.length, (readOffset, generatedTokens.length))

def slides : Nat × Nat → List (List Token) → List Text
  | _, [] => []
  | window, generatedTokens :: calls =>
      let (piece, window) := slide tokenizer generatedTokens window
      piece :: slides window calls

theorem decodeIncremental_own (seqId : SeqId) (generatedTokens : List Token)
    (windows : DecodeWindows) :
    (decodeIncremental tokenizer seqId generatedTokens windows).1 =
        (slide tokenizer generatedTokens ((windows seqId).getD (0, 0))).1 ∧
      ((decodeIncremental tokenizer seqId generatedTokens windows).2 seqId).getD (0, 0) =
        (slide tokenizer generatedTokens ((windows seqId).getD (0, 0))).2 := by
  simp only [decodeIncremental, slide]
  split
  · exact ⟨rfl, rfl⟩
  · exact ⟨rfl, by simp only [Function.update_self, Option.getD_some]⟩

theorem decodeIncremental_other {seqId other : SeqId} (apart : other ≠ seqId)
    (generatedTokens : List Token) (windows : DecodeWindows) :
    (decodeIncremental tokenizer seqId generatedTokens windows).2 other = windows other := by
  simp only [decodeIncremental]
  split
  · rfl
  · exact Function.update_of_ne apart _ _

theorem pieces_runCalls (seqId : SeqId) {calls : List Call} (kept : .forget seqId ∉ calls)
    (windows : DecodeWindows) :
    pieces seqId (runCalls tokenizer windows calls) =
      slides tokenizer ((windows seqId).getD (0, 0)) (ownCalls seqId calls) := by
  induction calls generalizing windows with
  | nil => rfl
  | cons call calls ih =>
      have rest : .forget seqId ∉ calls := fun member => kept (List.mem_cons_of_mem _ member)
      cases call with
      | decodeIncremental other generatedTokens =>
          by_cases same : other = seqId
          · subst same
            obtain ⟨piece, window⟩ := decodeIncremental_own tokenizer other generatedTokens windows
            simp only [runCalls, pieces, ownCalls, List.filterMap_cons, if_true, slides] at ih ⊢
            rw [ih rest, piece, window]
          · have window := decodeIncremental_other tokenizer (Ne.symm same) generatedTokens windows
            simp only [runCalls, pieces, ownCalls, List.filterMap_cons, if_neg same] at ih ⊢
            rw [ih rest, window]
      | forget other =>
          have apart : seqId ≠ other := fun same => kept (by simp [same])
          simp only [runCalls, pieces, ownCalls, List.filterMap_cons] at ih ⊢
          rw [ih rest, forget, Function.update_of_ne apart]

/-! ## What has been streamed -/

variable {tokenizer}

theorem decode_nil : tokenizer.decode [] = [] := Utf8.decoder_marks.decode_nil

theorem decode_append {first : List Token} (whole : ¬Incomplete (tokenizer.decode first))
    (second : List Token) :
    tokenizer.decode (first ++ second) = tokenizer.decode first ++ tokenizer.decode second := by
  rw [Tokenizer.decode, List.flatMap_append]
  exact Utf8.decoder_marks.decode_append whole _

def Boundary (tokenizer : Tokenizer) (tokens : List Token) : Prop :=
  ∀ more, tokenizer.decode (tokens ++ more) = tokenizer.decode tokens ++ tokenizer.decode more

theorem boundary_nil : Boundary tokenizer [] := fun more => by
  rw [decode_nil, List.nil_append, List.nil_append]

theorem Boundary.append {first second : List Token} (start : Boundary tokenizer first)
    (stop : Boundary tokenizer second) : Boundary tokenizer (first ++ second) := fun more => by
  rw [List.append_assoc, start, stop, start, List.append_assoc]

/-- After a call on `soFar`: both edges of the window are between characters, and what was streamed
is what the tokens before the second decode to. -/
structure Streamed (tokenizer : Tokenizer) (soFar : List Token) (window : Nat × Nat)
    (streamed : Text) : Prop where
  ordered : window.1 ≤ window.2
  inside : window.2 ≤ soFar.length
  boundary : Boundary tokenizer (soFar.take window.1)
  context : Boundary tokenizer (Sequence.slice soFar window.1 window.2)
  text : streamed = tokenizer.decode (soFar.take window.2)
  caughtUp : ¬Incomplete (tokenizer.decode soFar) → streamed = tokenizer.decode soFar

theorem Boundary.of_whole {tokens : List Token} (whole : ¬Incomplete (tokenizer.decode tokens)) :
    Boundary tokenizer tokens := decode_append whole

theorem incomplete_append {first second : Text} (some : second ≠ []) :
    Incomplete (first ++ second) ↔ Incomplete second := by
  rw [Incomplete, List.getLast?_append_of_ne_nil _ some, Incomplete]

theorem not_incomplete_nil : ¬Incomplete [] := by decide

theorem streamed_nil : Streamed tokenizer [] (0, 0) [] where
  ordered := Nat.le_refl 0
  inside := Nat.le_refl 0
  boundary := boundary_nil
  context := boundary_nil
  text := decode_nil.symm
  caughtUp _ := decode_nil.symm

namespace Streamed

variable {soFar generated : List Token} {window : Nat × Nat} {streamed : Text}

theorem longer (before : Streamed tokenizer soFar window streamed) (grown : soFar <+: generated) :
    window.2 ≤ generated.length ∧ Boundary tokenizer (generated.take window.1) ∧
      Boundary tokenizer (Sequence.slice generated window.1 window.2) ∧
      streamed = tokenizer.decode (generated.take window.2) := by
  obtain ⟨more, rfl⟩ := grown
  have early : (soFar ++ more).take window.2 = soFar.take window.2 :=
    List.take_append_of_le_length before.inside
  have earlier : (soFar ++ more).take window.1 = soFar.take window.1 :=
    List.take_append_of_le_length (Nat.le_trans before.ordered before.inside)
  refine ⟨?_, ?_, ?_, ?_⟩
  · exact Nat.le_trans before.inside (List.length_append ▸ Nat.le_add_right _ _)
  · exact earlier ▸ before.boundary
  · rw [Sequence.slice, early]
    exact before.context
  · rw [early]
    exact before.text

/-- One call: the text of the window is what it has shown and then what is new, so the piece is all
that is new, and it is held back only while it ends inside a character. -/
theorem slide (before : Streamed tokenizer soFar window streamed) (grown : soFar <+: generated) :
    Streamed tokenizer generated (slide tokenizer generated window).2
        (streamed ++ (slide tokenizer generated window).1) ∧
      ¬Incomplete (slide tokenizer generated window).1 := by
  obtain ⟨inside, boundary, context, shown⟩ := before.longer grown
  have ordered := before.ordered
  obtain ⟨prefixOffset, readOffset⟩ := window
  dsimp only at inside boundary context shown ordered
  have windowed : generated.drop prefixOffset =
      Sequence.slice generated prefixOffset readOffset ++ generated.drop readOffset := by
    have cut := Sequence.take_append_slice generated prefixOffset readOffset ordered
    have whole := List.take_append_drop readOffset generated
    rw [← cut, List.append_assoc] at whole
    exact List.append_cancel_left ((List.take_append_drop prefixOffset generated).trans whole.symm)
  have text : tokenizer.decode (generated.drop prefixOffset) =
      tokenizer.decode (Sequence.slice generated prefixOffset readOffset) ++
        tokenizer.decode (generated.drop readOffset) := by rw [windowed, context]
  have read : Boundary tokenizer (generated.take readOffset) :=
    Sequence.take_append_slice generated prefixOffset readOffset ordered ▸ boundary.append context
  have all : tokenizer.decode generated =
      streamed ++ tokenizer.decode (generated.drop readOffset) := by
    rw [shown, ← read, List.take_append_drop]
  unfold Server.slide
  dsimp only
  by_cases nothing : tokenizer.decode (generated.drop readOffset) = []
  · have short : (tokenizer.decode (generated.drop prefixOffset)).length ≤
        (tokenizer.decode (Sequence.slice generated prefixOffset readOffset)).length :=
      Nat.le_of_eq (by rw [text, nothing, List.append_nil])
    rw [if_pos (Or.inl short), List.append_nil]
    refine ⟨⟨ordered, inside, boundary, context, shown, fun _ => ?_⟩, not_incomplete_nil⟩
    rw [all, nothing, List.append_nil]
  · have more : ¬(tokenizer.decode (generated.drop prefixOffset)).length ≤
        (tokenizer.decode (Sequence.slice generated prefixOffset readOffset)).length := by
      have size := List.length_pos_iff.mpr nothing
      rw [text, List.length_append]
      omega
    by_cases held : Incomplete (tokenizer.decode (generated.drop prefixOffset))
    · rw [if_pos (Or.inr held), List.append_nil]
      refine ⟨⟨ordered, inside, boundary, context, shown, fun whole => ?_⟩, not_incomplete_nil⟩
      rw [text, incomplete_append nothing] at held
      exact absurd (all ▸ (incomplete_append nothing).mpr held) whole
    · rw [if_neg (not_or_intro more held), text, List.drop_left]
      rw [text, incomplete_append nothing] at held
      refine ⟨⟨inside, Nat.le_refl _, read, ?_, ?_, fun _ => all.symm⟩, held⟩
      · rw [Sequence.slice, List.take_length]
        exact .of_whole held
      · rw [List.take_length, all]

end Streamed

theorem streamed_slides {calls : List (List Token)} {soFar : List Token} {window : Nat × Nat}
    {streamed : Text} (before : Streamed tokenizer soFar window streamed)
    (grown : (soFar :: calls).Pairwise (· <+: ·)) :
    (∃ last, Streamed tokenizer (calls.getLast?.getD soFar) last
        (streamed ++ (slides tokenizer window calls).flatten)) ∧
      ∀ piece ∈ slides tokenizer window calls, ¬Incomplete piece := by
  induction calls generalizing soFar window streamed with
  | nil => exact ⟨⟨window, by simpa [slides] using before⟩, by simp [slides]⟩
  | cons generated calls ih =>
      obtain ⟨first, rest⟩ := List.pairwise_cons.mp grown
      obtain ⟨here, whole⟩ := before.slide (first generated List.mem_cons_self)
      obtain ⟨⟨last, after⟩, later⟩ := ih here rest
      refine ⟨⟨last, ?_⟩, fun piece member => ?_⟩
      · rw [List.getLast?_cons, Option.getD_some, slides, List.flatten_cons, ← List.append_assoc]
        exact after
      · rw [slides] at member
        rcases List.mem_cons.mp member with rfl | member
        · exact whole
        · exact later piece member

def GrowingPrefixes (tokens : List Token) (calls : List (List Token)) : Prop :=
  (∀ generated ∈ calls, generated <+: tokens) ∧ calls.Pairwise (·.length ≤ ·.length)

theorem GrowingPrefixes.pairwise {tokens : List Token} {calls : List (List Token)}
    (growing : GrowingPrefixes tokens calls) : ([] :: calls).Pairwise (· <+: ·) := by
  refine List.pairwise_cons.mpr ⟨fun _ _ => List.nil_prefix, ?_⟩
  exact growing.2.imp_of_mem fun first second shorter =>
    List.prefix_of_prefix_length_le (growing.1 _ first) (growing.1 _ second) shorter

theorem decode_incremental_streams (tokenizer : Tokenizer) (seqId : SeqId) (tokens : List Token)
    (windows : DecodeWindows) (fresh : windows seqId = none) (calls : List Call)
    (kept : .forget seqId ∉ calls) (growing : GrowingPrefixes tokens (ownCalls seqId calls)) :
    let streamed := (pieces seqId (runCalls tokenizer windows calls)).flatten
    let soFar := (ownCalls seqId calls).getLast?.getD []
    streamed <+: tokenizer.decode soFar ∧
    (¬Incomplete (tokenizer.decode soFar) → streamed = tokenizer.decode soFar) ∧
    (∀ piece ∈ pieces seqId (runCalls tokenizer windows calls), ¬Incomplete piece) ∧
    ∀ otherWindows otherCalls, otherWindows seqId = none → .forget seqId ∉ otherCalls →
      ownCalls seqId otherCalls = ownCalls seqId calls →
      pieces seqId (runCalls tokenizer otherWindows otherCalls) =
        pieces seqId (runCalls tokenizer windows calls) := by
  intro streamed soFar
  have own := pieces_runCalls tokenizer seqId kept windows
  rw [fresh] at own
  obtain ⟨⟨last, after⟩, whole⟩ := streamed_slides streamed_nil growing.pairwise
  rw [List.nil_append] at after
  refine ⟨?_, ?_, ?_, ?_⟩
  · have read : Boundary tokenizer (soFar.take last.2) := by
      rw [← Sequence.take_append_slice soFar last.1 last.2 after.ordered]
      exact after.boundary.append after.context
    have split := read (soFar.drop last.2)
    rw [List.take_append_drop, ← after.text] at split
    show (pieces seqId (runCalls tokenizer windows calls)).flatten <+: _
    rw [own, split]
    exact List.prefix_append _ _
  · intro complete
    show (pieces seqId (runCalls tokenizer windows calls)).flatten = _
    rw [own]
    exact after.caughtUp complete
  · rw [own]
    exact whole
  · intro otherWindows otherCalls otherFresh otherKept same
    rw [own, pieces_runCalls tokenizer seqId otherKept, otherFresh, same]

def byteTokenizer : Tokenizer := ⟨fun token => [UInt8.ofNat token]⟩

def llamaBytes : List Token := [0x61, 0xF0, 0x9F, 0xA6, 0x99]

def sampleCalls : List Call :=
  [.decodeIncremental 1 [0x61], .decodeIncremental 2 [0xF0],
    .decodeIncremental 1 [0x61, 0xF0, 0x9F], .forget 2, .decodeIncremental 1 llamaBytes]

example : pieces 1 (runCalls byteTokenizer (fun _ => none) sampleCalls) = [['a'], [], ['🦙']] := by
  decide

theorem decode_incremental_streams_sample :
    let streamed := (pieces 1 (runCalls byteTokenizer (fun _ => none) sampleCalls)).flatten
    let soFar := (ownCalls 1 sampleCalls).getLast?.getD []
    streamed <+: byteTokenizer.decode soFar ∧
    (¬Incomplete (byteTokenizer.decode soFar) → streamed = byteTokenizer.decode soFar) ∧
    (∀ piece ∈ pieces 1 (runCalls byteTokenizer (fun _ => none) sampleCalls),
      ¬Incomplete piece) ∧
    ∀ otherWindows otherCalls, otherWindows 1 = none → .forget 1 ∉ otherCalls →
      ownCalls 1 otherCalls = ownCalls 1 sampleCalls →
      pieces 1 (runCalls byteTokenizer otherWindows otherCalls) =
        pieces 1 (runCalls byteTokenizer (fun _ => none) sampleCalls) :=
  decode_incremental_streams byteTokenizer 1 llamaBytes (fun _ => none) rfl sampleCalls
    (by simp [sampleCalls]) ⟨by decide, by decide⟩

end LlmServing.Server
