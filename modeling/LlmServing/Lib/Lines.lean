import Mathlib.Data.List.TakeWhile

/-!
# Reading a text by lines

A reader ends lines at characters of its own choice, may take several of them for one end, may keep
ends or drop them, and may drop blank lines. A function of lines that sees nothing in a blank one and
does not look at ends sees the same whichever reader it is given.
-/

namespace LlmServing.Lib

inductive Reads (isBreak : Char → Bool) : List Char → List (List Char) → Prop
  | done : Reads isBreak [] []
  | line {line ending shown rest : List Char} {lines : List (List Char)}
      (plain : ∀ c ∈ line, isBreak c = false) (ends : ∀ c ∈ ending, isBreak c = true)
      (ended : ending ≠ [] ∨ rest = []) (kept : shown = line ∨ shown = line ++ ending)
      (after : Reads isBreak rest lines) : Reads isBreak (line ++ (ending ++ rest)) (shown :: lines)
  | blank {ending rest : List Char} {lines : List (List Char)}
      (ends : ∀ c ∈ ending, isBreak c = true) (after : Reads isBreak rest lines) :
      Reads isBreak (ending ++ rest) lines

namespace Reads

variable {isBreak : Char → Bool}

theorem splitOnP (isBreak : Char → Bool) (text : List Char) :
    Reads isBreak text (text.splitOnP isBreak) := by
  have cut : (text.takeWhile fun c => !isBreak c) ++ (text.dropWhile fun c => !isBreak c) = text :=
    List.takeWhile_append_dropWhile
  have plain : ∀ c ∈ text.takeWhile fun c => !isBreak c, isBreak c = false := fun c member => by
    simpa using List.mem_takeWhile_imp member
  cases rest : text.dropWhile fun c => !isBreak c with
  | nil =>
      rw [rest, List.append_nil] at cut
      rw [cut] at plain
      have whole := line plain (List.forall_mem_nil _) (Or.inr rfl) (Or.inl rfl)
        (done : Reads isBreak [] [])
      rwa [List.append_nil, List.append_nil, ← List.splitOnP_eq_singleton plain] at whole
  | cons c more =>
      have stop : isBreak c = true := by
        have head := List.head?_dropWhile_not (fun c => !isBreak c) text
        simpa [rest] using head
      rw [rest] at cut
      have shorter : more.length < text.length := by
        rw [← cut, List.length_append, List.length_cons]
        omega
      have ends : ∀ other ∈ [c], isBreak other = true := by simpa using stop
      have whole := line plain ends (Or.inl (List.cons_ne_nil c [])) (Or.inl rfl)
        (splitOnP isBreak more)
      rwa [List.singleton_append, ← List.splitOnP_append_cons_of_forall_mem plain c stop, cut] at whole
termination_by text.length

variable {β : Type} {see : List Char → List β} (blank : see [] = [])

include blank

theorem flatMap_splitOnP_breaks {ending : List Char} (ends : ∀ c ∈ ending, isBreak c = true)
    (rest : List Char) :
    ((ending ++ rest).splitOnP isBreak).flatMap see = (rest.splitOnP isBreak).flatMap see := by
  induction ending with
  | nil => rfl
  | cons c ending ih =>
      have split : ([] ++ c :: (ending ++ rest)).splitOnP isBreak =
          [] :: (ending ++ rest).splitOnP isBreak :=
        List.splitOnP_append_cons_of_forall_mem (by simp) c (ends c List.mem_cons_self) _
      rw [List.nil_append] at split
      rw [List.cons_append, split, List.flatMap_cons, blank, List.nil_append,
        ih fun other member => ends other (List.mem_cons_of_mem _ member)]

theorem flatMap_splitOnP_line {line ending rest : List Char} (plain : ∀ c ∈ line, isBreak c = false)
    (ends : ∀ c ∈ ending, isBreak c = true) (ended : ending ≠ [] ∨ rest = []) :
    ((line ++ (ending ++ rest)).splitOnP isBreak).flatMap see =
      see line ++ (rest.splitOnP isBreak).flatMap see := by
  cases ending with
  | nil =>
      rcases ended with some | rfl
      · exact absurd rfl some
      · rw [List.append_nil, List.append_nil, List.splitOnP_eq_singleton plain]
        simp [blank]
  | cons c ending =>
      rw [List.cons_append, List.splitOnP_append_cons_of_forall_mem plain c
        (ends c List.mem_cons_self), List.flatMap_cons, flatMap_splitOnP_breaks blank
        fun other member => ends other (List.mem_cons_of_mem _ member)]

theorem flatMap_eq {space : Char → Prop} {text : List Char} {lines : List (List Char)}
    (reads : Reads isBreak text lines) (spaces : ∀ c ∈ text, isBreak c = true → space c)
    (same : ∀ line ending, (∀ c ∈ ending, space c) → see (line ++ ending) = see line) :
    lines.flatMap see = (text.splitOnP isBreak).flatMap see := by
  induction reads with
  | done => simp [blank]
  | @line line ending shown rest lines plain ends ended kept after ih =>
      have seen : see shown = see line := by
        rcases kept with rfl | rfl
        · rfl
        · exact same line ending fun c member => spaces c (by simp [member]) (ends c member)
      rw [List.flatMap_cons, seen, flatMap_splitOnP_line blank plain ends ended,
        ih fun c member => spaces c (by simp [member])]
  | blank ends after ih =>
      rw [flatMap_splitOnP_breaks blank ends, ih fun c member => spaces c (by simp [member])]

theorem flatMap_splitOnP_blocks {blocks : List (List Char)} {ending : List Char}
    (plain : ∀ block ∈ blocks, ∀ c ∈ block, isBreak c = false)
    (ends : ∀ c ∈ ending, isBreak c = true) (some : ending ≠ []) :
    ((blocks.flatMap (· ++ ending)).splitOnP isBreak).flatMap see = blocks.flatMap see := by
  induction blocks with
  | nil => simp [blank]
  | cons block blocks ih =>
      rw [List.flatMap_cons, List.append_assoc,
        flatMap_splitOnP_line blank (plain block List.mem_cons_self) ends (Or.inl some),
        ih fun other member => plain other (List.mem_cons_of_mem _ member), List.flatMap_cons]

end Reads

end LlmServing.Lib
