import LlmServing.Lib.Transducer
import Mathlib.Data.List.Induction

/-!
# Reading in chunks

A reader that is handed its input a chunk at a time and keeps in its state what it cannot put out yet. One
that reads a joined chunk as it reads the two in a row puts out the same for every way to cut the input.
-/

namespace LlmServing.Lib

structure Incremental (σ α β : Type) where
  start : σ
  read : σ → List α → σ × List β
  idle : read start [] = (start, [])
  read_append (state : σ) (first second : List α) :
    read state (first ++ second) =
      ((read (read state first).1 second).1, (read state first).2 ++ (read (read state first).1 second).2)

namespace Incremental

variable {σ τ α β γ : Type}

def readAll (reader : Incremental σ α β) : σ → List (List α) → σ × List (List β)
  | state, [] => (state, [])
  | state, chunk :: chunks =>
      let (next, output) := reader.read state chunk
      let (last, outputs) := reader.readAll next chunks
      (last, output :: outputs)

theorem readAll_cons (reader : Incremental σ α β) (state : σ) (chunk : List α) (chunks : List (List α)) :
    reader.readAll state (chunk :: chunks) =
      ((reader.readAll (reader.read state chunk).1 chunks).1,
        (reader.read state chunk).2 :: (reader.readAll (reader.read state chunk).1 chunks).2) := rfl

theorem readAll_append (reader : Incremental σ α β) (state : σ) (first second : List (List α)) :
    reader.readAll state (first ++ second) =
      ((reader.readAll (reader.readAll state first).1 second).1,
        (reader.readAll state first).2 ++ (reader.readAll (reader.readAll state first).1 second).2) := by
  induction first generalizing state with
  | nil => rfl
  | cons chunk first ih => simp only [List.cons_append, readAll, ih]

theorem readAll_eq (reader : Incremental σ α β) (chunks : List (List α)) :
    (reader.readAll reader.start chunks).1 = (reader.read reader.start chunks.flatten).1 ∧
      (reader.readAll reader.start chunks).2.flatten = (reader.read reader.start chunks.flatten).2 := by
  induction chunks using List.reverseRecOn with
  | nil =>
      rw [List.flatten_nil, reader.idle]
      exact ⟨rfl, rfl⟩
  | append_singleton front chunk ih =>
      obtain ⟨state, output⟩ := ih
      rw [readAll_append, List.flatten_append, List.flatten_singleton, reader.read_append, state,
        List.flatten_append, output]
      exact ⟨rfl, congrArg (_ ++ ·) (List.append_nil _)⟩

theorem read_mono (reader : Incremental σ α β) (state : σ) {first whole : List α}
    (front : first <+: whole) : (reader.read state first).2 <+: (reader.read state whole).2 := by
  obtain ⟨rest, rfl⟩ := front
  rw [reader.read_append]
  exact List.prefix_append _ _

def comp (second : Incremental τ β γ) (first : Incremental σ α β) : Incremental (σ × τ) α γ where
  start := (first.start, second.start)
  read := fun (state, behind) chunk =>
    let (next, middle) := first.read state chunk
    let (after, output) := second.read behind middle
    ((next, after), output)
  idle := by simp only [first.idle, second.idle]
  read_append := fun (state, behind) x y => by simp only [first.read_append, second.read_append]

def ofTransducer (machine : Transducer σ α β) : Incremental σ α β where
  start := machine.start
  read := machine.run
  idle := rfl
  read_append := machine.run_append

/-! ## Cutting at a separator that is doubled -/

section

variable [DecidableEq α] (sep : α)

/-- The pieces that two `sep` in a row end, leftmost first, and what is left. -/
def cutDouble : List α → List (List α) × List α
  | a :: b :: rest =>
      if a = sep ∧ b = sep then
        let (pieces, left) := cutDouble rest
        ([] :: pieces, left)
      else
        match cutDouble (b :: rest) with
        | ([], left) => ([], a :: left)
        | (piece :: pieces, left) => ((a :: piece) :: pieces, left)
  | [a] => ([], [a])
  | [] => ([], [])

theorem cutDouble_left {text : List α} (none : (cutDouble sep text).1 = []) :
    (cutDouble sep text).2 = text := by
  fun_induction cutDouble sep text with
  | case1 a b rest double pieces left cut ih => cases none
  | case2 a b rest single left cut ih =>
      have same := ih (by rw [cut])
      rw [cut] at same
      exact congrArg (a :: ·) same
  | case3 a b rest single piece pieces left cut ih => cases none
  | case4 a => rfl
  | case5 => rfl

theorem cutDouble_append (first second : List α) :
    cutDouble sep (first ++ second) =
      ((cutDouble sep first).1 ++ (cutDouble sep ((cutDouble sep first).2 ++ second)).1,
        (cutDouble sep ((cutDouble sep first).2 ++ second)).2) := by
  fun_induction cutDouble sep first with
  | case1 a b rest double pieces left cut ih =>
      rw [cut] at ih
      rw [List.cons_append, List.cons_append, cutDouble, if_pos double, ih]
      rfl
  | case2 a b rest single left cut ih =>
      have same := cutDouble_left sep (show (cutDouble sep (b :: rest)).1 = [] by rw [cut])
      rw [cut] at same
      rw [show left = b :: rest from same]
      rfl
  | case3 a b rest single piece pieces left cut ih =>
      rw [cut] at ih
      rw [List.cons_append, List.cons_append, cutDouble, if_neg single, ← List.cons_append, ih]
      rfl
  | case4 a => rfl
  | case5 => rfl

def doubled : Incremental (List α) α (List α) where
  start := []
  read buffer chunk := ((cutDouble sep (buffer ++ chunk)).2, (cutDouble sep (buffer ++ chunk)).1)
  idle := rfl
  read_append buffer first second := by
    rw [← List.append_assoc, cutDouble_append]

theorem cutDouble_piece {piece : List α} (plain : sep ∉ piece) (rest : List α) :
    cutDouble sep (piece ++ sep :: sep :: rest) =
      (piece :: (cutDouble sep rest).1, (cutDouble sep rest).2) := by
  induction piece with
  | nil => rw [List.nil_append, cutDouble, if_pos ⟨rfl, rfl⟩]
  | cons a piece ih =>
      obtain ⟨other, plain⟩ := not_or.mp (List.mem_cons.not.mp plain)
      have later := ih plain
      cases piece with
      | nil =>
          rw [List.nil_append] at later
          rw [List.singleton_append, cutDouble, if_neg fun double => other double.1.symm, later]
      | cons b piece =>
          rw [List.cons_append] at later
          rw [List.cons_append, List.cons_append, cutDouble, if_neg fun double => other double.1.symm, later]

/-- Pieces without `sep`, each ended by two of them. -/
theorem cutDouble_pieces {pieces : List (List α)} (plain : ∀ piece ∈ pieces, sep ∉ piece) :
    cutDouble sep (pieces.flatMap (· ++ [sep, sep])) = (pieces, []) := by
  induction pieces with
  | nil => rfl
  | cons piece pieces ih =>
      obtain ⟨here, others⟩ := List.forall_mem_cons.mp plain
      rw [List.flatMap_cons, List.append_assoc]
      show cutDouble sep (piece ++ sep :: sep :: pieces.flatMap (· ++ [sep, sep])) = _
      rw [cutDouble_piece sep here, ih others]

theorem cutDouble_single {piece : List α} (plain : sep ∉ piece) :
    cutDouble sep (piece ++ [sep]) = ([], piece ++ [sep]) := by
  induction piece with
  | nil => rfl
  | cons a piece ih =>
      obtain ⟨other, plain⟩ := not_or.mp (List.mem_cons.not.mp plain)
      have later := ih plain
      cases piece with
      | nil => rw [List.singleton_append, cutDouble, if_neg fun double => other double.1.symm, cutDouble]
      | cons b piece =>
          rw [List.cons_append] at later
          rw [List.cons_append, List.cons_append, cutDouble, if_neg fun double => other double.1.symm, later]

theorem cutDouble_open {pieces : List (List α)} (plain : ∀ piece ∈ pieces, sep ∉ piece)
    {last : List α} (plainLast : sep ∉ last) :
    cutDouble sep (pieces.flatMap (· ++ [sep, sep]) ++ (last ++ [sep])) = (pieces, last ++ [sep]) := by
  rw [cutDouble_append, cutDouble_pieces sep plain, List.nil_append, cutDouble_single sep plainLast,
    List.append_nil]

end

end Incremental

end LlmServing.Lib
