import Mathlib.Data.Nat.Digits.Lemmas

/-!
# JSON objects of texts, numbers and booleans

Written in printable ASCII, every other character escaped, those past U+FFFF as surrogate pairs, and
read back. The characters of a text are scalar values, so a surrogate of its own is not read.
-/

namespace LlmServing.Lib.Json

inductive Value where
  | text (chars : List Char)
  | number (value : Nat)
  | bool (value : Bool)
  deriving DecidableEq

/-- Of two fields of one key the later one holds. -/
abbrev Object := List (String × Value)

def Object.get (object : Object) (key : String) : Option Value :=
  (object.reverse.find? (·.1 = key)).map (·.2)

def Printable (c : Char) : Prop := ' ' ≤ c ∧ c ≤ '~'

instance (c : Char) : Decidable (Printable c) := inferInstanceAs (Decidable (_ ∧ _))

theorem forall_printable {chars : List Char} (all : chars.all (Printable ·) = true) :
    ∀ c ∈ chars, Printable c := fun c member =>
  of_decide_eq_true (List.all_eq_true.mp all c member)

/-! ## Texts -/

def hexDigit (digit : Nat) : Char := Char.ofNat (if digit < 10 then 0x30 + digit else 0x57 + digit)

def hexValue (c : Char) : Option Nat :=
  if '0' ≤ c ∧ c ≤ '9' then some (c.toNat - 0x30)
  else if 'a' ≤ c ∧ c ≤ 'f' then some (c.toNat - 0x57)
  else if 'A' ≤ c ∧ c ≤ 'F' then some (c.toNat - 0x37)
  else none

def escapeUnit (unit : Nat) : List Char :=
  ['\\', 'u', hexDigit (unit / 0x1000), hexDigit (unit / 0x100 % 0x10),
    hexDigit (unit / 0x10 % 0x10), hexDigit (unit % 0x10)]

def escape (c : Char) : List Char :=
  if c = '"' then ['\\', '"']
  else if c = '\\' then ['\\', '\\']
  else if c = '\n' then ['\\', 'n']
  else if c = '\r' then ['\\', 'r']
  else if c = '\t' then ['\\', 't']
  else if c = '\x0c' then ['\\', 'f']
  else if c = '\x08' then ['\\', 'b']
  else if Printable c then [c]
  else if c.toNat < 0x10000 then escapeUnit c.toNat
  else escapeUnit (0xD800 + (c.toNat - 0x10000) / 0x400) ++
    escapeUnit (0xDC00 + (c.toNat - 0x10000) % 0x400)

def readUnit : List Char → Option (Nat × List Char)
  | '\\' :: 'u' :: a :: b :: c :: d :: rest => do
      let a ← hexValue a
      let b ← hexValue b
      let c ← hexValue c
      let d ← hexValue d
      some (((a * 0x10 + b) * 0x10 + c) * 0x10 + d, rest)
  | _ => none

def pairValue (high low : Nat) : Nat := 0x10000 + (high - 0xD800) * 0x400 + (low - 0xDC00)

def readUnits (text : List Char) : Option (Char × List Char) := do
  let (high, rest) ← readUnit text
  if 0xD800 ≤ high ∧ high < 0xDC00 then do
    let (low, rest) ← readUnit rest
    if 0xDC00 ≤ low ∧ low < 0xE000 then
      some (Char.ofNat (pairValue high low), rest)
    else none
  else if 0xDC00 ≤ high ∧ high < 0xE000 then none
  else some (Char.ofNat high, rest)

def readChar : List Char → Option (Char × List Char)
  | [] => none
  | '\\' :: '"' :: rest => some ('"', rest)
  | '\\' :: '\\' :: rest => some ('\\', rest)
  | '\\' :: '/' :: rest => some ('/', rest)
  | '\\' :: 'n' :: rest => some ('\n', rest)
  | '\\' :: 'r' :: rest => some ('\r', rest)
  | '\\' :: 't' :: rest => some ('\t', rest)
  | '\\' :: 'f' :: rest => some ('\x0c', rest)
  | '\\' :: 'b' :: rest => some ('\x08', rest)
  | '\\' :: rest => readUnits ('\\' :: rest)
  | c :: rest => if c < ' ' then none else some (c, rest)

def readText : Nat → List Char → Option (List Char × List Char)
  | 0, _ => none
  | _ + 1, '"' :: rest => some ([], rest)
  | fuel + 1, text => do
      let (c, rest) ← readChar text
      let (chars, rest) ← readText fuel rest
      some (c :: chars, rest)

def writeText (chars : List Char) : List Char := '"' :: (chars.flatMap escape ++ ['"'])

theorem hexValue_hexDigit {digit : Nat} (small : digit < 0x10) :
    hexValue (hexDigit digit) = some digit := by
  revert digit
  decide

theorem readUnit_escapeUnit {unit : Nat} (small : unit < 0x10000) (rest : List Char) :
    readUnit (escapeUnit unit ++ rest) = some (unit, rest) := by
  have value : ((unit / 0x1000 * 0x10 + unit / 0x100 % 0x10) * 0x10 + unit / 0x10 % 0x10) * 0x10 +
      unit % 0x10 = unit := by omega
  simp only [escapeUnit, List.cons_append, List.nil_append, readUnit]
  rw [hexValue_hexDigit (by omega), hexValue_hexDigit (by omega), hexValue_hexDigit (by omega),
    hexValue_hexDigit (by omega)]
  simp only [Option.bind_eq_bind, Option.bind_some, value]

theorem readChar_unit (digits : List Char) :
    readChar ('\\' :: 'u' :: digits) = readUnits ('\\' :: 'u' :: digits) := by
  simp [readChar]

theorem readUnits_unit {unit : Nat} (small : unit < 0x10000)
    (scalar : unit < 0xD800 ∨ 0xDFFF < unit) (rest : List Char) :
    readUnits (escapeUnit unit ++ rest) = some (Char.ofNat unit, rest) := by
  rw [readUnits, readUnit_escapeUnit small]
  simp only [Option.bind_eq_bind, Option.bind_some]
  rw [if_neg (by omega), if_neg (by omega)]

theorem readUnits_pair {high low : Nat} (first : 0xD800 ≤ high ∧ high < 0xDC00)
    (second : 0xDC00 ≤ low ∧ low < 0xE000) (rest : List Char) :
    readUnits (escapeUnit high ++ (escapeUnit low ++ rest)) =
      some (Char.ofNat (pairValue high low), rest) := by
  rw [readUnits, readUnit_escapeUnit (by omega)]
  simp only [Option.bind_eq_bind, Option.bind_some]
  rw [if_pos first, readUnit_escapeUnit (by omega)]
  simp only [Option.bind_some]
  rw [if_pos second]

theorem pairValue_split {value : Nat} (large : 0x10000 ≤ value) :
    pairValue (0xD800 + (value - 0x10000) / 0x400) (0xDC00 + (value - 0x10000) % 0x400) = value := by
  unfold pairValue
  omega

def shortEscapes : List (Char × Char) :=
  [('"', '"'), ('\\', '\\'), ('\n', 'n'), ('\r', 'r'), ('\t', 't'), ('\x0c', 'f'), ('\x08', 'b')]

inductive Escaped : Char → List Char → Prop where
  | short {c letter : Char} : (c, letter) ∈ shortEscapes → Escaped c ['\\', letter]
  | plain {c : Char} : Printable c → c ≠ '"' → c ≠ '\\' → Escaped c [c]
  | unit {c : Char} : c.toNat < 0x10000 → Escaped c (escapeUnit c.toNat)
  | pair {c : Char} : 0x10000 ≤ c.toNat →
      Escaped c (escapeUnit (0xD800 + (c.toNat - 0x10000) / 0x400) ++
        escapeUnit (0xDC00 + (c.toNat - 0x10000) % 0x400))

theorem escaped (c : Char) : Escaped c (escape c) := by
  by_cases quote : c = '"'
  · subst quote
    exact .short (by decide)
  by_cases backslash : c = '\\'
  · subst backslash
    exact .short (by decide)
  by_cases newline : c = '\n'
  · subst newline
    exact .short (by decide)
  by_cases return_ : c = '\r'
  · subst return_
    exact .short (by decide)
  by_cases tab : c = '\t'
  · subst tab
    exact .short (by decide)
  by_cases feed : c = '\x0c'
  · subst feed
    exact .short (by decide)
  by_cases back : c = '\x08'
  · subst back
    exact .short (by decide)
  rw [escape, if_neg quote, if_neg backslash, if_neg newline, if_neg return_, if_neg tab,
    if_neg feed, if_neg back]
  by_cases plain : Printable c
  · rw [if_pos plain]
    exact .plain plain quote backslash
  rw [if_neg plain]
  by_cases small : c.toNat < 0x10000
  · rw [if_pos small]
    exact .unit small
  · rw [if_neg small]
    exact .pair (Nat.not_lt.mp small)

theorem readChar_escape (c : Char) (rest : List Char) :
    readChar (escape c ++ rest) = some (c, rest) := by
  have valid : c.toNat < 0xD800 ∨ 0xDFFF < c.toNat ∧ c.toNat < 0x110000 := c.valid
  have form := escaped c
  generalize escape c = text at form ⊢
  cases form with
  | short named =>
      simp only [shortEscapes, List.mem_cons, Prod.mk.injEq, List.not_mem_nil, or_false] at named
      rcases named with ⟨rfl, rfl⟩ | ⟨rfl, rfl⟩ | ⟨rfl, rfl⟩ | ⟨rfl, rfl⟩ | ⟨rfl, rfl⟩ | ⟨rfl, rfl⟩ |
        ⟨rfl, rfl⟩
      all_goals rfl
  | plain printable quote backslash =>
      have graphic : ¬c < ' ' := Char.not_lt.mpr printable.1
      simp [readChar, backslash, graphic]
  | unit small =>
      have units := readUnits_unit small (by omega) rest
      rw [Char.ofNat_toNat] at units
      exact (readChar_unit _).trans units
  | pair large =>
      have units : readUnits (escapeUnit (0xD800 + (c.toNat - 0x10000) / 0x400) ++
          (escapeUnit (0xDC00 + (c.toNat - 0x10000) % 0x400) ++ rest)) =
            some (Char.ofNat (pairValue _ _), rest) := readUnits_pair (by omega) (by omega) rest
      rw [pairValue_split large, Char.ofNat_toNat] at units
      rw [List.append_assoc]
      exact (readChar_unit _).trans units

theorem escape_head (c : Char) : ∃ first more, escape c = first :: more ∧ first ≠ '"' := by
  have form := escaped c
  generalize escape c = text at form ⊢
  cases form with
  | short named => exact ⟨_, _, rfl, by decide⟩
  | plain printable quote backslash => exact ⟨_, _, rfl, quote⟩
  | unit small => exact ⟨_, _, rfl, by decide⟩
  | pair large => exact ⟨_, _, rfl, by decide⟩

theorem readText_writeText (chars rest : List Char) {fuel : Nat} (enough : chars.length < fuel) :
    readText fuel (chars.flatMap escape ++ '"' :: rest) = some (chars, rest) := by
  induction chars generalizing fuel with
  | nil =>
      obtain ⟨fuel, rfl⟩ := Nat.exists_eq_add_one_of_ne_zero (Nat.ne_zero_of_lt enough)
      rfl
  | cons c chars ih =>
      obtain ⟨fuel, rfl⟩ := Nat.exists_eq_add_one_of_ne_zero (Nat.ne_zero_of_lt enough)
      obtain ⟨first, more, head, plain⟩ := escape_head c
      have char := readChar_escape c (chars.flatMap escape ++ '"' :: rest)
      rw [List.flatMap_cons, List.append_assoc]
      rw [head, List.cons_append] at char ⊢
      rw [readText]
      · simp only [char, Option.bind_eq_bind, Option.bind_some, ih (Nat.lt_of_succ_lt_succ enough)]
      · intro _ same
        exact plain (List.cons.inj same).1

theorem hexDigit_printable {digit : Nat} (small : digit < 0x10) : Printable (hexDigit digit) := by
  revert digit
  decide

theorem escapeUnit_printable {unit : Nat} (small : unit < 0x10000) :
    ∀ c ∈ escapeUnit unit, Printable c := by
  intro c member
  simp only [escapeUnit, List.mem_cons, List.not_mem_nil, or_false] at member
  rcases member with rfl | rfl | rfl | rfl | rfl | rfl
  · decide
  · decide
  all_goals exact hexDigit_printable (by omega)

theorem escape_printable (c : Char) : ∀ other ∈ escape c, Printable other := by
  have valid : c.toNat < 0xD800 ∨ 0xDFFF < c.toNat ∧ c.toNat < 0x110000 := c.valid
  have form := escaped c
  generalize escape c = text at form ⊢
  cases form with
  | short named =>
      have letters : ∀ pair ∈ shortEscapes, Printable pair.2 := by decide
      exact List.forall_mem_cons.mpr ⟨by decide, List.forall_mem_singleton.mpr (letters _ named)⟩
  | plain printable quote backslash => exact List.forall_mem_singleton.mpr printable
  | unit small => exact escapeUnit_printable small
  | pair large =>
      intro other member
      rcases List.mem_append.mp member with member | member
      · exact escapeUnit_printable (by omega) other member
      · exact escapeUnit_printable (by omega) other member

theorem writeText_printable (chars : List Char) : ∀ c ∈ writeText chars, Printable c := by
  intro c member
  simp only [writeText, List.mem_cons, List.mem_append, List.mem_flatMap, List.not_mem_nil,
    or_false] at member
  rcases member with rfl | ⟨other, -, member⟩ | rfl
  · decide
  · exact escape_printable other c member
  · decide

/-! ## Numbers -/

def digitChar (digit : Nat) : Char := Char.ofNat (0x30 + digit)

def IsDigit (c : Char) : Prop := '0' ≤ c ∧ c ≤ '9'

instance (c : Char) : Decidable (IsDigit c) := inferInstanceAs (Decidable (_ ∧ _))

def writeNumber (value : Nat) : List Char :=
  if value = 0 then ['0'] else (Nat.digits 10 value).reverse.map digitChar

/-- No number begins with a zero but zero itself. -/
def readNumber (text : List Char) : Option (Nat × List Char) :=
  let digits := text.takeWhile IsDigit
  if digits = [] ∨ digits.head? = some '0' ∧ digits ≠ ['0'] then none
  else some (Nat.ofDigits 10 (digits.reverse.map fun c => c.toNat - 0x30),
    text.dropWhile IsDigit)

theorem digitChar_isDigit {digit : Nat} (small : digit < 10) : IsDigit (digitChar digit) := by
  revert digit
  decide

theorem digitChar_toNat {digit : Nat} (small : digit < 10) :
    (digitChar digit).toNat - 0x30 = digit := by
  revert digit
  decide

theorem writeNumber_isDigit (value : Nat) : ∀ c ∈ writeNumber value, IsDigit c := by
  intro c member
  unfold writeNumber at member
  split_ifs at member
  · rw [List.mem_singleton.mp member]
    decide
  · obtain ⟨digit, digits, rfl⟩ := List.mem_map.mp member
    exact digitChar_isDigit (Nat.digits_lt_base (by omega) (List.mem_reverse.mp digits))

theorem writeNumber_ne_nil (value : Nat) : writeNumber value ≠ [] := by
  unfold writeNumber
  split_ifs with zero
  · exact List.cons_ne_nil _ _
  · rw [ne_eq, List.map_eq_nil_iff, List.reverse_eq_nil_iff]
    exact Nat.digits_ne_nil_iff_ne_zero.mpr zero

theorem writeNumber_leading (value : Nat) :
    ¬((writeNumber value).head? = some '0' ∧ writeNumber value ≠ ['0']) := by
  rintro ⟨zero, other⟩
  unfold writeNumber at zero other
  split_ifs at zero other with none
  · exact other rfl
  · have some : Nat.digits 10 value ≠ [] := Nat.digits_ne_nil_iff_ne_zero.mpr none
    rw [List.head?_map, List.head?_reverse, List.getLast?_eq_some_getLast some] at zero
    have small := Nat.digits_lt_base (by omega) (List.getLast_mem some)
    have value := digitChar_toNat small
    rw [Option.some_inj.mp zero] at value
    exact Nat.getLast_digit_ne_zero 10 none value.symm

theorem ofDigits_writeNumber (value : Nat) :
    Nat.ofDigits 10 ((writeNumber value).reverse.map fun c => c.toNat - 0x30) = value := by
  unfold writeNumber
  split_ifs with zero
  · rw [zero]
    rfl
  · have same : ((Nat.digits 10 value).map digitChar).map (fun c => c.toNat - 0x30) =
        Nat.digits 10 value := by
      rw [List.map_map]
      refine (List.map_congr_left fun digit member => ?_).trans (List.map_id _)
      exact digitChar_toNat (Nat.digits_lt_base (by omega) member)
    rw [← List.map_reverse, List.reverse_reverse, same, Nat.ofDigits_digits]

theorem readNumber_writeNumber (value : Nat) {stop : Char} (plain : ¬IsDigit stop)
    (rest : List Char) :
    readNumber (writeNumber value ++ stop :: rest) = some (value, stop :: rest) := by
  have digits : ∀ c ∈ writeNumber value, decide (IsDigit c) = true := fun c member =>
    decide_eq_true (writeNumber_isDigit value c member)
  have taken : (writeNumber value ++ stop :: rest).takeWhile IsDigit = writeNumber value := by
    rw [List.takeWhile_append_of_pos digits, List.takeWhile_cons_of_neg (by simpa using plain),
      List.append_nil]
  have dropped : (writeNumber value ++ stop :: rest).dropWhile IsDigit = stop :: rest := by
    rw [List.dropWhile_append_of_pos digits, List.dropWhile_cons_of_neg (by simpa using plain)]
  rw [readNumber, taken, dropped, if_neg (not_or_intro (writeNumber_ne_nil value) (writeNumber_leading value)),
    ofDigits_writeNumber]

/-! ## Objects -/

def IsSpace (c : Char) : Prop := c = ' ' ∨ c = '\t' ∨ c = '\n' ∨ c = '\r'

instance (c : Char) : Decidable (IsSpace c) := inferInstanceAs (Decidable (_ ∨ _))

def skip (text : List Char) : List Char := text.dropWhile IsSpace

def writeValue : Value → List Char
  | .text chars => writeText chars
  | .number value => writeNumber value
  | .bool true => ['t', 'r', 'u', 'e']
  | .bool false => ['f', 'a', 'l', 's', 'e']

def readValue : List Char → Option (Value × List Char)
  | '"' :: rest => do
      let (chars, rest) ← readText (rest.length + 1) rest
      some (.text chars, rest)
  | 't' :: 'r' :: 'u' :: 'e' :: rest => some (.bool true, rest)
  | 'f' :: 'a' :: 'l' :: 's' :: 'e' :: rest => some (.bool false, rest)
  | text => do
      let (value, rest) ← readNumber text
      some (.number value, rest)

def writeField : String × Value → List Char
  | (key, value) => writeText key.toList ++ ':' :: ' ' :: writeValue value

def readField (text : List Char) : Option ((String × Value) × List Char) :=
  match skip text with
  | '"' :: rest => do
      let (key, rest) ← readText (rest.length + 1) rest
      match skip rest with
      | ':' :: rest => do
          let (value, rest) ← readValue (skip rest)
          some ((String.ofList key, value), skip rest)
      | _ => none
  | _ => none

def writeFields : Object → List Char
  | [] => []
  | [field] => writeField field
  | field :: fields => writeField field ++ ',' :: ' ' :: writeFields fields

def readFields : Nat → List Char → Option (Object × List Char)
  | 0, _ => none
  | fuel + 1, text => do
      let (field, rest) ← readField text
      match rest with
      | '}' :: rest => some ([field], rest)
      | ',' :: rest => do
          let (fields, rest) ← readFields fuel rest
          some (field :: fields, rest)
      | _ => none

def dumps (object : Object) : List Char := '{' :: (writeFields object ++ ['}'])

def loads (text : List Char) : Option Object :=
  match skip text with
  | '{' :: rest =>
      match skip rest with
      | '}' :: rest => if skip rest = [] then some [] else none
      | rest => do
          let (fields, rest) ← readFields (rest.length + 1) rest
          if skip rest = [] then some fields else none
  | _ => none

theorem skip_of_not {c : Char} (plain : ¬IsSpace c) (rest : List Char) :
    skip (c :: rest) = c :: rest := by
  rw [skip, List.dropWhile_cons_of_neg (by simpa using plain)]

theorem readText_writeText_length (chars rest : List Char) :
    readText ((chars.flatMap escape ++ '"' :: rest).length + 1)
      (chars.flatMap escape ++ '"' :: rest) = some (chars, rest) := by
  apply readText_writeText
  have each : chars.length ≤ (chars.flatMap escape).length := by
    induction chars with
    | nil => exact Nat.le_refl _
    | cons c chars ih =>
        obtain ⟨first, more, head, -⟩ := escape_head c
        rw [List.flatMap_cons, List.length_append, head]
        simp only [List.length_cons]
        omega
  rw [List.length_append]
  omega

theorem digit_plain {c : Char} (digit : IsDigit c) : c ≠ '"' ∧ c ≠ 't' ∧ c ≠ 'f' := by
  refine ⟨?_, ?_, ?_⟩ <;> rintro rfl <;> exact absurd digit (by decide)

theorem readValue_writeValue (value : Value) {stop : Char} (plain : ¬IsDigit stop)
    (rest : List Char) :
    readValue (writeValue value ++ stop :: rest) = some (value, stop :: rest) := by
  cases value with
  | text chars =>
      simp only [writeValue, writeText, List.cons_append, List.append_assoc, List.nil_append,
        readValue, readText_writeText_length, Option.bind_eq_bind, Option.bind_some]
  | number value =>
      have number := readNumber_writeNumber value plain rest
      cases digits : writeNumber value with
      | nil => exact absurd digits (writeNumber_ne_nil value)
      | cons digit more =>
          have first := digit_plain (writeNumber_isDigit value digit (by simp [digits]))
          rw [writeValue, digits, List.cons_append]
          rw [digits, List.cons_append] at number
          rw [readValue]
          · simp only [number, Option.bind_eq_bind, Option.bind_some]
          · exact fun _ same => first.1 (List.cons.inj same).1
          · exact fun _ same => first.2.1 (List.cons.inj same).1
          · exact fun _ same => first.2.2 (List.cons.inj same).1
  | bool value => cases value <;> rfl

theorem writeValue_head (value : Value) :
    ∃ first more, writeValue value = first :: more ∧ ¬IsSpace first := by
  cases value with
  | text chars => exact ⟨_, _, rfl, by decide⟩
  | number value =>
      cases digits : writeNumber value with
      | nil => exact absurd digits (writeNumber_ne_nil value)
      | cons digit more =>
          refine ⟨digit, more, digits, ?_⟩
          have isDigit := writeNumber_isDigit value digit (by simp [digits])
          rintro (rfl | rfl | rfl | rfl) <;> exact absurd isDigit (by decide)
  | bool value => cases value <;> exact ⟨_, _, rfl, by decide⟩

theorem readField_writeField (field : String × Value) {stop : Char} (digit : ¬IsDigit stop)
    (space : ¬IsSpace stop) (rest : List Char) :
    readField (writeField field ++ stop :: rest) = some (field, stop :: rest) := by
  obtain ⟨key, value⟩ := field
  obtain ⟨first, more, head, plain⟩ := writeValue_head value
  have gap : skip (' ' :: (writeValue value ++ stop :: rest)) = writeValue value ++ stop :: rest := by
    rw [head, List.cons_append]
    show skip (first :: _) = _
    exact skip_of_not plain _
  have quote : ¬IsSpace '"' := by decide
  have colon : ¬IsSpace ':' := by decide
  simp only [readField, writeField, writeText, List.cons_append, List.append_assoc, List.nil_append,
    skip_of_not quote, readText_writeText_length, Option.bind_eq_bind, Option.bind_some,
    skip_of_not colon, gap, readValue_writeValue value digit, skip_of_not space, String.ofList_toList]

theorem readFields_space (fuel : Nat) (text : List Char) :
    readFields fuel (' ' :: text) = readFields fuel text := by
  cases fuel <;> rfl

theorem readFields_writeFields {object : Object} (filled : object ≠ []) (rest : List Char)
    {fuel : Nat} (enough : object.length ≤ fuel) :
    readFields fuel (writeFields object ++ '}' :: rest) = some (object, rest) := by
  induction object generalizing fuel with
  | nil => exact absurd rfl filled
  | cons field fields ih =>
      obtain ⟨fuel, rfl⟩ := Nat.exists_eq_add_one_of_ne_zero (Nat.ne_zero_of_lt enough)
      cases fields with
      | nil =>
          have read := readField_writeField field (show ¬IsDigit '}' by decide) (by decide) rest
          simp only [readFields, writeFields, read, Option.bind_eq_bind, Option.bind_some]
      | cons next fields =>
          have later := ih (List.cons_ne_nil next fields) (Nat.le_of_succ_le_succ enough)
          have read := readField_writeField field (show ¬IsDigit ',' by decide) (by decide)
            (' ' :: (writeFields (next :: fields) ++ '}' :: rest))
          rw [writeFields, List.append_assoc, List.cons_append, List.cons_append]
          · simp only [readFields, read, Option.bind_eq_bind, Option.bind_some, readFields_space,
              later]
          · exact List.cons_ne_nil next fields

theorem length_le_writeFields (object : Object) : object.length ≤ (writeFields object).length := by
  induction object with
  | nil => exact Nat.le_refl _
  | cons field fields ih =>
      obtain ⟨key, value⟩ := field
      cases fields with
      | nil => simp [writeFields, writeField, writeText]
      | cons next fields =>
          simp only [writeFields, List.length_append, List.length_cons] at ih ⊢
          omega

theorem writeFields_head (field : String × Value) (fields : Object) :
    ∃ more, writeFields (field :: fields) = '"' :: more := by
  cases fields <;> exact ⟨_, rfl⟩

theorem loads_dumps (object : Object) : loads (dumps object) = some object := by
  cases object with
  | nil => rfl
  | cons field fields =>
      obtain ⟨more, head⟩ := writeFields_head field fields
      have length := length_le_writeFields (field :: fields)
      have read := readFields_writeFields (List.cons_ne_nil field fields) []
        (Nat.le_trans length (by rw [List.length_append]; omega :
          (writeFields (field :: fields)).length ≤
            (writeFields (field :: fields) ++ ['}']).length + 1))
      have brace : ¬IsSpace '{' := by decide
      have quote : ¬IsSpace '"' := by decide
      rw [loads, dumps, skip_of_not brace]
      rw [head, List.cons_append] at read ⊢
      simp only [skip_of_not quote]
      show (readFields _ ('"' :: (more ++ ['}']))).bind _ = _
      rw [read]
      rfl

theorem writeValue_printable (value : Value) : ∀ c ∈ writeValue value, Printable c := by
  cases value with
  | text chars => exact writeText_printable chars
  | number value =>
      intro c member
      have digit := writeNumber_isDigit value c member
      exact ⟨Char.le_trans (by decide) digit.1, Char.le_trans digit.2 (by decide)⟩
  | bool value => cases value <;> exact forall_printable (by decide)

theorem writeField_printable (field : String × Value) : ∀ c ∈ writeField field, Printable c := by
  intro c member
  simp only [writeField, List.mem_append, List.mem_cons] at member
  rcases member with member | rfl | rfl | member
  · exact writeText_printable _ c member
  · decide
  · decide
  · exact writeValue_printable _ c member

theorem writeFields_printable (object : Object) : ∀ c ∈ writeFields object, Printable c := by
  induction object with
  | nil => simp [writeFields]
  | cons field fields ih =>
      intro c member
      cases fields with
      | nil => exact writeField_printable field c member
      | cons next fields =>
          simp only [writeFields, List.mem_append, List.mem_cons] at member ih
          rcases member with member | rfl | rfl | member
          · exact writeField_printable field c member
          · decide
          · decide
          · exact ih c member

theorem dumps_printable (object : Object) : ∀ c ∈ dumps object, Printable c := by
  intro c member
  simp only [dumps, List.mem_cons, List.mem_append, List.not_mem_nil, or_false] at member
  rcases member with rfl | member | rfl
  · decide
  · exact writeFields_printable object c member
  · decide

end LlmServing.Lib.Json
