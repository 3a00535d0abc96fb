import LlmServing.Lib.Transducer

/-!
# UTF-8 with a replacement character

Each maximal run of bytes that begins a character without completing it, and each byte that begins
none, decodes to U+FFFD.
-/

namespace LlmServing.Lib.Utf8

def replacement : Char := '\uFFFD'

/-- Between characters, or after the first bytes of one: its value so far, the range of the next byte
and how many follow that. -/
inductive State where
  | ground
  | within (value low high more : Nat)
  deriving DecidableEq

/-- A byte between characters. The narrower ranges rule out overlong forms, surrogates and values past
the last code point. -/
def lead (byte : Nat) : State × List Char :=
  if byte < 0x80 then (.ground, [Char.ofNat byte])
  else if byte < 0xC2 then (.ground, [replacement])
  else if byte < 0xE0 then (.within (byte - 0xC0) 0x80 0xBF 0, [])
  else if byte < 0xF0 then
    (.within (byte - 0xE0) (if byte = 0xE0 then 0xA0 else 0x80)
      (if byte = 0xED then 0x9F else 0xBF) 1, [])
  else if byte < 0xF5 then
    (.within (byte - 0xF0) (if byte = 0xF0 then 0x90 else 0x80)
      (if byte = 0xF4 then 0x8F else 0xBF) 2, [])
  else (.ground, [replacement])

def step : State → UInt8 → State × List Char
  | .ground, byte => lead byte.toNat
  | .within value low high more, byte =>
      if low ≤ byte.toNat ∧ byte.toNat ≤ high then
        let value := value * 0x40 + (byte.toNat - 0x80)
        match more with
        | 0 => (.ground, [Char.ofNat value])
        | more + 1 => (.within value 0x80 0xBF more, [])
      else
        let (next, output) := lead byte.toNat
        (next, replacement :: output)

def flush : State → List Char
  | .ground => []
  | .within .. => [replacement]

def decoder : Transducer State UInt8 Char := ⟨.ground, step, flush⟩

def decode (bytes : List UInt8) : List Char := decoder.decode bytes

example : decode [0x41, 0xE2, 0x82, 0x42, 0xFF, 0xF0, 0x9F, 0xA6, 0x99, 0xE2] =
    ['A', replacement, 'B', replacement, '🦙', replacement] := by decide

def encode (text : List Char) : List UInt8 := text.flatMap String.utf8EncodeChar

theorem decoder_marks : decoder.Marks replacement where
  start := rfl
  pending state pending := by
    cases state with
    | ground => exact absurd rfl pending
    | within => rfl

theorem toNat_byte {byte : Nat} (small : byte < 0x100) : (UInt8.ofNat byte).toNat = byte := by
  rw [UInt8.toNat_ofNat']
  exact Nat.mod_eq_of_lt small

theorem lead_two {byte : Nat} (low : 0xC2 ≤ byte) (high : byte < 0xE0) :
    lead byte = (.within (byte - 0xC0) 0x80 0xBF 0, []) := by
  rw [lead, if_neg (by omega), if_neg (by omega), if_pos high]

theorem lead_three {byte : Nat} (low : 0xE0 ≤ byte) (high : byte < 0xF0) :
    lead byte = (.within (byte - 0xE0) (if byte = 0xE0 then 0xA0 else 0x80)
      (if byte = 0xED then 0x9F else 0xBF) 1, []) := by
  rw [lead, if_neg (by omega), if_neg (by omega), if_neg (by omega), if_pos high]

theorem lead_four {byte : Nat} (low : 0xF0 ≤ byte) (high : byte < 0xF5) :
    lead byte = (.within (byte - 0xF0) (if byte = 0xF0 then 0x90 else 0x80)
      (if byte = 0xF4 then 0x8F else 0xBF) 2, []) := by
  rw [lead, if_neg (by omega), if_neg (by omega), if_neg (by omega), if_neg (by omega), if_pos high]

theorem run_ground {byte : Nat} (small : byte < 0x100) (bytes : List UInt8) :
    decoder.run .ground (UInt8.ofNat byte :: bytes) =
      ((decoder.run (lead byte).1 bytes).1, (lead byte).2 ++ (decoder.run (lead byte).1 bytes).2) := by
  show (_, _) = _
  simp only [decoder, step, toNat_byte small]

theorem run_more {value low high more byte : Nat} (small : byte < 0x100)
    (inside : low ≤ byte ∧ byte ≤ high) (bytes : List UInt8) :
    decoder.run (.within value low high (more + 1)) (UInt8.ofNat byte :: bytes) =
      decoder.run (.within (value * 0x40 + (byte - 0x80)) 0x80 0xBF more) bytes := by
  simp only [Transducer.run, decoder, step, toNat_byte small, if_pos inside, List.nil_append]

theorem run_last {value low high byte : Nat} (small : byte < 0x100)
    (inside : low ≤ byte ∧ byte ≤ high) :
    decoder.run (.within value low high 0) [UInt8.ofNat byte] =
      (.ground, [Char.ofNat (value * 0x40 + (byte - 0x80))]) := by
  simp only [Transducer.run, decoder, step, toNat_byte small, if_pos inside, List.append_nil]

theorem run_utf8EncodeChar (c : Char) :
    decoder.run .ground (String.utf8EncodeChar c) = (.ground, [c]) := by
  have valid : c.toNat < 0xD800 ∨ 0xDFFF < c.toNat ∧ c.toNat < 0x110000 := c.valid
  have whole : Char.ofNat c.toNat = c := Char.ofNat_toNat c
  have scalar : c.val.toNat = c.toNat := rfl
  rw [String.utf8EncodeChar]
  simp only [scalar]
  generalize c.toNat = n at valid whole
  split_ifs with one two three
  · rw [run_ground (by omega), lead, if_pos (by omega), whole]
    rfl
  · have value : (n / 64 % 0x20 + 0xC0 - 0xC0) * 0x40 + (n % 0x40 + 0x80 - 0x80) = n := by omega
    rw [run_ground (by omega), lead_two (by omega) (by omega), run_last (by omega) (by omega),
      value, whole]
    rfl
  · have value : ((n / 4096 % 0x10 + 0xE0 - 0xE0) * 0x40 + (n / 64 % 0x40 + 0x80 - 0x80)) * 0x40 +
        (n % 0x40 + 0x80 - 0x80) = n := by omega
    have second : (if n / 4096 % 0x10 + 0xE0 = 0xE0 then 0xA0 else 0x80) ≤ n / 64 % 0x40 + 0x80 ∧
        n / 64 % 0x40 + 0x80 ≤ if n / 4096 % 0x10 + 0xE0 = 0xED then 0x9F else 0xBF := by
      split_ifs <;> omega
    rw [run_ground (by omega), lead_three (by omega) (by omega), run_more (by omega) second,
      run_last (by omega) (by omega), value, whole]
    rfl
  · have value : (((n / 262144 % 0x08 + 0xF0 - 0xF0) * 0x40 + (n / 4096 % 0x40 + 0x80 - 0x80)) *
        0x40 + (n / 64 % 0x40 + 0x80 - 0x80)) * 0x40 + (n % 0x40 + 0x80 - 0x80) = n := by omega
    have second : (if n / 262144 % 0x08 + 0xF0 = 0xF0 then 0x90 else 0x80) ≤
          n / 4096 % 0x40 + 0x80 ∧
        n / 4096 % 0x40 + 0x80 ≤ if n / 262144 % 0x08 + 0xF0 = 0xF4 then 0x8F else 0xBF := by
      split_ifs <;> omega
    rw [run_ground (by omega), lead_four (by omega) (by omega), run_more (by omega) second,
      run_more (by omega) (by omega), run_last (by omega) (by omega), value, whole]
    rfl

theorem decode_encode (text : List Char) : decode (encode text) = text :=
  Transducer.decode_flatMap decoder_marks.start run_utf8EncodeChar text

end LlmServing.Lib.Utf8
