set_option autoImplicit false

/-! # Byte strings as text

Stored strings are bytes, and nothing forces them to be UTF-8. `Text.ofBytes` reads every
well-formed sequence as its character and every maximal ill-formed part as one U+FFFD: a part ends
just before the first byte that cannot continue it, and that byte starts afresh. -/

namespace SparseScan.Text

/-- A sequence under way: the bits read so far, how many bytes are still owed, and the least and
    greatest value the next of them may have. -/
structure Pending where
  bits : Nat
  owed : Nat
  least : UInt8
  greatest : UInt8
deriving DecidableEq, Repr

/-- What a byte means at the start of a sequence. -/
inductive Start where
  | complete (c : Char)
  | opens (p : Pending)
  | illFormed
deriving DecidableEq, Repr

/-- The replacement character U+FFFD. -/
def replacement : Char := '\uFFFD'

/-- Overlong forms, surrogates and values beyond U+10FFFF are excluded by the range of the second
    byte, so a sequence fails at the first byte that cannot belong to any character. -/
def Start.ofByte (b : UInt8) : Start :=
  if b < 0x80 then .complete (Char.ofNat b.toNat)
  else if b < 0xC2 then .illFormed
  else if b < 0xE0 then .opens ⟨b.toNat - 0xC0, 1, 0x80, 0xBF⟩
  else if b = 0xE0 then .opens ⟨0, 2, 0xA0, 0xBF⟩
  else if b = 0xED then .opens ⟨0xD, 2, 0x80, 0x9F⟩
  else if b < 0xF0 then .opens ⟨b.toNat - 0xE0, 2, 0x80, 0xBF⟩
  else if b = 0xF0 then .opens ⟨0, 3, 0x90, 0xBF⟩
  else if b < 0xF4 then .opens ⟨b.toNat - 0xF0, 3, 0x80, 0xBF⟩
  else if b = 0xF4 then .opens ⟨4, 3, 0x80, 0x8F⟩
  else .illFormed

/-- The characters that byte `b` completes, and the sequence under way after it. -/
def step (state : Option Pending) (b : UInt8) : List Char × Option Pending :=
  match state with
  | some p =>
      if p.least ≤ b ∧ b ≤ p.greatest then
        let bits := p.bits * 64 + b.toNat % 64
        if p.owed ≤ 1 then ([Char.ofNat bits], none)
        else ([], some ⟨bits, p.owed - 1, 0x80, 0xBF⟩)
      else
        match Start.ofByte b with
        | .complete c => ([replacement, c], none)
        | .opens q => ([replacement], some q)
        | .illFormed => ([replacement, replacement], none)
  | none =>
      match Start.ofByte b with
      | .complete c => ([c], none)
      | .opens q => ([], some q)
      | .illFormed => ([replacement], none)

/-- The characters of the bytes that follow the sequence under way. -/
def charsFrom : Option Pending → List UInt8 → List Char
  | none, [] => []
  | some _, [] => [replacement]
  | state, b :: bs =>
      let (done, state) := step state b
      done ++ charsFrom state bs

/-- Bytes as text, every maximal ill-formed part replaced by U+FFFD. -/
def ofBytes (bytes : List UInt8) : String := String.ofList (charsFrom none bytes)

end SparseScan.Text
