import NestedCss.Text.Basic

/-!
# Text as bytes

* `Utf8.encode`: a text in UTF-8;
* `Utf8.decode`: the text that bytes stand for, or the first byte that no character starts with.
-/

namespace NestedCss.Utf8

/-- The bytes of a text. -/
def encode (t : Text) : List UInt8 := t.flatMap String.utf8EncodeChar

/-- The six bits of a byte that continues a character. -/
def continuation? (b : UInt8) : Option Nat :=
  if 0x80 ≤ b.toNat ∧ b.toNat < 0xc0 then some (b.toNat - 0x80) else none

/-- The character with a code point. It has to need as many bytes as it was written in, so that every
character is written in one way only. -/
def charOf? (length code : Nat) : Option Char :=
  if code.isValidChar ∧ (Char.ofNat code).utf8Size = length then some (Char.ofNat code) else none

/-- A character that is written in two bytes. -/
def two? (a b : UInt8) : Option Char := do
  let y ← continuation? b
  if 0xc0 ≤ a.toNat ∧ a.toNat < 0xe0 then charOf? 2 ((a.toNat - 0xc0) * 0x40 + y) else none

/-- A character that is written in three bytes. -/
def three? (a b c : UInt8) : Option Char := do
  let y ← continuation? b
  let z ← continuation? c
  if 0xe0 ≤ a.toNat ∧ a.toNat < 0xf0 then
    charOf? 3 (((a.toNat - 0xe0) * 0x40 + y) * 0x40 + z)
  else none

/-- A character that is written in four bytes. -/
def four? (a b c d : UInt8) : Option Char := do
  let y ← continuation? b
  let z ← continuation? c
  let w ← continuation? d
  if 0xf0 ≤ a.toNat ∧ a.toNat < 0xf8 then
    charOf? 4 ((((a.toNat - 0xf0) * 0x40 + y) * 0x40 + z) * 0x40 + w)
  else none

/-- The text that bytes stand for, or the byte at which they stop being UTF-8. -/
def decode : List UInt8 → Except UInt8 Text
  | [] => .ok []
  | a :: rest =>
    if a.toNat < 0x80 then (decode rest).map (Char.ofNat a.toNat :: ·)
    else match rest with
      | [] => .error a
      | b :: rest =>
        match two? a b with
        | some char => (decode rest).map (char :: ·)
        | none =>
          match rest with
          | [] => .error a
          | c :: rest =>
            match three? a b c with
            | some char => (decode rest).map (char :: ·)
            | none =>
              match rest with
              | [] => .error a
              | d :: rest =>
                match four? a b c d with
                | some char => (decode rest).map (char :: ·)
                | none => .error a

end NestedCss.Utf8
