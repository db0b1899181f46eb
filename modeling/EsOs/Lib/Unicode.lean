/-!
# UTF-16

The code units of a Unicode scalar value; Lean's `Char` is a scalar value, and
`String.utf8EncodeChar` its UTF-8.
-/

namespace EsOs.Lib

/-- A value in the gap between the two ranges of scalar values. -/
def IsSurrogate (u : Nat) : Prop :=
  0xd800 ≤ u ∧ u ≤ 0xdfff

theorem isValidChar_iff {u : Nat} : u.isValidChar ↔ u < 0x110000 ∧ ¬ IsSurrogate u := by
  unfold Nat.isValidChar IsSurrogate
  omega

/-- The UTF-16 of a scalar value: its own unit, or a high and a low surrogate. -/
def utf16EncodeChar (c : Char) : List UInt16 :=
  if c.toNat < 0x10000 then [UInt16.ofNat c.toNat]
  else [UInt16.ofNat (0xd800 + (c.toNat - 0x10000) / 0x400),
    UInt16.ofNat (0xdc00 + (c.toNat - 0x10000) % 0x400)]

/-- The UTF-16 of a text. -/
def utf16Encode (text : List Char) : List UInt16 :=
  text.flatMap utf16EncodeChar

theorem utf16EncodeChar_length (c : Char) :
    (utf16EncodeChar c).length = if c.toNat < 0x10000 then 1 else 2 := by
  unfold utf16EncodeChar
  split <;> rfl

end EsOs.Lib
