import EsOs.Lib.Unicode

/-!
# UTF-8, UTF-16 and UTF-32

The conversions of single characters in `os/libes++/src/utf.c`. What a pointer leads to is the list
of the units up to the terminator, which is read as 0 behind the end of the list; a null pointer is
`none`.
-/

namespace EsOs.Es

open EsOs.Lib

/-- The bits of the first byte and the number of bytes that follow it (`utf.c:41-65`). -/
def utf8Lead (c : Nat) : Option (Nat × Nat) :=
  if c &&& 0x80 = 0x00 then some (c, 0)
  else if c &&& 0xe0 = 0xc0 then some (c &&& 0x1f, 1)
  else if c &&& 0xf0 = 0xe0 then some (c &&& 0x0f, 2)
  else if c &&& 0xf8 = 0xf0 then some (c &&& 0x07, 3)
  else none

/-- The loop over the bytes that follow (`utf.c:67-76`). -/
def utf8Rest : Nat → Nat → List UInt8 → Option (Nat × List UInt8)
  | 0, u, utf8 => some (u, utf8)
  | len + 1, u, utf8 =>
    let c := (utf8.headD 0).toNat
    if c &&& 0xc0 ≠ 0x80 then none
    else utf8Rest len (u <<< 6 ||| (c &&& 0x3f)) utf8.tail

/-- The value could have been written in fewer bytes (`utf.c:78-98`). -/
def utf8Overlong (u len : Nat) : Bool :=
  if u ≤ 0x7f then len ≠ 0
  else if u ≤ 0x7ff then len ≠ 1
  else if u ≤ 0xffff then len ≠ 2
  else false

/-- `utf8to32` (`utf.c:34-108`): the value, and the bytes behind it. A terminator is not passed. -/
def utf8to32 (utf8 : List UInt8) : Option (Nat × List UInt8) :=
  let c := (utf8.headD 0).toNat
  let behind := if c ≠ 0 then utf8.tail else utf8
  match utf8Lead c with
  | none => none
  | some (u, len) =>
    match utf8Rest len u behind with
    | none => none
    | some (u, utf8) =>
      if utf8Overlong u len then none
      else if 0xd800 ≤ u ∧ u ≤ 0xdfff then none
      else some (u, utf8)

/-- The bytes that follow the first one, `len` of them (`utf.c:147-150`). -/
def utf8Tail (utf32 : Nat) : Nat → List UInt8
  | 0 => []
  | len + 1 => UInt8.ofNat (0x80 ||| ((utf32 >>> (6 * len)) &&& 0x3f)) :: utf8Tail utf32 len

/-- `utf32to8` (`utf.c:110-152`): the bytes written. -/
def utf32to8 (utf32 : Nat) : Option (List UInt8) :=
  if 0xd800 ≤ utf32 ∧ utf32 ≤ 0xdfff then none
  else if utf32 < 0x80 then some (UInt8.ofNat utf32 :: utf8Tail utf32 0)
  else if utf32 < 0x800 then some (UInt8.ofNat (0xc0 ||| utf32 >>> 6) :: utf8Tail utf32 1)
  else if utf32 < 0x10000 then some (UInt8.ofNat (0xe0 ||| utf32 >>> 12) :: utf8Tail utf32 2)
  else if utf32 < 0x110000 then some (UInt8.ofNat (0xf0 ||| utf32 >>> 18) :: utf8Tail utf32 3)
  else none

/-- `utf16to32` (`utf.c:183-218`): the value, and the units behind it. A terminator is not passed. -/
def utf16to32 (utf16 : List UInt16) : Option (Nat × List UInt16) :=
  let w1 := (utf16.headD 0).toNat
  let behind := if w1 ≠ 0 then utf16.tail else utf16
  if w1 < 0xd800 ∨ 0xdfff < w1 then some (w1, behind)
  else if w1 ≤ 0xdbff then
    let w2 := (behind.headD 0).toNat
    if 0xdc00 ≤ w2 ∧ w2 ≤ 0xdfff then
      some (((w1 &&& 0x03ff) <<< 10 ||| (w2 &&& 0x03ff)) + 0x10000, behind.tail)
    else none
  else none

/-- `utf32to16` (`utf.c:220-248`): the units written. -/
def utf32to16 (utf32 : Nat) : Option (List UInt16) :=
  if 0xd800 ≤ utf32 ∧ utf32 ≤ 0xdfff then none
  else if utf32 < 0x10000 then some [UInt16.ofNat utf32]
  else if utf32 ≤ 0x10ffff then
    let utf32 := utf32 - 0x10000
    some [UInt16.ofNat (0xd800 ||| utf32 >>> 10), UInt16.ofNat (0xdc00 ||| (utf32 &&& 0x3ff))]
  else none

/-- The sequence `seq` is read from `text`, and `rest` is behind it. A terminator is not passed. -/
def Reads {α : Type _} [OfNat α 0] (seq text rest : List α) : Prop :=
  text = seq ++ rest ∧ seq ≠ [0] ∨ seq = [0] ∧ text.headD 0 = 0 ∧ rest = text

/-- On these bytes `utf8to32` reads the UTF-8 of the scalar values and nothing else, and `utf32to8`
    writes what it has read. -/
structure Utf8Exact (bytes : List UInt8) : Prop where
  accepts : ∀ u rest, utf8to32 bytes = some (u, rest) ↔
    ∃ c : Char, c.toNat = u ∧ Reads (String.utf8EncodeChar c) bytes rest
  back : ∀ u rest, utf8to32 bytes = some (u, rest) →
    ∃ seq, utf32to8 u = some seq ∧ Reads seq bytes rest

/-- The same for UTF-16. -/
structure Utf16Exact (units : List UInt16) : Prop where
  accepts : ∀ u rest, utf16to32 units = some (u, rest) ↔
    ∃ c : Char, c.toNat = u ∧ Reads (utf16EncodeChar c) units rest
  back : ∀ u rest, utf16to32 units = some (u, rest) →
    ∃ seq, utf32to16 u = some seq ∧ Reads seq units rest

/-- What is written for a scalar value is read as that value. -/
structure ScalarExact (c : Char) : Prop where
  utf8 : ∃ seq, utf32to8 c.toNat = some seq ∧
    ∀ bytes rest, Reads seq bytes rest → utf8to32 bytes = some (c.toNat, rest)
  utf16 : ∃ seq, utf32to16 c.toNat = some seq ∧
    ∀ units rest, Reads seq units rest → utf16to32 units = some (c.toNat, rest)

/-- `80h` to `BFh` -/
def IsTail (b : UInt8) : Prop :=
  0x80 ≤ b.toNat ∧ b.toNat < 0xc0

/-- Four bytes of the form of UTF-8 whose value is above 10FFFFh. -/
def AboveUnicode (bytes : List UInt8) : Prop :=
  ∃ a b c d rest, bytes = a :: b :: c :: d :: rest ∧ IsTail b ∧ IsTail c ∧ IsTail d ∧
    (a.toNat = 0xf4 ∧ 0x90 ≤ b.toNat ∨ 0xf5 ≤ a.toNat ∧ a.toNat < 0xf8)

end EsOs.Es
