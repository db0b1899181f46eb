import EsOs.Es.Utf
import EsOs.Fat.Directory

/-!
# The names of directory entries

The conversions of `os/fs/fat/fatUtf.cpp` between the UTF-8 of a path, the UTF-16 of a long name and
the bytes of a short name.
-/

namespace EsOs.Fat

open EsOs.Es EsOs.Lib

/-- What becomes of a conversion into an array: it throws, it leaves units in the array, or it writes
    through a null pointer or behind the array. -/
inductive Conversion where
  | enametoolong
  | units (name : List UInt16)
  | wild
deriving DecidableEq, Repr

/-- The units before the terminator. -/
def untilNul (units : List UInt16) : List UInt16 :=
  units.takeWhile (· ≠ 0)

/-- The end of `utf8toutf16`, where `utf16` is behind the units written, or null
    (`fatUtf.cpp:371-375`). -/
def terminate (utf8 : List UInt8) (utf16 : Option (List UInt16)) : Conversion :=
  if utf8.headD 0 ≠ 0 then .enametoolong
  else
    match utf16 with
    | none => .wild
    | some units => if units.length < 256 then .units (untilNul units) else .wild

/-- `utf16 = utf32to16(utf32, utf16)` at a place of the array, or at a null pointer; nothing is
    written for a value that has no UTF-16. -/
def storeUnits (utf32 : Nat) (utf16 : Option (List UInt16)) : Option (Option (List UInt16)) :=
  match utf32to16 utf32 with
  | none => some none
  | some units =>
    match utf16 with
    | none => none
    | some before =>
      if before.length + units.length ≤ 256 then some (some (before ++ units)) else none

/-- The loop of `utf8toutf16` (`fatUtf.cpp:366-370`); `utf32` is what that variable has when it is not
    set. -/
def convertLoop (utf32 : Nat) : Nat → List UInt8 → Option (List UInt16) → Option Conversion
  | 0, _, _ => none
  | fuel + 1, utf8, utf16 =>
    match utf8to32 utf8 with
    | none =>
      match storeUnits utf32 utf16 with
      | none => some .wild
      | some _ => some .enametoolong
    | some (u, utf8) =>
      match storeUnits u utf16 with
      | none => some .wild
      | some utf16 =>
        -- a null pointer is below the limit
        if utf8.headD 0 ≠ 0 ∧ ∀ units ∈ utf16, units.length < 255 then
          convertLoop utf32 fuel utf8 utf16
        else some (terminate utf8 utf16)

/-- `FatFileSystem::utf8toutf16` (`fatUtf.cpp:361-376`) into an array of 256 units. Each turn but that
    of an empty string passes a byte. -/
def utf8toutf16 (utf32 : Nat) (utf8 : List UInt8) : Option Conversion :=
  convertLoop utf32 (utf8.length + 1) utf8 (some [])

/-- The conversion throws, or it gives the UTF-16 of the string in at most 255 units. -/
def Converted (utf8 : List UInt8) (r : Option Conversion) : Prop :=
  r = some .enametoolong ∨
    ∃ text : List Char, utf8 = text.flatMap String.utf8EncodeChar ∧
      (utf16Encode text).length ≤ 255 ∧ r = some (.units (utf16Encode text))

/-- Behind a text of less than 255 units, of which `n` have been written before, the string has a
    value above 10FFFFh, or it ends with a surrogate pair at unit 254. -/
def Overruns (n : Nat) (utf8 : List UInt8) : Prop :=
  ∃ (text : List Char) (rest : List UInt8), utf8 = text.flatMap String.utf8EncodeChar ++ rest ∧
    n + (utf16Encode text).length < 255 ∧
    (AboveUnicode rest ∨ ∃ c : Char, rest = String.utf8EncodeChar c ∧ 0x10000 ≤ c.toNat ∧
      n + (utf16Encode text).length = 254)

/-- The map of `isValidLongChar` (`fatUtf.cpp:79-93`). -/
def longCharMap : List Nat :=
  [0x00000000, 0xdfdeffd4, 0xfffffff7, 0x80000016, 0x00000000, 0x00000000, 0x00000000, 0x00000000]

/-- `FatFileSystem::isValidLongChar` (`fatUtf.cpp:76-95`). -/
def isValidLongChar (ch : UInt8) : Bool :=
  longCharMap.getD (ch.toNat / 32) 0 &&& (0x80000000 >>> (ch.toNat % 32)) != 0

/-- `isupper` of the C locale. -/
def isupper (ch : Nat) : Bool :=
  0x41 ≤ ch && ch ≤ 0x5a

/-- `islower` of the C locale. -/
def islower (ch : Nat) : Bool :=
  0x61 ≤ ch && ch ≤ 0x7a

/-- `toupper` of the C locale. -/
def toupper (ch : Nat) : Nat :=
  if islower ch then ch - 0x20 else ch

/-- `FatFileSystem::oemCode` (`fatUtf.cpp:158-187`) with `lossy`; `none` is `EACCES`. -/
def oemCode (utf16 : Nat) (lossy : Bool) : Option (Nat × Bool) :=
  if utf16 = 0 then some (0, lossy)
  else if utf16 < 0x7f then
    let ch := toupper utf16
    if !isValidLongChar (UInt8.ofNat ch) then none
    else if !isValidShortChar (UInt8.ofNat ch) then some (0x5f, true)
    else some (ch, lossy)
  else some (0x5f, true)

/-- What `utf16tooem` notes of the case of a letter, in `case8` or `case3` (`fatUtf.cpp:225-249`,
    `fatUtf.cpp:297-321`). -/
def noteCase (utf16 : Nat) (letters : Int) (lossy : Bool) : Int × Bool :=
  if lossy then (letters, lossy)
  else if isupper utf16 then if letters ≤ 0 then (-1, false) else (letters, true)
  else if islower utf16 then if 0 ≤ letters then (1, false) else (letters, true)
  else (letters, false)

/-- The variables of `utf16tooem`: what is left of the name, the last character, the bytes written to
    the current part, and the case of its letters. -/
structure OemState where
  utf16 : List Nat
  ch : Nat
  bytes : List Nat
  letters : Int
  lossy : Bool
deriving DecidableEq, Repr

/-- The loop over the main part (`fatUtf.cpp:201-255`). -/
def oemMain : List Nat → List Nat → Int → Bool → Option OemState
  | utf16, bytes, case8, lossy =>
    match oemCode (utf16.headD 0) lossy with
    | none => none
    | some (ch, lossy) =>
      match utf16 with
      | [] => some ⟨[], ch, bytes, case8, lossy⟩
      | unit :: rest =>
        if ch = 0 ∨ ¬ bytes.length < 8 then some ⟨unit :: rest, ch, bytes, case8, lossy⟩
        else if ch = 0x20 then oemMain rest bytes case8 true
        else if ch = 0x2e ∧ bytes ≠ [] then some ⟨unit :: rest, ch, bytes, case8, lossy⟩
        else
          -- a dot at the beginning
          let (ch, lossy) := if ch = 0x2e then (0x5f, true) else (ch, lossy)
          let (case8, lossy) := noteCase unit case8 lossy
          oemMain rest (bytes ++ [ch]) case8 lossy

/-- The loop over the characters behind a dot (`fatUtf.cpp:283-323`). -/
def oemExtension : List Nat → List Nat → Int → Bool → Option OemState
  | utf16, bytes, case3, lossy =>
    match oemCode (utf16.headD 0) lossy with
    | none => none
    | some (ch, lossy) =>
      match utf16 with
      | [] => some ⟨[], ch, bytes, case3, lossy⟩
      | unit :: rest =>
        if ch = 0 ∨ ch = 0x2e ∨ ¬ bytes.length < 3 then
          some ⟨unit :: rest, ch, bytes, case3, lossy⟩
        else
          let lossy := if ch = 0x20 then true else lossy
          let bytes := if ch = 0x20 then bytes else bytes ++ [ch]
          let (case3, lossy) := noteCase unit case3 lossy
          oemExtension rest bytes case3 lossy

/-- The loop to the next dot (`fatUtf.cpp:269-272`): the character it ends with, and what is behind
    it. -/
def oemSkip : List Nat → Bool → Option (Nat × List Nat × Bool)
  | utf16, lossy =>
    match oemCode (utf16.headD 0) lossy with
    | none => none
    | some (ch, lossy) =>
      match utf16 with
      | [] => some (ch, [], lossy)
      | _ :: rest => if ch ≠ 0 ∧ ch ≠ 0x2e then oemSkip rest lossy else some (ch, rest, lossy)

/-- The beginning of a turn over the extensions: what is before the next dot is lost
    (`fatUtf.cpp:266-273`). -/
def oemToDot (s : OemState) : Option (Nat × List Nat × Bool) :=
  if s.ch ≠ 0x2e then oemSkip s.utf16 true else some (s.ch, s.utf16, s.lossy)

/-- The loop over the extensions (`fatUtf.cpp:264-326`). Each turn passes a character, or is the
    last. -/
def oemExtensions : Nat → OemState → Option OemState
  | 0, _ => none
  | fuel + 1, s =>
    if s.ch = 0 then some s
    else
      match oemToDot s with
      | none => none
      | some (ch, utf16, lossy) =>
        if ch = 0x2e then
          match oemExtension utf16 [] s.letters (if 0 < s.bytes.length then true else lossy) with
          | none => none
          | some s => oemExtensions fuel { s with utf16 := s.utf16.tail }
        else oemExtensions fuel { s with ch := ch, utf16 := utf16, lossy := lossy }

/-- `FatFileSystem::utf16tooem` (`fatUtf.cpp:189-347`): `lossy`, and the bytes it leaves in `fcb`. -/
def utf16tooem (utf16 : List Nat) (fcb : Fcb) : Option (Bool × Fcb) := do
  let main ← oemMain utf16 [] 0 false
  let ext ← oemExtensions (main.utf16.length + 2) { main with bytes := [], letters := 0 }
  let ntRes := (if !ext.lossy && 0 < main.letters then NTRes_LOWER8 else 0) |||
    (if !ext.lossy && 0 < ext.letters then NTRes_LOWER3 else 0)
  pure (ext.lossy, fun i =>
    if i < 8 then UInt8.ofNat (main.bytes.getD i 0x20)
    else if i < 11 then UInt8.ofNat (ext.bytes.getD (i - 8) 0x20)
    else if i = DIR_NTRes then UInt8.ofNat ntRes
    else fcb i)

/-- A name with ASCII letters in lower case. -/
def foldName (name : List Nat) : List Nat :=
  name.map tolower

/-- The name is not empty, does not end with a dot and has no dot behind a dot. -/
def PlainDots (name : List Nat) : Prop :=
  name ≠ [] ∧ name.getLast? ≠ some 0x2e ∧ ¬ [0x2e, 0x2e] <:+: name

end EsOs.Fat
