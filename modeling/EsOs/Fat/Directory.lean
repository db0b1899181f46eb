import EsOs.Fat.Check

/-!
# Reading a directory

`findNext` of `os/fs/fat/fatDirectory.cpp` and `getName` of `os/fs/fat/fatBinding.cpp`, which decode
the long names of a directory, with `assembleLongName` and `oemtoutf16` of `fatUtf.cpp`. A directory
stream is the list of its whole entries from the current position on. An access outside of an array
has no result. The UTF-8 that `getName` makes of the name is left out.
-/

namespace EsOs.Fat

/-- `DIR_NTRes`, `NTRes_LOWER3` and `NTRes_LOWER8` (`fat.h:99`, `fat.h:137-138`). -/
def DIR_NTRes : Nat := 12
def NTRes_LOWER3 : Nat := 0x10
def NTRes_LOWER8 : Nat := 0x08

/-- The map of `isValidShortChar` (`fatUtf.cpp:57-72`). -/
def shortCharMap : List Nat :=
  [0x00000000, 0xdfc6ffc0, 0xffffffe3, 0x80000016, 0x00000000, 0x00000000, 0x00000000, 0x00000000]

/-- `FatFileSystem::isValidShortChar` (`fatUtf.cpp:54-74`). -/
def isValidShortChar (ch : UInt8) : Bool :=
  shortCharMap.getD (ch.toNat / 32) 0 &&& (0x80000000 >>> (ch.toNat % 32)) != 0

/-- `tolower` of the C locale. -/
def tolower (ch : Nat) : Nat :=
  if 0x41 ≤ ch ∧ ch ≤ 0x5a then ch + 0x20 else ch

namespace Fcb

/-- `ent[LDIR_Ord]` -/
def ldirOrd (fcb : Fcb) : Nat :=
  (fcb 0).toNat

/-- `ent[LDIR_Ord] & LAST_LONG_ENTRY` -/
def isLastLongEntry (fcb : Fcb) : Bool :=
  fcb.ldirOrd &&& 0x40 != 0

/-- `ent[LDIR_Ord] & ~LAST_LONG_ENTRY` -/
def order (fcb : Fcb) : Nat :=
  fcb.ldirOrd &&& 0xbf

/-- `ent[LDIR_Chksum]` -/
def chksum (fcb : Fcb) : UInt8 :=
  fcb 13

/-- `FatFileSystem::getChecksum` (`fatFileSystem.cpp:76-86`). -/
def getChecksum (fcb : Fcb) : UInt8 :=
  (List.range 11).foldl
    (fun sum i => (if sum &&& 1 != 0 then (0x80 : UInt8) else 0) + (sum >>> 1) + fcb i) 0

/-- The units that `oemtoutf16` makes of the bytes of a part of the short name, up to the last byte
    that is no blank, or nothing where a byte is not valid (`fatUtf.cpp:101-128`,
    `fatUtf.cpp:130-157`). -/
def oemPart (fcb : Fcb) (first len lower : Nat) : Option (List Nat) :=
  let bytes := ((List.range len).map fun i => fcb (first + i)).reverse.dropWhile (· == 0x20)
  if bytes.all isValidShortChar then
    some (bytes.reverse.map fun ch =>
      if (fcb DIR_NTRes).toNat &&& lower != 0 then tolower ch.toNat else ch.toNat)
  else none

/-- `FatFileSystem::oemtoutf16` (`fatUtf.cpp:96-162`): the units before the terminator. -/
def oemtoutf16 (fcb : Fcb) : Option (List Nat) :=
  if (List.range 8).all fun i => fcb i == 0x20 then none
  else do
    let main ← fcb.oemPart 0 8 NTRes_LOWER8
    let extension ← fcb.oemPart 8 3 NTRes_LOWER3
    pure (if extension.isEmpty then main else main ++ 0x2e :: extension)

end Fcb

/-- The units of `u16 longName[13 * 20 + 1]` by their index. -/
abbrev LongName := Int → Nat

namespace LongName

/-- `longName[l] = unit` -/
def put (longName : LongName) (l : Int) (unit : Nat) : Option LongName :=
  if 0 ≤ l ∧ l < 13 * 20 + 1 then some fun i => if i = l then unit else longName i else none

/-- `longName[l]` -/
def get (longName : LongName) (l : Int) : Option Nat :=
  if 0 ≤ l ∧ l < 13 * 20 + 1 then some (longName l) else none

/-- `utf16cpy` (`utf.c:2298-2306`) from `longName + l` to an array of `room` units: the units before
    the terminator. -/
def utf16cpy (longName : LongName) : Nat → Int → Option (List Nat)
  | 0, _ => none
  | room + 1, l => do
    let unit ← longName.get l
    if unit = 0 then pure []
    else
      let rest ← utf16cpy longName room (l + 1)
      pure (unit :: rest)

end LongName

/-- Where `assembleLongName` finds the units of a piece, in its own order: `LDIR_Name3`,
    `LDIR_Name2` and `LDIR_Name1` from their ends (`fatUtf.cpp:423-434`). -/
def pieceOffsets : List Nat :=
  [28 + 2, 28 + 0, 14 + 10, 14 + 8, 14 + 6, 14 + 4, 14 + 2, 14 + 0, 1 + 8, 1 + 6, 1 + 4, 1 + 2, 1 + 0]

/-- What the readers of a directory keep of a long name: `ord`, `sum`, `longName` and the index of
    `l` in it. -/
structure Decoder where
  ord : Int
  sum : UInt8
  longName : LongName
  l : Int

namespace Decoder

/-- `ord = -1`; the other variables have no value yet (`fatDirectory.cpp:77-80`). -/
def init : Decoder where
  ord := -1
  sum := 0
  longName := fun _ => 0
  l := 0

/-- What is done before an entry while `ord < 0` (`fatDirectory.cpp:88-92`). -/
def restart (d : Decoder) : Decoder :=
  if d.ord < 0 then
    { d with l := 13 * 20, longName := fun i => if i = 13 * 20 then 0 else d.longName i }
  else d

/-- `ord = -1` -/
def orphan (d : Decoder) : Decoder :=
  { d with ord := -1 }

/-- `FatFileSystem::assembleLongName` (`fatUtf.cpp:417-436`). -/
def assembleLongName (d : Decoder) (ent : Fcb) : Option Decoder :=
  pieceOffsets.foldlM (fun d offset => do
    let l := d.l - 1
    let longName ← d.longName.put l (Disk.word ent offset)
    pure { d with longName := longName, l := l }) d

/-- What is done with a piece of a long name (`fatDirectory.cpp:113-136`,
    `fatBinding.cpp:95-118`). -/
def piece (d : Decoder) (ent : Fcb) : Option Decoder :=
  if ent.isLastLongEntry then
    let ord := ent.order
    if 0 < ord ∧ ord ≤ 20 then do
      let d ← { d with sum := ent.chksum }.assembleLongName ent
      pure { d with ord := ord - 1 }
    else some d.orphan
  else if 0 < d.ord ∧ d.ord = ent.ldirOrd ∧ d.sum = ent.chksum then do
    let d ← d.assembleLongName ent
    pure { d with ord := d.ord - 1 }
  else some d.orphan

end Decoder

/-- The free entries that `findNext` has found: `freeOffset` and `freeSize`. -/
structure FreeSlot where
  freeOffset : Nat
  freeSize : Nat
deriving DecidableEq, Repr

namespace FreeSlot

/-- What is done with a free entry at `pos` (`fatDirectory.cpp:96-104`). -/
def see (s : FreeSlot) (freeRequired pos : Nat) : FreeSlot :=
  if s.freeOffset + s.freeSize = pos then { s with freeSize := s.freeSize + 32 }
  else if s.freeSize < freeRequired then { freeOffset := pos, freeSize := 32 }
  else s

/-- What is done at the end of the entries, at `pos` (`fatDirectory.cpp:156-170`): the free entries,
    and the size that the directory is given to hold them. -/
def extend (s : FreeSlot) (freeRequired pos size : Nat) : FreeSlot × Option Nat :=
  if s.freeSize < freeRequired then
    let freeOffset := if s.freeOffset + s.freeSize ≠ pos then pos else s.freeOffset
    ({ freeOffset := freeOffset, freeSize := freeRequired },
      if size < freeOffset + freeRequired then some (freeOffset + freeRequired) else none)
  else (s, none)

end FreeSlot

/-- What `findNext` leaves behind. -/
inductive Next where
  /-- `true`: the entry, its long name and the position behind it. -/
  | found (ent : Fcb) (fileName : List Nat) (pos : Nat) (free : FreeSlot)
  /-- `false`: the free entries, and the size that the directory is to have. -/
  | missing (free : FreeSlot) (newSize : Option Nat)

namespace FatStream

/-- The loop of `findNext` (`fatDirectory.cpp:86-154`) over the entries from `pos` on, with what
    follows it. -/
def findNextLoop (size freeRequired : Nat) :
    Decoder → FreeSlot → Nat → List Fcb → Option Next
  | _, free, pos, [] =>
    let (free, newSize) := free.extend freeRequired pos size
    some (.missing free newSize)
  | d, free, pos, ent :: rest =>
    let d := d.restart
    let pos := pos + 32
    if ent.isFreeEntry then
      let free := free.see freeRequired (pos - 32)
      if ent 0 = 0 then
        let (free, newSize) := free.extend freeRequired pos size
        some (.missing free newSize)
      else findNextLoop size freeRequired d.orphan free pos rest
    else if ent.isLongNameComponent then do
      let d ← d.piece ent
      findNextLoop size freeRequired d free pos rest
    else if !ent.isVolumeID then
      if d.ord = 0 ∧ d.sum = ent.getChecksum then do
        let fileName ← d.longName.utf16cpy 256 d.l
        pure (.found ent fileName pos free)
      else some (.found ent [] pos free)
    else findNextLoop size freeRequired d.orphan free pos rest

/-- `FatStream::findNext` (`fatDirectory.cpp:73-171`) with a `fileName` of 256 units, as every
    caller has it, in a directory of `size` bytes, whose entries from `pos` on are `entries`. -/
def findNext (size freeRequired pos : Nat) (entries : List Fcb) : Option Next :=
  findNextLoop size freeRequired .init { freeOffset := 0, freeSize := 0 } pos entries

/-- The loop of `getName` (`fatBinding.cpp:77-141`). -/
def getNameLoop (offset : Nat) : Decoder → Nat → List Fcb → Option (Option (List Nat))
  | _, _, [] => some none
  | d, pos, fcb :: rest =>
    if fcb 0 = 0 then some none
    else
      let d := d.restart
      let pos := pos + 32
      if fcb.isFreeEntry then getNameLoop offset d.orphan pos rest
      else if fcb.isLongNameComponent then do
        let d ← d.piece fcb
        getNameLoop offset d pos rest
      else if !fcb.isVolumeID then
        if pos - 32 = offset then
          if d.ord ≠ 0 ∨ d.sum ≠ fcb.getChecksum then some fcb.oemtoutf16
          else do
            let name ← d.longName.utf16cpy (13 * 20 + 1) d.l
            pure (some name)
        else getNameLoop offset d.orphan pos rest
      else getNameLoop offset d.orphan pos rest

/-- `FatStream::getName` (`fatBinding.cpp:51-145`) of a stream whose entry is at `offset` of the
    directory with the entries `entries`: the units of the name that are copied out. The root and a
    removed stream have none. -/
def getName (isRoot isRemoved : Bool) (offset : Nat) (entries : List Fcb) :
    Option (Option (List Nat)) :=
  if isRoot || isRemoved then some none else getNameLoop offset .init 0 entries

end FatStream

end EsOs.Fat
