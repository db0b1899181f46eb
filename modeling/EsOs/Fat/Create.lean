import Mathlib
import EsOs.Fat.Name
import EsOs.Fat.Time

/-!
# Making a directory entry

`FatStream::create` of `os/fs/fat/fatDirectory.cpp` with the functions of `fatUtf.cpp` that it
calls: the search for a name and for free entries, which gives the directory more clusters when it
has to, the cluster of a new directory, and the entries that are written at the end. The directory
is a stream, the size that its cache knows, and the records in its clusters. Letters are compared
with `utftolower` (`utf.c`), whose tables are a parameter. An access outside of an array has no
result.
-/

namespace EsOs.Fat

open EsOs.Es

def DIR_Attr : Nat := 11
def DIR_FstClusHI : Nat := 20
def DIR_FstClusLO : Nat := 26
def DIR_FileSize : Nat := 28

def LDIR_Ord : Nat := 0
def LDIR_Attr : Nat := 11
def LDIR_Chksum : Nat := 13
def LAST_LONG_ENTRY : Nat := 0x40

def ATTR_DIRECTORY : Nat := 0x10
def ATTR_ARCHIVE : Nat := 0x20
def ATTR_LONG_NAME : Nat := 0x0f

/-- `utf16icmp(a, b) == 0` (`utf.c:2240-2258`). -/
def utf16icmp (utftolower : Nat → Nat) (a b : List Nat) : Bool :=
  a.map utftolower == b.map utftolower

/-- `FatFileSystem::isEqual` (`fatUtf.cpp:399-415`). -/
def isEqual (utftolower : Nat → Nat) (fileName fcbName : List Nat) (fcb : Fcb) : Bool :=
  utf16icmp utftolower fileName fcbName ||
    match fcb.oemtoutf16 with
    | none => false
    | some oemName => utf16icmp utftolower fileName oemName

namespace Fcb

/-- The last byte of the base name that is no blank, from byte `i` down (`fatUtf.cpp:499-504`). -/
def lastByte (oem : Fcb) : Nat → Option Nat
  | 0 => if oem 0 = 0x20 then none else some 0
  | i + 1 => if oem (i + 1) = 0x20 then oem.lastByte i else some (i + 1)

/-- The loop over the digits of a numeric trail, at byte `s`: the byte before the tilde, and the
    number (`fatUtf.cpp:510-534`). -/
def trailLoop (oem : Fcb) : Nat → Nat → Nat → Nat → Option (Nat × Nat)
  | 0, _, _, _ => none
  | s + 1, n, d, k =>
    let ch := (oem (s + 1)).toNat
    if 0x30 ≤ ch ∧ ch ≤ 0x39 then
      let d := ch - 0x30
      oem.trailLoop s (n + d * k) d (k * 10)
    else if ch = 0x7e ∧ d ≠ 0 then some (s, n)
    else none

/-- `getNumericTrail(oem)` (`fatUtf.cpp:496-536`): where the base name ends without its numeric
    trail, and the trail. -/
def baseEnd (oem : Fcb) : Option (Nat × Nat) := do
  let s ← oem.lastByte 7
  pure ((oem.trailLoop s 0 0 1).getD (s, 0))

end Fcb

/-- `FatFileSystem::getNumericTrail` (`fatUtf.cpp:538-588`). -/
def getNumericTrail (oem fcb : Fcb) : Option Nat :=
  if oem 8 ≠ fcb 8 ∨ oem 9 ≠ fcb 9 ∨ oem 10 ≠ fcb 10 then some 0
  else do
    let (o2, n2) ← fcb.baseEnd
    if n2 = 0 then pure 0
    else
      let (o1, _) ← oem.baseEnd
      if o1 < o2 ∧ oem 7 = 0x20 then pure 0
      else if o2 < o1 ∧ fcb 7 = 0x20 then pure 0
      else if (List.range (min o1 o2 + 1)).all fun i => oem i == fcb i then pure n2
      else pure 0

/-- `FatFileSystem::setNumericTrail` (`fatUtf.cpp:590-627`). -/
def setNumericTrail (oem : Fcb) (n : Nat) : Option Fcb := do
  let k := (Nat.toDigits 10 n).length
  let (s, _) ← oem.baseEnd
  let last := min (s + 1 + k) 7
  pure fun i =>
    if i + k = last then 0x7e
    else if last < i + k ∧ i ≤ last then UInt8.ofNat (0x30 + n / 10 ^ (last - i) % 10)
    else oem i

/-- `ffs` of the C library. -/
def ffs (n : Nat) : Nat :=
  match (List.range 32).find? fun i => n.testBit i with
  | none => 0
  | some i => i + 1

/-- What `create` notes of a numeric trail in `numericMap` (`fatDirectory.cpp:315-327`). The number
    of places of the shift may be negative; the processor takes it modulo 32. -/
def noteTrail (numericTrail numericBase numericMap : Nat) : Nat :=
  if 0 < numericTrail ∧ (numericTrail : Int) - numericBase < 32 then
    numericMap ||| 0x80000000 >>> (((numericTrail : Int) - numericBase) % 32).toNat
  else numericMap

/-- What `create` throws. -/
inductive CreateError where
  | enametoolong
  | eacces
  | errno (e : Errno)
deriving DecidableEq, Repr

/-- What the variables and arrays of `create` have before they are set. -/
structure Unset where
  utf32 : Nat
  oem : Fcb
  ent : Fcb

/-- The name of a new entry: `fileName`, `lossy` and `oem`. -/
structure NewName where
  fileName : List Nat
  lossy : Bool
  oem : Fcb

/-- The conversion of the name (`fatDirectory.cpp:277-279`). -/
def newName (unset : Unset) (name : List UInt8) : Option (Except CreateError NewName) :=
  match utf8toutf16 unset.utf32 name with
  | none => none
  | some .wild => none
  | some .enametoolong => some (.error .enametoolong)
  | some (.units units) =>
    let fileName := units.map UInt16.toNat
    match utf16tooem fileName unset.oem with
    | none => some (.error .eacces)
    | some (lossy, oem) => some (.ok ⟨fileName, lossy, oem⟩)

/-- The bytes of entries that a name takes (`fatDirectory.cpp:281-286`). -/
def NewName.required (name : NewName) : Nat :=
  if name.lossy then 32 + 32 * ((name.fileName.length + 12) / 13) else 32

/-- A directory: its stream, the size that its cache knows, and the records in its clusters. -/
structure Directory where
  stream : FatStream
  cacheSize : Nat
  records : List Fcb

namespace Directory

/-- What can be read of it. -/
def entries (dir : Directory) : List Fcb :=
  dir.records.take (dir.cacheSize / 32)

/-- `dir->setSize(newSize)` (`cache.cpp:266-295`). The new clusters are zero. -/
def setSize (dir : Directory) (disk : FatDisk) (newSize : Nat) :
    Option (Option Errno × FatDisk × Directory) :=
  (dir.stream.setSize disk.toFatFileSystem newSize).map fun (err, s, f) =>
    match err with
    | some e => (some e, { disk with toFatFileSystem := s }, { dir with stream := f })
    | none => (none, { disk with toFatFileSystem := s },
      { stream := f, cacheSize := newSize
        records := dir.records ++
          List.replicate (f.size / 32 - dir.records.length) fun _ => 0 })

end Directory

/-- `freeRequired` and `off` of the search. -/
structure Search where
  freeRequired : Nat
  off : Nat
deriving DecidableEq, Repr

/-- The free entries are taken when they are enough (`fatDirectory.cpp:303-307`). -/
def Search.take (search : Search) (free : FreeSlot) : Search :=
  if 0 < search.freeRequired ∧ search.freeRequired ≤ free.freeSize then
    { freeRequired := 0, off := free.freeOffset }
  else search

/-- What one pass over the directory comes to: the name is there, or the search with the map of the
    numeric trails and the size that the directory is to have. -/
inductive Pass where
  | collides
  | ended (search : Search) (numericMap : Nat) (newSize : Option Nat)

/-- The loop of one pass (`fatDirectory.cpp:300-333`), up to the growth of the directory. Each turn
    passes an entry. -/
def passLoop (utftolower : Nat → Nat) (name : NewName) (numericBase size : Nat)
    (entries : List Fcb) : Nat → Nat → Search → Nat → Option Pass
  | 0, _, _, _ => none
  | fuel + 1, pos, search, numericMap =>
    match FatStream.findNext size search.freeRequired pos (entries.drop (pos / 32)) with
    | none => none
    | some (.missing free newSize) => some (.ended (search.take free) numericMap newSize)
    | some (.found ent longName pos free) =>
      let search := search.take free
      if isEqual utftolower name.fileName longName ent then some .collides
      else if name.lossy then
        match getNumericTrail name.oem ent with
        | none => none
        | some numericTrail =>
          let numericMap := noteTrail numericTrail numericBase numericMap
          if numericMap = 0xffffffff then some (.ended search numericMap none)
          else passLoop utftolower name numericBase size entries fuel pos search numericMap
      else passLoop utftolower name numericBase size entries fuel pos search numericMap

/-- One pass over the directory. -/
def pass (utftolower : Nat → Nat) (name : NewName) (numericBase : Nat) (dir : Directory)
    (search : Search) : Option Pass :=
  passLoop utftolower name numericBase dir.cacheSize dir.entries (dir.entries.length + 1) 0 search 0

/-- What the search comes to. -/
inductive Slot where
  | collides
  | threw (e : Errno)
  | found (off numericTrail : Nat)
deriving DecidableEq, Repr

/-- The loop over the bases of the numeric trails (`fatDirectory.cpp:290-338`), which has `fuel`
    turns left. -/
def findSlot (utftolower : Nat → Nat) (name : NewName) :
    Nat → Nat → Search → Nat → FatDisk → Directory → Option (Slot × FatDisk × Directory)
  | 0, numericBase, search, numericMap, disk, dir =>
    some (.found search.off (numericBase + if numericMap = 0 then 0 else 32 - ffs numericMap),
      disk, dir)
  | fuel + 1, numericBase, search, _, disk, dir =>
    match pass utftolower name numericBase dir search with
    | none => none
    | some .collides => some (.collides, disk, dir)
    | some (.ended search numericMap newSize) =>
      let grown := match newSize with
        | none => some (none, disk, dir)
        | some size => dir.setSize disk size
      match grown with
      | none => none
      | some (some e, disk, dir) => some (.threw e, disk, dir)
      | some (none, disk, dir) =>
        if name.lossy = false ∨ numericMap ≠ 0xffffffff then
          some (.found search.off (numericBase + if numericMap = 0 then 0 else 32 - ffs numericMap),
            disk, dir)
        else findSlot utftolower name fuel (numericBase + 32) search numericMap disk dir

/-- The number of turns of `for (numericBase = 1; numericBase < 999999; numericBase += 32)`. -/
def numericBases : Nat := 31250

/-- The entry for the new name, without its first cluster (`fatDirectory.cpp:353-371`). -/
def newFcb (name : NewName) (attr numericTrail : Nat) : Option Fcb :=
  let fcb : Fcb := fun i =>
    if DIR_CrtTimeTenth ≤ i ∧ i < 32 then 0 else name.oem i
  let fcb := Disk.xbyte fcb DIR_Attr
    (if attr &&& ATTR_DIRECTORY = 0 then ATTR_ARCHIVE else ATTR_ARCHIVE ||| ATTR_DIRECTORY)
  if name.lossy then setNumericTrail fcb numericTrail else some fcb

/-- `xword(fcb + DIR_FstClusLO, clus)`, `xword(fcb + DIR_FstClusHI, clus >> 16)`
    (`fatDirectory.cpp:379-380`). -/
def Fcb.setFstClus (fcb : Fcb) (clus : Nat) : Fcb :=
  Disk.xword (Disk.xword fcb DIR_FstClusLO clus) DIR_FstClusHI (clus >>> 16)

/-- The three times of a new entry (`fatDirectory.cpp:391-393`). -/
def Fcb.setTimes (fcb : Fcb) (now : DateTime) : Fcb :=
  (((FileEntry.mk fcb 0).setCreationTime now).setLastWriteTime now).setLastAccessTime now |>.fcb

/-- The entry `.` or `..` of a new directory, over what `ent` has (`fatDirectory.cpp:399-418`). -/
def dotEntry (ent : Fcb) (dots clus : Nat) (fcb : Fcb) : Fcb :=
  let ent : Fcb := fun i => if i < dots then 0x2e else if i < 11 then 0x20 else ent i
  let ent := Fcb.setFstClus (Disk.xbyte ent DIR_Attr ATTR_DIRECTORY) clus
  fun i =>
    if (DIR_CrtTimeTenth ≤ i ∧ i < DIR_CrtTimeTenth + 5) ∨
        (DIR_LstAccDate ≤ i ∧ i < DIR_LstAccDate + 2) ∨ (DIR_WrtTime ≤ i ∧ i < DIR_WrtTime + 4)
    then fcb i else ent i

/-- A write of the stream of a new directory up to the byte `upTo` (`cache.cpp:221-224`), whose
    cache knows `cacheSize`: the stream is grown first when it has to be. -/
def reach (disk : FatDisk) (f : FatStream) (cacheSize upTo : Nat) :
    Option (Option Errno × FatDisk × FatStream × Nat) :=
  if cacheSize < upTo then
    (f.setSize disk.toFatFileSystem upTo).map fun (err, s, f) =>
      (err, { disk with toFatFileSystem := s }, f, if err.isSome then cacheSize else upTo)
  else some (none, disk, f, cacheSize)

/-- `stream->fcb` after the size of the stream was set, if it was. -/
def Fcb.ofStream (fcb : Fcb) (grown : Bool) (f : FatStream) : Fcb :=
  if grown then
    Disk.xdword (Disk.xword (Disk.xword fcb DIR_FstClusLO f.fcbFstClusLO) DIR_FstClusHI
      f.fcbFstClusHI) DIR_FileSize f.fcbFileSize
  else fcb

/-- The entries `.` and `..` (`fatDirectory.cpp:395-421`): an error of the stream, or its entry and
    the two. -/
def writeDots (disk : FatDisk) (parent : FatStream) (fcb ent : Fcb) :
    Option (Except Errno (Fcb × Fcb × Fcb) × FatDisk) :=
  let f := disk.openStream false fcb
  match reach disk f f.size 32 with
  | none => none
  | some (some e, disk, _, _) => some (.error e, disk)
  | some (none, disk, f', cacheSize) =>
    let fcb := fcb.ofStream (f.size < 32) f'
    let dot := dotEntry ent 1 f'.fstClus fcb
    match reach disk f' cacheSize 64 with
    | none => none
    | some (some e, disk, _, _) => some (.error e, disk)
    | some (none, disk, f'', _) =>
      let fcb := fcb.ofStream (cacheSize < 64) f''
      some (.ok (fcb, dot, dotEntry dot 2 parent.fstClus fcb), disk)

/-- `FatFileSystem::fillLongName` (`fatUtf.cpp:438-494`): unit `i` of the name, its terminator, or
    the filling behind it. -/
def longUnit (fileName : List Nat) (i : Nat) : Nat :=
  if i < fileName.length then fileName.getD i 0 else if i = fileName.length then 0 else 0xffff

/-- An entry for a part of the long name (`fatDirectory.cpp:432-438`). -/
def longEntry (fileName : List Nat) (sum : UInt8) (ord last : Nat) : Fcb :=
  let ent : Fcb := Disk.xbyte (fun _ => 0) LDIR_Attr ATTR_LONG_NAME
  let ent : Fcb := Disk.xbyte ent LDIR_Chksum sum.toNat
  let ent : Fcb := Disk.xbyte ent LDIR_Ord (if ord = last then ord ||| LAST_LONG_ENTRY else ord)
  (List.range 13).foldl (fun ent i =>
    Disk.xword ent (pieceOffsets.reverse.getD i 0) (longUnit fileName ((ord - 1) * 13 + i))) ent

/-- The entries of a new name: those of the long name from the last part to the first, and the
    entry itself (`fatDirectory.cpp:427-451`). -/
def newEntries (name : NewName) (fcb : Fcb) : List Fcb :=
  let last := name.required / 32 - 1
  ((List.range last).map fun i => longEntry name.fileName fcb.getChecksum (last - i) last) ++ [fcb]

/-- Writes entries over those from byte `off` on. -/
def Directory.write (dir : Directory) (off : Nat) (new : List Fcb) : Directory :=
  { dir with
    records := dir.records.take (off / 32) ++ new ++ dir.records.drop (off / 32 + new.length) }

/-- What `create` comes to: it returns 0 or throws, or it returns a stream, with its entry, the
    place of the entry, and the two entries of a new directory. -/
inductive Created where
  | null
  | threw (e : CreateError)
  | stream (fcb : Fcb) (offset : Nat) (dots : Option (Fcb × Fcb))

/-- The part of `create` from the free entries at `off` on (`fatDirectory.cpp:350-455`). -/
def createAt (name : NewName) (attr : Nat) (now : DateTime) (ent : Fcb) (off numericTrail : Nat)
    (disk : FatDisk) (dir : Directory) : Option (Created × FatDisk × Directory) :=
  match newFcb name attr numericTrail with
  | none => none
  | some fcb =>
    if attr &&& ATTR_DIRECTORY = 0 then
      let fcb := (fcb.setFstClus 0).setTimes now
      some (.stream fcb (off + name.required - 32) none, disk, dir.write off (newEntries name fcb))
    else
      match disk.allocCluster 1 true with
      | none => none
      | some (clus, s) =>
        let disk := { disk with toFatFileSystem := s }
        let fcb := (fcb.setFstClus clus).setTimes now
        match writeDots disk dir.stream fcb ent with
        | none => none
        | some (.error e, disk) => some (.threw (.errno e), disk, dir)
        | some (.ok (fcb, dot, dotdot), disk) =>
          some (.stream fcb (off + name.required - 32) (some (dot, dotdot)), disk,
            dir.write off (newEntries name fcb))

/-- `ent` after the passes: the entry that was read last. -/
def lastRead (ent : Fcb) : List Fcb → Fcb
  | [] => ent
  | e :: entries => if e 0 = 0 then e else lastRead e entries

/-- `FatStream::create` (`fatDirectory.cpp:251-456`) of a directory that is not removed, for a name
    of UTF-8. -/
def create (utftolower : Nat → Nat) (unset : Unset) (now : DateTime) (name : List UInt8)
    (attr : Nat) (disk : FatDisk) (dir : Directory) : Option (Created × FatDisk × Directory) :=
  if dir.stream.isDirectory = false then some (.null, disk, dir)
  else
    match newName unset name with
    | none => none
    | some (.error e) => some (.threw e, disk, dir)
    | some (.ok name) =>
      match findSlot utftolower name numericBases 1 ⟨name.required, DIR_LIMIT⟩ 0 disk dir with
      | none => none
      | some (.collides, disk, dir) => some (.null, disk, dir)
      | some (.threw e, disk, dir) => some (.threw (.errno e), disk, dir)
      | some (.found off numericTrail, disk, dir) =>
        if DIR_LIMIT ≤ off then some (.null, disk, dir)
        else createAt name attr now (lastRead unset.ent dir.entries) off numericTrail disk dir

/-- `FatStream::createSubcontext` (`fatContext.cpp:64-79`), where the path leads to the directory
    and leaves `name`. -/
def createSubcontext (utftolower : Nat → Nat) (unset : Unset) (now : DateTime) (canWrite : Bool)
    (name : List UInt8) (disk : FatDisk) (dir : Directory) :
    Option (Created × FatDisk × Directory) :=
  if canWrite = false then some (.threw .eacces, disk, dir)
  else if name = [] ∨ 0x2f ∈ name ∨ 0x5c ∈ name then some (.null, disk, dir)
  else create utftolower unset now name ATTR_DIRECTORY disk dir

end EsOs.Fat
