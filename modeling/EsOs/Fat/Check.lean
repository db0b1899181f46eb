import EsOs.Lib.Chain
import EsOs.Fat.Volume

/-!
# The consistency check of a FAT volume

`FatFileSystem::check` and `FatStream::check` of `os/fs/fat/fatCheck.cpp`, with the size that a
directory is given when it is opened (`fatCluster.cpp`), the constructor of a stream
(`fatStream.cpp`) and the entries that `findNext` shows (`fatDirectory.cpp`). The content of a
directory is what the disk holds in the clusters of its chain: nothing is open while the check runs,
so that a stream found by `lookup` is the one its entry makes. The reports and the long names are
left out.
-/

namespace EsOs.Fat

open EsOs.Lib

/-- A value kept in a `u8`. -/
def u8 (n : Nat) : Nat :=
  n % 256

namespace Bpb

/-- `FatFileSystem::isBadCluster` (`fatFileSystem.cpp:281-305`). -/
def isBadCluster (s : Bpb) (clus : Nat) : Bool :=
  if s.isFat12 then 0x0FF7 == clus
  else if s.isFat16 then 0xFFF7 == clus
  else 0x0FFFFFF7 == clus

/-- `clus < 2 || isBadCluster(clus) || countOfClusters + 2 <= clus`, the test of `calcSize` and of
    `check` on a cluster of a chain (`fatCluster.cpp:49`, `fatCheck.cpp:65`). -/
def outOfRange (s : Bpb) (clus : Nat) : Bool :=
  clus < 2 || s.isBadCluster clus || u32 (s.countOfClusters + 2) ≤ clus

/-- `(size + bytsPerClus - 1) & ~(bytsPerClus - 1)` in 32 bits (`fatCheck.cpp:79`). -/
def roundedSize (s : Bpb) (size : Nat) : Nat :=
  s.clusterMask (u32 (size + s.bytsPerClus - 1))

end Bpb

/-- `FatFileSystem` with what `mount` knows of the root directory (`fatFileSystem.cpp:409-446`). -/
structure FatDisk extends FatFileSystem where
  /-- `word(bpb + BPB_RootEntCnt)` -/
  rootEntCnt : Nat
  /-- `dword(bpb + BPB_RootClus)` -/
  rootClus : Nat
  firstRootDirSector : Nat

/-- A directory entry of 32 bytes. -/
abbrev Fcb := Nat → UInt8

namespace Fcb

/-- `fcb[DIR_Attr]` -/
def attr (fcb : Fcb) : Nat :=
  (fcb 11).toNat

/-- `FatFileSystem::isFreeEntry` (`fatFileSystem.cpp:88-92`). -/
def isFreeEntry (fcb : Fcb) : Bool :=
  fcb 0 == 0xe5 || fcb 0 == 0

/-- `FatFileSystem::isLongNameComponent` (`fatFileSystem.cpp:124-128`). -/
def isLongNameComponent (fcb : Fcb) : Bool :=
  fcb.attr &&& 0x3f == 0x0f

/-- `FatFileSystem::isVolumeID` (`fatFileSystem.cpp:130-134`). -/
def isVolumeID (fcb : Fcb) : Bool :=
  fcb.attr &&& 0x08 != 0

/-- `FatFileSystem::isDirectory` (`fatFileSystem.cpp:106-110`). -/
def isDirectory (fcb : Fcb) : Bool :=
  fcb.attr &&& 0x10 != 0

/-- `word(fcb + DIR_FstClusLO) | (word(fcb + DIR_FstClusHI) << 16)` (`fatStream.cpp:330`). -/
def fstClus (fcb : Fcb) : Nat :=
  Disk.word fcb 26 ||| Disk.word fcb 20 <<< 16

end Fcb

/-- `clusRefs`, the reference count of each cluster. -/
abbrev ClusRefs := Nat → Nat

/-- `++clusRefs[clus]`, where `wrap` is what the element keeps of the sum. -/
def ClusRefs.inc (wrap : Nat → Nat) (clusRefs : ClusRefs) (clus : Nat) : ClusRefs := fun n =>
  if n = clus then wrap (clusRefs n + 1) else clusRefs n

namespace FatDisk

/-- The loop of `calcSize` (`fatCluster.cpp:47-60`). -/
def calcLoop (s : FatDisk) : Nat → Nat → Nat → Nat
  | 0, _, size => size
  | turns + 1, clus, size =>
    if s.isEof clus || s.outOfRange clus then size
    else
      let size := u32 (size + s.bytsPerClus)
      let clus := s.clusEntryVal clus
      if DIR_LIMIT < size then size else calcLoop s turns clus size

/-- `FatFileSystem::calcSize` (`fatCluster.cpp:32-62`). No turn adds less than a byte, so that the
    loop is left within the turns it is given. -/
def calcSize (s : FatDisk) (clus : Nat) : Nat :=
  if clus = 0 ∧ s.isFat32 = false then 32 * s.rootEntCnt
  else
    let clus := if clus = 0 then s.rootClus else clus
    s.calcLoop (DIR_LIMIT / s.bytsPerClus + 2) clus 0

/-- The `FatStream` of a directory entry, as the constructor makes it (`fatStream.cpp:315-364`). -/
def openStream (s : FatDisk) (isRoot : Bool) (fcb : Fcb) : FatStream where
  isDirectory := fcb.isDirectory
  isRoot := isRoot
  fstClus := fcb.fstClus
  size := if fcb.isDirectory then s.calcSize fcb.fstClus else Disk.dword fcb 28
  fcbFstClusLO := Disk.word fcb 26
  fcbFstClusHI := Disk.word fcb 20
  fcbFileSize := Disk.dword fcb 28
  lastPosition := 0
  lastClus := fcb.fstClus

/-- The root node of `mount` (`fatFileSystem.cpp:539-549`): a directory without a parent, and at
    `BPB_RootClus` on FAT32. -/
def root (s : FatDisk) : FatStream :=
  let clus := if s.isFat32 then u32 s.rootClus else 0
  { isDirectory := true
    isRoot := true
    fstClus := clus
    size := s.calcSize clus
    fcbFstClusLO := clus % 65536
    fcbFstClusHI := clus / 65536
    fcbFileSize := 0
    lastPosition := 0
    lastClus := clus }

/-- The byte that a read of the directory finds at `pos`: in the root directory area, or in the
    cluster that `getClusNum` finds for it (`fatCluster.cpp:64-118`). -/
def dirByte (s : FatDisk) (f : FatStream) (pos : Nat) : UInt8 :=
  let secNum :=
    if f.fstClus = 0 then s.firstRootDirSector + pos / s.bytsPerSec
    else s.firstSectorOfCluster (FatStream.followLoop s.toFatFileSystem (pos / s.bytsPerClus)
      f.fstClus) + pos % s.bytsPerClus / s.bytsPerSec
  s.disk (u32 (u32 secNum * s.bytsPerSec) + pos % s.bytsPerSec)

/-- The streams of the entries that calls of `findNext` show, from `pos` on where there are `n`
    entries of 32 bytes (`fatDirectory.cpp:73-171`): up to the first entry that was never used,
    without free entries, parts of long names and volume labels. -/
def entriesFrom (s : FatDisk) (f : FatStream) : Nat → Nat → List FatStream
  | 0, _ => []
  | n + 1, pos =>
    let ent : Fcb := fun i => s.dirByte f (pos + i)
    if ent.isFreeEntry then
      if ent 0 = 0 then [] else entriesFrom s f n (pos + 32)
    else if ent.isLongNameComponent || ent.isVolumeID then entriesFrom s f n (pos + 32)
    else s.openStream false ent :: entriesFrom s f n (pos + 32)

/-- The streams that `check` goes over in a directory (`fatCheck.cpp:93-121`): in a directory other
    than the root it skips the first two entries. -/
def entries (s : FatDisk) (f : FatStream) : List FatStream :=
  let pos := if f.isRoot then 0 else min 64 f.size
  s.entriesFrom f ((f.size - pos) / 32) pos

/-- The loop of `FatStream::check` over the chain (`fatCheck.cpp:63-83`): the length that it leaves
    with, or nothing where it returns `false`. -/
def chainLoop (s : FatDisk) (wrap : Nat → Nat) (rounded : Nat) :
    Nat → ClusRefs → Nat → Nat → Option Nat × ClusRefs
  | 0, clusRefs, chainLen, _ => (some chainLen, clusRefs)
  | turns + 1, clusRefs, chainLen, clus =>
    if s.isEof clus then (some chainLen, clusRefs)
    else if s.outOfRange clus then (none, clusRefs)
    else
      let clusRefs := clusRefs.inc wrap clus
      if 2 ≤ clusRefs clus then (none, clusRefs)
      else
        let chainLen := chainLen + s.bytsPerClus
        let clus := s.clusEntryVal clus
        if rounded < chainLen then (some chainLen, clusRefs)
        else chainLoop s wrap rounded turns clusRefs chainLen clus

/-- `FatStream::check` from the loop to the comparison of the sizes (`fatCheck.cpp:63-90`). The loop
    is left when the length has passed the size. -/
def checkChain (s : FatDisk) (wrap : Nat → Nat) (f : FatStream) (clusRefs : ClusRefs) :
    Bool × ClusRefs :=
  let rounded := s.roundedSize f.size
  match s.chainLoop wrap rounded (rounded / s.bytsPerClus + 1) clusRefs 0 f.fstClus with
  | (none, clusRefs) => (false, clusRefs)
  | (some chainLen, clusRefs) => (rounded == chainLen, clusRefs)

/-- The loop of `FatStream::check` over the entries of a directory (`fatCheck.cpp:101-121`). -/
def checkAll (check : FatStream → ClusRefs → Option (Bool × ClusRefs)) :
    List FatStream → Bool → ClusRefs → Option (Bool × ClusRefs)
  | [], result, clusRefs => some (result, clusRefs)
  | next :: rest, result, clusRefs =>
    match check next clusRefs with
    | none => none
    | some (clean, clusRefs) => checkAll check rest (result && clean) clusRefs

/-- `FatStream::check` (`fatCheck.cpp:32-125`) where the calls nest no deeper than `depth`; nothing
    when they do. -/
def checkStream (s : FatDisk) (wrap : Nat → Nat) :
    Nat → FatStream → ClusRefs → Option (Bool × ClusRefs)
  | 0, _, _ => none
  | depth + 1, f, clusRefs =>
    if f.fstClus = 0 then
      if f.isDirectory then
        if s.isFat32 || !f.isRoot then some (false, clusRefs)
        else checkAll (checkStream s wrap depth) (s.entries f) true clusRefs
      else some (f.size == 0, clusRefs)
    else
      match s.checkChain wrap f clusRefs with
      | (false, clusRefs) => some (false, clusRefs)
      | (true, clusRefs) =>
        if f.isDirectory then checkAll (checkStream s wrap depth) (s.entries f) true clusRefs
        else some (true, clusRefs)

/-- The counts that `FatFileSystem::check` begins with (`fatCheck.cpp:143-161`): a cluster whose
    entry is zero or bad counts as referenced. -/
def initRefs (s : FatDisk) : ClusRefs := fun n =>
  if n < 2 then 1
  else if n ≤ s.countOfClusters + 1 ∧
      (s.clusEntryVal n = 0 ∨ s.isBadCluster (s.clusEntryVal n)) then 1
  else 0

/-- `FatFileSystem::check` (`fatCheck.cpp:127-168`) where the calls nest no deeper than `depth`. -/
def check (s : FatDisk) (depth : Nat) : Option Bool :=
  (s.checkStream u8 depth s.root s.initRefs).map Prod.fst

/-- The stream that is reached from `f` over the entries with the numbers `path`. -/
def below (s : FatDisk) (f : FatStream) : List Nat → Option FatStream
  | [] => some f
  | i :: path =>
    if f.isDirectory then (s.entries f)[i]?.bind fun next => s.below next path else none

/-- `l` is the chain of the stream: its clusters up to an end mark, none when it has no first
    cluster. -/
def ChainOf (s : FatDisk) (f : FatStream) (l : List Nat) : Prop :=
  (f.fstClus = 0 ∧ l = []) ∨
    (f.fstClus ≠ 0 ∧ Chain s.clusEntryVal (fun c => s.isEof c = true) f.fstClus l)

/-- What a clean volume is: every chain that is reached from the root directory is in range and
    comes back to none of its clusters, two of them have no cluster in common, and that of a file
    is as long as its size says. -/
structure Consistent (s : FatDisk) : Prop where
  chain : ∀ path f, s.below s.root path = some f → ∃ l, s.ChainOf f l ∧ l.Nodup ∧
    (∀ c ∈ l, s.IsCluster c) ∧ (f.isDirectory = false → l.length = s.clustersFor f.size)
  apart : ∀ path path' f g l k, s.below s.root path = some f → s.below s.root path' = some g →
    path ≠ path' → s.ChainOf f l → s.ChainOf g k → l.Disjoint k

/-- How often the clusters are referenced: the counts of the same walk where they do not wrap. It
    enters a directory once, so that its calls nest no deeper than there are clusters. -/
def references (s : FatDisk) : ClusRefs :=
  match s.checkStream id (s.countOfClusters + 2) s.root s.initRefs with
  | none => s.initRefs
  | some (_, clusRefs) => clusRefs

/-- No count passes what a `u8` holds. -/
def CountsFit (s : FatDisk) : Prop :=
  ∀ c < s.countOfClusters + 2, s.references c < 256

/-- The size of a file that begins with an end mark is rounded up without a wrap. -/
def SizesFit (s : FatDisk) : Prop :=
  ∀ path f, s.below s.root path = some f → f.isDirectory = false → s.isEof f.fstClus = true →
    f.size + s.bytsPerClus ≤ 4294967296

end FatDisk

end EsOs.Fat
