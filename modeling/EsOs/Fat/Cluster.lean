/-!
# Clusters of a FAT volume

The file allocation table and the streams that are laid out in it: `clusEntryVal`,
`setClusEntryVal`, `allocCluster` and `freeCluster` of `os/fs/fat/fatCluster.cpp`, `getClusNum` and
`setSize` of `os/fs/fat/fatStream.cpp`.

The disk is a map from byte offsets to bytes, as `diskStream` and `partition` both show it. A `u32`
is a natural number below `2^32` and its sums and products wrap. The monitors, the time stamps of a
stream and the copy of its entry in the parent directory are left out, and so are the `ASSERT`s.
-/

namespace EsOs.Fat

/-- A value kept in a `u32`. -/
def u32 (n : Nat) : Nat :=
  n % 4294967296

/-- The difference of two `u32`. -/
def sub32 (a b : Nat) : Nat :=
  if b ≤ a then a - b else a + 4294967296 - b

/-- `DIR_LIMIT` (`fat.h:136`). -/
def DIR_LIMIT : Nat :=
  65536 * 32

/-- The errors that `setSize` throws. -/
inductive Errno where
  | einval
  | enospc
deriving DecidableEq, Repr

/-- The bytes of the disk by their offset. -/
abbrev Disk := Nat → UInt8

namespace Disk

/-- `word(buf)` of two bytes read at `offset` (`endian.h:30-33`). -/
def word (disk : Disk) (offset : Nat) : Nat :=
  (disk offset).toNat ||| (disk (offset + 1)).toNat <<< 8

/-- `dword(buf)` of four bytes read at `offset` (`endian.h:35-38`). -/
def dword (disk : Disk) (offset : Nat) : Nat :=
  (disk offset).toNat ||| (disk (offset + 1)).toNat <<< 8 ||| (disk (offset + 2)).toNat <<< 16 |||
    (disk (offset + 3)).toNat <<< 24

/-- Writes at `offset` the two bytes that `xword(buf, v)` makes (`endian.h:45-49`). -/
def xword (disk : Disk) (offset v : Nat) : Disk := fun i =>
  if i = offset then UInt8.ofNat v
  else if i = offset + 1 then UInt8.ofNat (v >>> 8)
  else disk i

/-- Writes at `offset` the four bytes that `xdword(buf, v)` makes (`endian.h:51-57`). -/
def xdword (disk : Disk) (offset v : Nat) : Disk := fun i =>
  if i = offset then UInt8.ofNat v
  else if i = offset + 1 then UInt8.ofNat (v >>> 8)
  else if i = offset + 2 then UInt8.ofNat (v >>> 16)
  else if i = offset + 3 then UInt8.ofNat (v >>> 24)
  else disk i

/-- Writes `count` zero bytes at `offset`. -/
def clear (disk : Disk) (offset count : Nat) : Disk := fun i =>
  if offset ≤ i ∧ i < offset + count then 0 else disk i

/-- One write for each of `n` tables, `step` bytes apart: the loop of `setClusEntryVal` over
    `BPB_NumFATs` (`fatCluster.cpp:344-349`). -/
def eachFat (write : Disk → Nat → Disk) (step : Nat) : Nat → Nat → Disk → Disk
  | 0, _, disk => disk
  | n + 1, offset, disk => eachFat write step n (offset + step) (write disk offset)

end Disk

/-- What `mount` reads from the BIOS parameter block of the volume and derives from it
    (`fatFileSystem.cpp:409-433`). -/
structure Bpb where
  /-- `word(bpb + BPB_RsvdSecCnt)` -/
  rsvdSecCnt : Nat
  /-- `bpb[BPB_NumFATs]` -/
  numFATs : Nat
  /-- `byte(bpb + BPB_SecPerClus)` -/
  secPerClus : Nat
  bytsPerSec : Nat
  bytsPerClus : Nat
  fatSz : Nat
  firstDataSector : Nat
  countOfClusters : Nat
deriving DecidableEq, Repr

namespace Bpb

/-- `FatFileSystem::isFat12` (`fatFileSystem.cpp:58-62`). -/
def isFat12 (s : Bpb) : Bool :=
  s.countOfClusters < 4085

/-- `FatFileSystem::isFat16` (`fatFileSystem.cpp:64-68`). -/
def isFat16 (s : Bpb) : Bool :=
  4085 ≤ s.countOfClusters && s.countOfClusters < 65525

/-- `FatFileSystem::isFat32` (`fatFileSystem.cpp:70-74`). -/
def isFat32 (s : Bpb) : Bool :=
  65525 ≤ s.countOfClusters

/-- `FatFileSystem::isEof` (`fatFileSystem.cpp:275-279`). -/
def isEof (s : Bpb) (clus : Nat) : Bool :=
  u32 (s.countOfClusters + 1) < clus

/-- `FatFileSystem::firstSectorOfCluster` (`fatFileSystem.cpp:262-273`) of a cluster that is not
    the root directory. -/
def firstSectorOfCluster (s : Bpb) (n : Nat) : Nat :=
  u32 (sub32 n 2 * s.secPerClus + s.firstDataSector)

/-- `fatOffset` of `clusEntryVal` (`fatCluster.cpp:259-270`). -/
def fatOffset (s : Bpb) (n : Nat) : Nat :=
  if s.isFat12 then u32 (n + n / 2)
  else if s.isFat16 then u32 (n * 2)
  else u32 (n * 4)

/-- `offset` of `clusEntryVal` (`fatCluster.cpp:272-274`): where on the disk the entry is. -/
def entryOffset (s : Bpb) (n : Nat) : Nat :=
  u32 (u32 (s.rsvdSecCnt + s.fatOffset n / s.bytsPerSec) * s.bytsPerSec +
    s.fatOffset n % s.bytsPerSec)

/-- The clusters that hold `size` bytes, as it is computed in 32 bits (`fatStream.cpp:126`). -/
def clustersOf (s : Bpb) (size : Nat) : Nat :=
  sub32 (u32 (size + s.bytsPerClus)) 1 / s.bytsPerClus

/-- `position & ~(bytsPerClus - 1)`: the mask is a `u32`. -/
def clusterMask (s : Bpb) (position : Nat) : Nat :=
  position &&& (4294967295 - (s.bytsPerClus - 1))

end Bpb

/-- The fields of `FatFileSystem` that the cluster routines use, with the disk (`fatStream.h`). -/
structure FatFileSystem extends Bpb where
  nxtFree : Nat
  freeCount : Nat
  disk : Disk

namespace FatFileSystem

/-- `FatFileSystem::clusEntryVal` (`fatCluster.cpp:251-300`). -/
def clusEntryVal (s : FatFileSystem) (n : Nat) : Nat :=
  let offset := s.entryOffset n
  if s.isFat12 then
    let val := s.disk.word offset
    if n % 2 = 1 then val >>> 4 else val &&& 0xfff
  else if s.isFat16 then s.disk.word offset
  else s.disk.dword offset

/-- The value that `setClusEntryVal` puts into its buffer for the entry: the new value, and the
    bits of the disk that belong to no entry or to the neighbour (`fatCluster.cpp:330-343`,
    `fatCluster.cpp:369-372`). -/
def packEntry (s : FatFileSystem) (n v : Nat) : Nat :=
  let offset := s.entryOffset n
  if s.isFat12 then
    if n % 2 = 1 then u32 (v <<< 4) ||| (s.disk.word offset &&& 0x000f)
    else (v &&& 0xfff) ||| (s.disk.word offset &&& 0xf000)
  else if s.isFat16 then v
  else (v &&& 0x0fffffff) ||| (s.disk.dword offset &&& 0xf0000000)

/-- `FatFileSystem::setClusEntryVal` (`fatCluster.cpp:302-380`). -/
def setClusEntryVal (s : FatFileSystem) (n v : Nat) : FatFileSystem :=
  let buf := s.packEntry n v
  let put := fun (disk : Disk) offset =>
    if s.isFat12 || s.isFat16 then disk.xword offset buf else disk.xdword offset buf
  { s with
    disk := Disk.eachFat put (u32 (s.fatSz * s.bytsPerSec)) s.numFATs (s.entryOffset n) s.disk }

/-- `FatFileSystem::zeroCluster` (`fatCluster.cpp:172-187`), where every `writeCluster` writes all
    it is given at the 32-bit product `secNum * bytsPerSec`. -/
def zeroCluster (s : FatFileSystem) (clus : Nat) : FatFileSystem :=
  { s with
    disk := s.disk.clear (u32 (s.firstSectorOfCluster clus * s.bytsPerSec)) s.bytsPerClus }

/-- The loop of `freeCluster` (`fatCluster.cpp:241-247`). -/
def freeLoop : Nat → FatFileSystem → Nat → Option FatFileSystem
  | 0, _, _ => none
  | fuel + 1, s, clus =>
    if s.isEof clus then some s
    else
      let next := s.clusEntryVal clus
      let s := s.setClusEntryVal clus 0
      freeLoop fuel { s with freeCount := u32 (s.freeCount + 1) } next

/-- `FatFileSystem::freeCluster` (`fatCluster.cpp:236-249`). Every turn clears an entry and a
    cleared entry leads to entry 0, so that a loop that is not over after `countOfClusters + 4`
    tests never ends. -/
def freeCluster (s : FatFileSystem) (clus : Nat) : Option FatFileSystem :=
  if 2 ≤ clus then freeLoop (s.countOfClusters + 4) s clus else some s

/-- `allocCluster` marks the cluster `nxtFree` (`fatCluster.cpp:209-210`). -/
def markNext (s : FatFileSystem) : FatFileSystem :=
  { s.setClusEntryVal s.nxtFree 0xffffffff with freeCount := sub32 s.freeCount 1 }

/-- `allocCluster` clears the cluster `nxtFree` when it is asked to (`fatCluster.cpp:211-214`). -/
def zeroNext (s : FatFileSystem) (zero : Bool) : FatFileSystem :=
  if zero then s.zeroCluster s.nxtFree else s

/-- `allocCluster` links the cluster `nxtFree` after `prev` (`fatCluster.cpp:215-218`). -/
def linkNext (s : FatFileSystem) (prev : Nat) : FatFileSystem :=
  if prev ≠ 0 then s.setClusEntryVal prev s.nxtFree else s

/-- The branch of `allocCluster` that takes the cluster `nxtFree` (`fatCluster.cpp:207-225`). -/
def takeFree (s : FatFileSystem) (zero : Bool) (prev : Nat) : FatFileSystem :=
  (s.markNext.zeroNext zero).linkNext prev

/-- `++nxtFree` at the end of a turn of `allocCluster` (`fatCluster.cpp:231`). -/
def scanNext (s : FatFileSystem) : FatFileSystem :=
  { s with nxtFree := u32 (s.nxtFree + 1) }

/-- The start of a turn of `allocCluster` (`fatCluster.cpp:203-206`). -/
def scanStart (s : FatFileSystem) : FatFileSystem :=
  if s.isEof s.nxtFree then { s with nxtFree := 2 } else s

/-- The loop of `allocCluster` (`fatCluster.cpp:201-232`). -/
def allocLoop (zero : Bool) : Nat → FatFileSystem → Nat → Nat → Nat → Nat →
    Option (Nat × FatFileSystem)
  | 0, _, _, _, _, _ => none
  | fuel + 1, s, n, clus, prev, count =>
    if n = 0 then some (clus, s)
    else
      let s := s.scanStart
      if s.clusEntryVal s.nxtFree = 0 then
        let clus := if prev ≠ 0 then clus else s.nxtFree
        let taken := s.takeFree zero prev
        if s.countOfClusters < count + 1 then
          (taken.freeCluster clus).map fun s => (0xffffffff, s)
        else allocLoop zero fuel taken.scanNext (n - 1) clus s.nxtFree (count + 1)
      else if s.countOfClusters < count + 1 then
        (s.freeCluster clus).map fun s => (0xffffffff, s)
      else allocLoop zero fuel s.scanNext n clus prev (count + 1)

/-- `FatFileSystem::allocCluster` (`fatCluster.cpp:189-234`): the head of a chain of `n` clusters,
    or `0xffffffff`. -/
def allocCluster (s : FatFileSystem) (n : Nat) (zero : Bool) : Option (Nat × FatFileSystem) :=
  if n = 0 ∨ s.freeCount < n then some (0xffffffff, s)
  else allocLoop zero (s.countOfClusters + 2) s n 0 0 0

end FatFileSystem

/-- The fields of `FatStream` that `setSize` uses (`fatStream.h:66-88`). -/
structure FatStream where
  /-- `isDirectory()` -/
  isDirectory : Bool
  /-- `isRoot()` -/
  isRoot : Bool
  fstClus : Nat
  size : Nat
  /-- `fcb + DIR_FstClusLO` -/
  fcbFstClusLO : Nat
  /-- `fcb + DIR_FstClusHI` -/
  fcbFstClusHI : Nat
  /-- `fcb + DIR_FileSize` -/
  fcbFileSize : Nat
  lastPosition : Nat
  lastClus : Nat
deriving DecidableEq, Repr

namespace FatStream

/-- The loop of `getClusNum` (`fatStream.cpp:63-71`). -/
def followLoop (s : FatFileSystem) : Nat → Nat → Nat
  | 0, clus => clus
  | i + 1, clus =>
    let clus := s.clusEntryVal clus
    if s.isEof clus then clus else followLoop s i clus

/-- `FatStream::getClusNum` (`fatStream.cpp:36-77`). -/
def getClusNum (f : FatStream) (s : FatFileSystem) (position : Nat) : Nat × FatStream :=
  if f.fstClus = 0 then (f.fstClus, f)
  else
    let position := s.clusterMask position
    let clus :=
      if position < f.lastPosition ∨ f.lastClus = 0 ∨ s.isEof f.lastClus then
        followLoop s (u32 (position / s.bytsPerClus)) f.fstClus
      else followLoop s (u32 ((position - f.lastPosition) / s.bytsPerClus)) f.lastClus
    (clus, { f with lastPosition := position, lastClus := clus })

/-- The branch of `setSize` that links new clusters (`fatStream.cpp:136-149`). -/
def append (f : FatStream) (s : FatFileSystem) (clus : Nat) : FatFileSystem × FatStream :=
  if f.size ≠ 0 then
    let (last, f) := f.getClusNum s (f.size - 1)
    (s.setClusEntryVal last clus, f)
  else
    (s, { f with
      fstClus := clus
      fcbFstClusLO := clus % 65536
      fcbFstClusHI := clus / 65536 % 65536 })

/-- `n` of `setSize`: the number of clusters to add, in 32 bits (`fatStream.cpp:124-126`). -/
def growBy (f : FatStream) (s : Bpb) (newSize : Nat) : Nat :=
  sub32 (u32 ((newSize + s.bytsPerClus - 1) / s.bytsPerClus)) (s.clustersOf f.size)

/-- The branch of `setSize` for a larger size (`fatStream.cpp:122-156`). -/
def grow (f : FatStream) (s : FatFileSystem) (newSize : Nat) :
    Option (Option Errno × FatFileSystem × FatStream) :=
  let n := f.growBy s.toBpb newSize
  if n = 0 then some (none, s, { f with fcbFileSize := newSize, size := newSize })
  else
    (s.allocCluster n f.isDirectory).map fun (clus, s) =>
      if s.isEof clus then (some .enospc, s, f)
      else
        let (s, f) := f.append s clus
        (none, s, { f with fcbFileSize := newSize, size := newSize })

/-- The branch of `setSize` for a smaller size (`fatStream.cpp:157-186`). -/
def shrink (f : FatStream) (s : FatFileSystem) (newSize : Nat) :
    Option (Option Errno × FatFileSystem × FatStream) :=
  let f := { f with fcbFileSize := newSize }
  if newSize = 0 then
    let clus := f.fstClus
    (s.freeCluster clus).map fun s =>
      (none, s, { f with
        fstClus := 0
        fcbFstClusLO := 0
        fcbFstClusHI := 0
        lastPosition := 0
        lastClus := 0
        size := newSize })
  else
    let (clus, f) := f.getClusNum s (newSize - 1)
    let next := s.clusEntryVal clus
    ((s.setClusEntryVal clus 0x0fffffff).freeCluster next).map fun s =>
      (none, s, { f with lastPosition := 0, lastClus := f.fstClus, size := newSize })

/-- The size that a directory is given for `newSize` (`fatStream.cpp:110`). -/
def roundSize (f : FatStream) (s : Bpb) (newSize : Nat) : Nat :=
  if f.isDirectory then s.clusterMask (newSize + s.bytsPerClus - 1) else newSize

/-- The check of `setSize` on a directory (`fatStream.cpp:111`): beyond the limit, or the root of a
    volume that is not FAT32. -/
def refused (f : FatStream) (s : Bpb) (newSize : Nat) : Bool :=
  f.isDirectory && (DIR_LIMIT < newSize || (!s.isFat32 && f.isRoot))

/-- `FatStream::setSize` (`fatStream.cpp:98-189`): the error thrown, if any, and the state after
    the call. -/
def setSize (f : FatStream) (s : FatFileSystem) (newSize : Int) :
    Option (Option Errno × FatFileSystem × FatStream) :=
  if newSize < 0 ∨ 0xffffffff < newSize then some (some .einval, s, f)
  else
    let newSize := f.roundSize s.toBpb newSize.toNat
    if f.refused s.toBpb newSize then some (some .einval, s, f)
    else if f.size = newSize then some (none, s, f)
    else if f.size < newSize then f.grow s newSize
    else f.shrink s newSize

end FatStream

end EsOs.Fat
