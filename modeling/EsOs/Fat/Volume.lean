import Mathlib
import EsOs.Fat.Cluster
import EsOs.Lib.Chain
import EsOs.Lib.System

/-!
# A mounted volume and its runs

What it means for the table of a volume to be well formed, and the system whose steps allocate and
free chains and set the size of streams. A volume is the file system with the stream of each
directory entry, and with the heads of those chains that `allocCluster` has handed out and that no
entry refers to yet.
-/

namespace EsOs.Fat

open EsOs.Lib

namespace Bpb

/-- How many bytes `clusEntryVal` reads. -/
def entryWidth (s : Bpb) : Nat :=
  if s.isFat12 || s.isFat16 then 2 else 4

/-- There is a data area, the table has room for an entry of every cluster, its first copy is
    addressed without a wrap, and a cluster number is no end mark. -/
structure WellFormed (s : Bpb) : Prop where
  sector : 0 < s.bytsPerSec
  cluster : ∃ k < 32, s.bytsPerClus = 2 ^ k
  fats : 0 < s.numFATs
  table : s.fatOffset (s.countOfClusters + 1) + s.entryWidth ≤ s.fatSz * s.bytsPerSec
  addressed : (s.rsvdSecCnt + s.fatSz) * s.bytsPerSec < 4294967296
  someCluster : 0 < s.countOfClusters
  clusters : s.countOfClusters + 1 < 0x0fffffff

/-- The clusters of the data area. -/
def IsCluster (s : Bpb) (c : Nat) : Prop :=
  2 ≤ c ∧ c ≤ s.countOfClusters + 1

/-- The bytes that `zeroCluster` clears lie outside the first copy of the table. -/
def ZeroedOff (s : Bpb) (c : Nat) : Prop :=
  u32 (s.firstSectorOfCluster c * s.bytsPerSec) + s.bytsPerClus ≤ s.rsvdSecCnt * s.bytsPerSec ∨
    (s.rsvdSecCnt + s.fatSz) * s.bytsPerSec ≤ u32 (s.firstSectorOfCluster c * s.bytsPerSec)

/-- The number of clusters that hold `size` bytes. -/
def clustersFor (s : Bpb) (size : Nat) : Nat :=
  (size + s.bytsPerClus - 1) / s.bytsPerClus

end Bpb

namespace FatFileSystem

/-- The reserved bits of the entries are zero. -/
def ReservedZero (s : FatFileSystem) : Prop :=
  ∀ c, s.IsCluster c → s.clusEntryVal c < 0x10000000

/-- `l` is the chain in the table from the cluster `h` up to an end-of-chain value. -/
structure ChainFrom (s : FatFileSystem) (h : Nat) (l : List Nat) : Prop where
  chain : Chain s.clusEntryVal (fun c => s.isEof c = true) h l
  low : ∀ c ∈ l, 2 ≤ c
  nonempty : l ≠ []

/-- The number of zero entries. -/
def zeroEntries (s : FatFileSystem) : Nat :=
  (List.range' 2 s.countOfClusters).countP fun c => s.clusEntryVal c == 0

/-- The chain `l` gives way to the chain `l'`: clusters that were free join it, clusters that leave
    it become free, and no other entry changes. -/
structure Edited (s s' : FatFileSystem) (l l' : List Nat) : Prop where
  bpb : s'.toBpb = s.toBpb
  kept : ∀ m ≤ s.countOfClusters + 1, m ∉ l → m ∉ l' → s'.clusEntryVal m = s.clusEntryVal m
  joined : ∀ c ∈ l', c ∉ l → s.clusEntryVal c = 0
  left : ∀ c ∈ l, c ∉ l' → s'.clusEntryVal c = 0
  reservedZero : ∀ c ∈ l', s'.clusEntryVal c < 0x10000000
  freeCount : s'.freeCount + l'.length = s.freeCount + l.length

/-- The walk over `n` links from a cluster, which stops at an end mark. -/
def walk (s : FatFileSystem) (clus : Nat) : Nat → Nat
  | 0 => clus
  | n + 1 =>
    let last := s.walk clus n
    if s.isEof last then last else s.clusEntryVal last

/-- What `allocCluster` relies on: a scan that starts below cluster 2 finds no zero entry there, and
    no free cluster is cleared onto the table. -/
structure Allocatable (s : FatFileSystem) (zero : Bool) : Prop where
  reserved : ∀ n, s.nxtFree ≤ n → n < 2 → s.clusEntryVal n ≠ 0
  zeroed : zero = true → ∀ c, s.IsCluster c → s.clusEntryVal c = 0 → s.ZeroedOff c

/-- The state behind a turn of `freeCluster` at the cluster `c`. -/
def freeTurn (s : FatFileSystem) (c : Nat) : FatFileSystem :=
  { s.setClusEntryVal c 0 with freeCount := u32 (s.freeCount + 1) }

/-- The links from `n` lead over clusters of the data area to a value above them, or there is nothing
    to free at `n`. -/
def EndsProperly (s : FatFileSystem) (n : Nat) : Prop :=
  n < 2 ∨ ∃ l, Chain s.clusEntryVal (fun c => s.isEof c = true) n l ∧ ∀ c ∈ l, 2 ≤ c

/-- From `s` to `s'` the clusters `l`, which lie on the links from `n`, have become free and are
    counted; the reserved bits of their entries are left. No other entry has changed. -/
structure FreedOn (s s' : FatFileSystem) (n : Nat) (l : List Nat) : Prop where
  onChain : ∀ c ∈ l, s.IsCluster c ∧ ∃ i, s.walk n i = c
  nodup : l.Nodup
  cleared : ∀ c ∈ l, s'.clusEntryVal c = (s.setClusEntryVal c 0).clusEntryVal c
  kept : ∀ m ≤ s.countOfClusters + 1, m ∉ l → s'.clusEntryVal m = s.clusEntryVal m
  freeCount : s'.freeCount = u32 (s.freeCount + l.length)

end FatFileSystem

namespace FatStream

/-- `l` is the chain of the stream. -/
def ChainOf (f : FatStream) (s : FatFileSystem) (l : List Nat) : Prop :=
  (f.fstClus = 0 ∧ l = []) ∨ (f.fstClus ≠ 0 ∧ s.ChainFrom f.fstClus l)

/-- What the stream remembers of its chain `l` is right: the cluster at `lastPosition`. -/
structure Ready (f : FatStream) (s : FatFileSystem) (l : List Nat) : Prop where
  size : f.size < 4294967296
  last : f.lastClus = 0 ∨ s.isEof f.lastClus = true ∨
    ∃ i, l[i]? = some f.lastClus ∧ f.lastPosition = i * s.bytsPerClus

/-- `setSize(newSize)` goes past its checks. -/
def Accepts (f : FatStream) (s : Bpb) (newSize : Int) : Prop :=
  0 ≤ newSize ∧ newSize ≤ 0xffffffff ∧ f.refused s (f.roundSize s newSize.toNat) = false

/-- What `setSize` relies on, when it accepts the size: to grow by clusters there are, it needs the
    chain to be as long as the old size says; to shrink, at least as long as the new one says. -/
structure Resizable (f : FatStream) (s : FatFileSystem) (l : List Nat) (newSize : Nat) : Prop where
  grow : f.size < newSize → f.growBy s.toBpb newSize ≠ 0 →
    f.growBy s.toBpb newSize ≤ s.freeCount →
      s.Allocatable f.isDirectory ∧ l.length = s.clustersFor f.size
  shrink : newSize < f.size → s.clustersFor newSize ≤ l.length

/-- The walk over `n` links from the first cluster. A stream without clusters is at 0. -/
def walk (f : FatStream) (s : FatFileSystem) (n : Nat) : Nat :=
  if f.fstClus = 0 then 0 else s.walk f.fstClus n

/-- The remembered cluster is the one at `lastPosition` of the chain of the stream. -/
def OnChain (f : FatStream) (s : FatFileSystem) : Prop :=
  ∃ l i, f.ChainOf s l ∧ l[i]? = some f.lastClus ∧ f.lastPosition = i * s.bytsPerClus

/-- The chain `l` holds the bytes of the stream, and a stream without bytes has no chain. The root
    directory of a volume that is not FAT32 lies outside of the clusters. -/
def Sized (f : FatStream) (s : Bpb) (l : List Nat) : Prop :=
  (f.isDirectory = true ∧ f.isRoot = true ∧ s.isFat32 = false) ∨
    (s.clustersFor f.size ≤ l.length ∧ (f.size = 0 → l = []))

end FatStream

/-- A file system with its streams and with the heads of chains that no entry refers to. -/
structure Volume where
  fs : FatFileSystem
  streams : List FatStream
  heads : List Nat

/-- The calls of a run. -/
inductive VolumeOp where
  /-- `allocCluster(n, zero)` -/
  | alloc (n : Nat) (zero : Bool)
  /-- `freeCluster` of the `i`th chain that no entry refers to -/
  | free (i : Nat)
  /-- `freeCluster` of the chain of the `i`th stream, which goes away with its entry -/
  | remove (i : Nat)
  /-- a read or write of the `i`th stream moves `getClusNum` to `position` -/
  | seek (i position : Nat)
  /-- `setSize(newSize)` of the `i`th stream -/
  | setSize (i : Nat) (newSize : Int)

namespace Volume

/-- One call; `none` when it never returns. -/
def step (v : Volume) : VolumeOp → Option Volume
  | .alloc n zero =>
    (v.fs.allocCluster n zero).map fun (clus, s) =>
      { v with fs := s, heads := if s.isEof clus then v.heads else clus :: v.heads }
  | .free i =>
    match v.heads[i]? with
    | none => some v
    | some clus =>
      (v.fs.freeCluster clus).map fun s =>
        { v with fs := s, heads := v.heads.eraseIdx i }
  | .remove i =>
    match v.streams[i]? with
    | none => some v
    | some f =>
      (v.fs.freeCluster f.fstClus).map fun s =>
        { v with fs := s, streams := v.streams.eraseIdx i }
  | .seek i position =>
    match v.streams[i]? with
    | none => some v
    | some f => some { v with
        streams := v.streams.set i (f.getClusNum v.fs (u32 position)).2 }
  | .setSize i newSize =>
    match v.streams[i]? with
    | none => some v
    | some f =>
      (f.setSize v.fs newSize).map fun (_, s, f) =>
        { v with fs := s, streams := v.streams.set i f }

/-- The chains of the streams and the other chains are `files` and `others`, and no cluster is on
    two of them. -/
structure Layout (v : Volume) (files others : List (List Nat)) : Prop where
  ofStreams : List.Forall₂ (fun f l => f.ChainOf v.fs l) v.streams files
  ofHeads : List.Forall₂ (fun h l => v.fs.ChainFrom h l) v.heads others
  disjoint : (files.flatten ++ others.flatten).Nodup

/-- The cluster is on a chain. -/
def Used (v : Volume) (c : Nat) : Prop :=
  (∃ f ∈ v.streams, ∃ l, f.ChainOf v.fs l ∧ c ∈ l) ∨
    ∃ h ∈ v.heads, ∃ l, v.fs.ChainFrom h l ∧ c ∈ l

/-- An allocated cluster outside every chain. -/
def Lost (v : Volume) (c : Nat) : Prop :=
  v.fs.IsCluster c ∧ v.fs.clusEntryVal c ≠ 0 ∧ ¬ v.Used c

/-- A volume as it is mounted: the table is well formed, the chains are in it, every stream knows
    its place, and `freeCount` is right. -/
structure Mounted (v : Volume) : Prop where
  geometry : v.fs.WellFormed
  reservedZero : v.fs.ReservedZero
  layout : ∃ files others, v.Layout files others
  ready : ∀ f ∈ v.streams, ∀ l, f.ChainOf v.fs l → f.Ready v.fs l
  freeCount : v.fs.freeCount = v.fs.zeroEntries

/-- A volume in order on which no call relies on more: the sizes of the streams fit their chains, the
    two reserved entries are not zero, and no cluster is cleared onto the table. -/
structure Sound (v : Volume) : Prop where
  mounted : v.Mounted
  sized : ∀ f ∈ v.streams, ∀ l, f.ChainOf v.fs l → f.Sized v.fs.toBpb l
  reserved : ∀ n < 2, v.fs.clusEntryVal n ≠ 0
  zeroed : ∀ c, v.fs.IsCluster c → v.fs.ZeroedOff c

/-- What a call relies on, where it goes as far as to need it. -/
def Meets (v : Volume) : VolumeOp → Prop
  | .alloc n zero => n ≠ 0 → n ≤ v.fs.freeCount → v.fs.Allocatable zero
  | .setSize i newSize => ∀ f, v.streams[i]? = some f → ∀ l, f.ChainOf v.fs l →
      f.Accepts v.fs.toBpb newSize →
        f.Resizable v.fs l (f.roundSize v.fs.toBpb newSize.toNat)
  | _ => True

/-- The runs from the volume `v₀`. -/
def system (v₀ : Volume) : System Volume VolumeOp :=
  System.ofStep (fun v => v = v₀) step

end Volume

end EsOs.Fat

/-!
## The geometry of a mounted volume

What `mount` of `os/fs/fat/fatFileSystem.cpp` takes from the boot sector, and the bytes of the
partition that `readCluster` and `writeCluster` of `os/fs/fat/fatCluster.cpp` transfer. The two
compute the same position and the same count and differ in the call on the partition only. The
count of a transfer is an `int` and is taken without its overflow.
-/

namespace EsOs.Fat

/-- The fields of the BIOS parameter block that `mount` reads (`fat.h`). -/
structure BootSector where
  bytsPerSec : UInt16
  secPerClus : UInt8
  rsvdSecCnt : UInt16
  numFATs : UInt8
  rootEntCnt : UInt16
  totSec16 : UInt16
  fatSz16 : UInt16
  totSec32 : UInt32
  fatSz32 : UInt32
  /-- `word(bpb + 510)` -/
  signature : UInt16
deriving DecidableEq, Repr

namespace BootSector

/-- `rootDirSectors` of `mount` (`fatFileSystem.cpp:413-415`). -/
def rootDirSectors (b : BootSector) : Nat :=
  (b.rootEntCnt.toNat * 32 + (b.bytsPerSec.toNat - 1)) / b.bytsPerSec.toNat

/-- `fatSz` of `mount` (`fatFileSystem.cpp:416-420`). -/
def fatSz (b : BootSector) : Nat :=
  if b.fatSz16 = 0 then b.fatSz32.toNat else b.fatSz16.toNat

/-- `totSec` of `mount` (`fatFileSystem.cpp:421-425`). -/
def totSec (b : BootSector) : Nat :=
  if b.totSec16 = 0 then b.totSec32.toNat else b.totSec16.toNat

/-- `firstRootDirSector` of `mount` (`fatFileSystem.cpp:427-428`). -/
def firstRootDirSector (b : BootSector) : Nat :=
  u32 (b.rsvdSecCnt.toNat + b.numFATs.toNat * b.fatSz)

/-- `firstDataSector` of `mount` (`fatFileSystem.cpp:430`). -/
def firstDataSector (b : BootSector) : Nat :=
  u32 (b.firstRootDirSector + b.rootDirSectors)

/-- `countOfClusters` of `mount` (`fatFileSystem.cpp:432-433`). -/
def countOfClusters (b : BootSector) : Nat :=
  sub32 b.totSec b.firstDataSector / b.secPerClus.toNat

/-- `FatFileSystem::mount` (`fatFileSystem.cpp:378-449`): the geometry of the volume. Without the
    signature `EINVAL` is thrown, and with a zero for one of the two divisors the division traps. -/
def mount (b : BootSector) : Option Bpb :=
  if b.signature = 0xaa55 ∧ b.bytsPerSec ≠ 0 ∧ b.secPerClus ≠ 0 then
    some {
      rsvdSecCnt := b.rsvdSecCnt.toNat
      numFATs := b.numFATs.toNat
      secPerClus := b.secPerClus.toNat
      bytsPerSec := b.bytsPerSec.toNat
      bytsPerClus := b.bytsPerSec.toNat * b.secPerClus.toNat
      fatSz := b.fatSz
      firstDataSector := b.firstDataSector
      countOfClusters := b.countOfClusters }
  else none

end BootSector

namespace FatFileSystem

/-- The loop of `readCluster` (`fatCluster.cpp:95-103`): how many bytes lie in clusters that follow
    one another both in the chain and on the disk. `bytsPerClus` is no zero, so that `count` turns
    are enough. -/
def runLoop (s : FatFileSystem) (count : Nat) : Nat → Nat → Nat → Nat
  | 0, _, len => len
  | fuel + 1, clus, len =>
    if len < count then
      let next := s.clusEntryVal clus
      let clus := u32 (clus + 1)
      if clus ≠ next then len else runLoop s count fuel clus (len + s.bytsPerClus)
    else len

/-- `count` rounded up to sectors (`fatCluster.cpp:74`). -/
def roundCount (s : Bpb) (count : Nat) : Nat :=
  (count + s.bytsPerSec - 1) &&& (4294967295 - (s.bytsPerSec - 1))

/-- The position and the count of the transfer that `readCluster` and `writeCluster` make for a
    data cluster (`fatCluster.cpp:64-114`, `fatCluster.cpp:118-169`). -/
def transfer (s : FatFileSystem) (count clus offset : Nat) : Nat × Nat :=
  if count = 0 ∨ s.bytsPerClus ≤ offset then (0, 0)
  else
    let count := roundCount s.toBpb count
    let secNum := u32 (s.firstSectorOfCluster clus + offset % s.bytsPerClus / s.bytsPerSec)
    let len := s.runLoop count count clus (s.bytsPerClus - offset)
    (u32 (secNum * s.bytsPerSec), if len < count then len else count)

end FatFileSystem

end EsOs.Fat
