import EsOs.Lib.System
import EsOs.Lib.Word

/-!
# Disk partitions

`PartitionContext` and `PartitionStream` of `os/kernel/port/partitionContext.cpp` and
`os/kernel/port/partitionStream.cpp`: partitions are created and removed by name, given a layout, and
found again when the disk is mounted.

The master boot record and the extended partition boot records hold tables of four entries of 16
bytes; a record is what its sector holds from byte 446 on. A disk is a map from the byte offset of a
sector to its boot record. A `u32` is a word and a `u8` is a natural number below 256; a `long long`
of a caller is an integer. A stream names its `parent` by type and id. Left out are the data in the
partitions, the monitor, and the reports.
-/

namespace EsOs.Kernel

open EsOs.Lib

/-- An integer kept in an `unsigned`. -/
def toWord (n : Int) : Nat :=
  (n % 4294967296).toNat

/-- `DiskManagement::Geometry` (`IDiskManagement.idl:30-37`), without the number of cylinders. -/
structure Geometry where
  heads : Nat
  sectorsPerTrack : Nat
  bytesPerSector : Nat
  diskSize : Nat
deriving DecidableEq, Repr

/-- `DiskManagement::Partition` (`IDiskManagement.idl:39-46`). -/
structure Partition where
  startingOffset : Int
  partitionLength : Int
  hiddenSectors : Nat
  partitionType : Nat
  bootIndicator : Nat
deriving DecidableEq, Repr

/-- `MBR_SIGNATURE` (`partition.h:176`). -/
def MBR_SIGNATURE : Nat := 0xaa55

/-- `MAX_CHS` (`partition.h:138-142`). -/
def MAX_CHS : Nat := (1023 * 255 + 255 - 1) * 63 + 63 - 1

def MAX_STARTING_CHS : Nat := 0xFFC101
def MAX_STARTING_EPBR_CHS : Nat := 0xFFC100
def MAX_ENDING_CHS : Nat := 0xFFFFFE

def PT_EMPTY : Nat := 0x00
def PT_FAT12 : Nat := 0x01
def PT_FAT16_UPTO_32MB : Nat := 0x04
def PT_EXTENDED : Nat := 0x05
def PT_FAT16_OVER_32MB : Nat := 0x06
def PT_FAT32 : Nat := 0x0B
def PT_EXTENDED_LBA : Nat := 0x0F

def BOOT_FLAG_INACTIVE : Nat := 0x00
def BOOT_FLAG_ACTIVE : Nat := 0x80

/-- `PT_EXTENDED` or `PT_EXTENDED_LBA`. -/
def isExtendedType (system : Nat) : Bool :=
  system == PT_EXTENDED || system == PT_EXTENDED_LBA

/-- An entry of a partition table (`partition.h:183-189`). -/
structure Entry where
  boot : Nat
  startingCHS : Nat
  system : Nat
  endingCHS : Nat
  startingSector : Nat
  totalSectors : Nat
deriving DecidableEq, Repr

/-- The entry whose bytes are all zero. -/
def Entry.zero : Entry := ⟨0, 0, 0, 0, 0, 0⟩

/-- The partition table in a sector and its signature (`partition.h:179-181`). -/
structure BootRecord where
  signature : Nat
  entry : Nat → Entry

/-- The record after the entry `i` was written. -/
def BootRecord.set (r : BootRecord) (i : Nat) (e : Entry) : BootRecord :=
  { r with entry := fun j => if j = i then e else r.entry j }

/-- The boot records of a disk by the byte offset of their sector. -/
abbrev BootDisk := Nat → BootRecord

/-- `disk->write(mbr, bytesPerSector, offset)` -/
def BootDisk.write (disk : BootDisk) (offset : Nat) (r : BootRecord) : BootDisk := fun o =>
  if o = offset then r else disk o

/-- `TYPE_EMPTY` to `TYPE_LOGICAL` (`partition.h:191-197`). -/
inductive PartitionType where
  | empty
  | primary
  | extended
  | logical
deriving DecidableEq, Repr

/-- `PartitionStream` (`partition.h:41-55`). -/
structure PartitionStream where
  boot : Nat
  system : Nat
  offset : Nat
  size : Nat
  /-- the offset of the MBR or EPBR with the entry -/
  br : Nat
  entryNo : Nat
  type : PartitionType
  id : Nat
  parent : Option (PartitionType × Nat)
deriving DecidableEq, Repr

/-- The constructor of a `PartitionStream` (`partitionStream.cpp:35-70`). -/
def PartitionStream.ofEntry (g : Geometry) (id : Nat) (e : Entry) (entryNo base : Nat)
    (parent : Option (PartitionType × Nat)) : PartitionStream where
  boot := e.boot
  system := e.system
  offset := g.bytesPerSector * word (base + e.startingSector)
  size := g.bytesPerSector * e.totalSectors
  br := g.bytesPerSector * base
  entryNo := entryNo
  type :=
    if parent.isSome then .logical
    else if isExtendedType e.system then .extended
    else if e.system ≠ 0 then .primary
    else .empty
  id := id % 256
  parent := parent

namespace Geometry

/-- `PartitionContext::convertLBAtoCHS` (`partitionContext.cpp:59-124`). -/
def convertLBAtoCHS (g : Geometry) (startingSector totalSectors : Nat) : Option (Nat × Nat) :=
  if startingSector ≤ MAX_CHS then
    let cylinder := startingSector / g.sectorsPerTrack / g.heads
    let head := startingSector / g.sectorsPerTrack % g.heads % 256
    let sector := (startingSector % g.sectorsPerTrack + 1) % 256
    if ¬ (head = 1 ∧ sector = 1) ∧ ¬ (head = 0 ∧ sector = 1) then none
    else
      let startingCHS := (0xff &&& cylinder) <<< 16 ||| (0x0300 &&& cylinder) <<< 6 |||
        sector <<< 8 ||| head
      let endingSector := wordSub (word (startingSector + totalSectors)) 1
      if endingSector ≤ MAX_CHS then
        let cylinder := endingSector / g.sectorsPerTrack / g.heads
        let head := endingSector / g.sectorsPerTrack % g.heads % 256
        let sector := (endingSector % g.sectorsPerTrack + 1) % 256
        if ¬ (head = wordSub g.heads 1 ∧ sector = g.sectorsPerTrack) then none
        else some (startingCHS, (0xff &&& cylinder) <<< 16 ||| (0x0300 &&& cylinder) <<< 6 |||
          sector <<< 8 ||| head)
      else some (startingCHS, MAX_ENDING_CHS)
  else some (MAX_STARTING_CHS, MAX_ENDING_CHS)

/-- `PartitionStream::adjustSize` (`partitionStream.cpp:246-261`): the length up to the last
    cylinder boundary. -/
def adjustSize (g : Geometry) (p : Partition) : Int :=
  let endSector := p.startingOffset + p.partitionLength
  let cylinderSize := word (word (g.heads * g.sectorsPerTrack) * g.bytesPerSector)
  endSector - endSector.tmod cylinderSize - p.startingOffset

/-- `PartitionContext::getDefaultPartitionType` (`partitionContext.cpp:590-608`). -/
def getDefaultPartitionType (size : Int) : Nat :=
  if size ≤ 4 * 1024 * 1024 then PT_FAT12
  else if size < 32 * 1024 * 1024 then PT_FAT16_UPTO_32MB
  else if size < 512 * 1024 * 1024 then PT_FAT16_OVER_32MB
  else PT_FAT32

end Geometry

/-- The geometry of a disk whose sectors have numbers of 32 bits. -/
structure Geometry.Valid (g : Geometry) : Prop where
  heads : 0 < g.heads
  sectorsPerTrack : 0 < g.sectorsPerTrack
  bytesPerSector : 0 < g.bytesPerSector
  cylinder : g.heads * g.sectorsPerTrack * g.bytesPerSector < 4294967296
  someSector : 0 < g.diskSize
  sectors : g.diskSize ≤ 4294967296 * g.bytesPerSector

/-- `PartitionContext` of a mounted disk (`partition.h:104-114`). -/
structure PartitionContext where
  geometry : Geometry
  disk : BootDisk
  partitionList : List PartitionStream

namespace PartitionContext

/-- `lookupPartitionStream(type, id)` (`partitionContext.cpp:385-407`). -/
def lookup (c : PartitionContext) (type : PartitionType) (id : Nat) : Option PartitionStream :=
  c.partitionList.find? fun s => s.id == id && s.type == type && type != .empty

/-- What an assignment to the fields of the stream does. -/
def update (c : PartitionContext) (type : PartitionType) (id : Nat)
    (f : PartitionStream → PartitionStream) : PartitionContext :=
  { c with partitionList := c.partitionList.map fun s =>
      if s.type = type ∧ s.id = id then f s else s }

/-- The index of the entry that `getEntry(mbr, stream->type, stream->id)` gives
    (`partitionContext.cpp:425-464`). -/
def getEntry (c : PartitionContext) (type : PartitionType) (id : Nat) : Option Nat :=
  if type = .logical then some 0 else (c.lookup type id).map PartitionStream.entryNo

/-- `getEntry(mbr, TYPE_EMPTY, 0)`: the first entry that is not in use. -/
def emptyEntry (r : BootRecord) : Option Nat :=
  (List.range 4).find? fun i => (r.entry i).system == 0

/-- `PartitionStream::setEntry` (`partitionStream.cpp:124-186`): the entry for a layout. -/
def setEntry (c : PartitionContext) (s : PartitionStream) (p : Partition) (secondEntry : Bool) :
    Option Entry :=
  let g := c.geometry
  let startingSector := toWord (p.startingOffset.tdiv g.bytesPerSector)
  let totalSectors := toWord (p.partitionLength.tdiv g.bytesPerSector)
  let chs :=
    if startingSector = 0 ∧ totalSectors = 0 then some (0, 0)
    else g.convertLBAtoCHS startingSector totalSectors
  match chs with
  | none => none
  | some (startingCHS, endingCHS) =>
    let entry := fun startingCHS startingSector =>
      ⟨p.bootIndicator, startingCHS, p.partitionType, endingCHS, startingSector, totalSectors⟩
    if s.type = .logical then
      if secondEntry then
        let startingCHS :=
          if startingCHS = MAX_STARTING_CHS then MAX_STARTING_EPBR_CHS else startingCHS
        -- the origin of the second entry is the top of the first EPBR
        match c.lookup .extended 0 with
        | none => none
        | some extended =>
          some (entry startingCHS (wordSub startingSector
            (word (extended.offset / g.bytesPerSector))))
      -- the origin of the first entry is the top of the EPBR in which it is
      else some (entry startingCHS (wordSub startingSector (word (s.br / g.bytesPerSector))))
    else some (entry startingCHS startingSector)

/-- The stream that `checkPartition` takes for the next one (`partitionContext.cpp:553-574`). -/
def next (c : PartitionContext) (s : PartitionStream) : Option PartitionStream :=
  if s.type = .logical then c.lookup .logical ((s.id + 1) % 256)
  else if s.entryNo < 3 then c.partitionList.find? fun t => t.entryNo == s.entryNo + 1
  else none

/-- The checks of `checkPartition` and of `setParentEPBR` on a layout
    (`partitionContext.cpp:535-550`, `partitionStream.cpp:199-210`). -/
def checkLayout (g : Geometry) (p : Partition) : Bool :=
  !(g.diskSize ≤ p.startingOffset + p.partitionLength) &&
    (p.partitionLength % g.bytesPerSector == 0 && p.hiddenSectors == 0) &&
      (p.bootIndicator == BOOT_FLAG_INACTIVE || p.bootIndicator == BOOT_FLAG_ACTIVE)

/-- `PartitionContext::checkPartition` (`partitionContext.cpp:531-588`). -/
def checkPartition (c : PartitionContext) (s : PartitionStream) (p : Partition) : Bool :=
  checkLayout c.geometry p &&
    match c.next s with
    | none => true
    | some next => !(next.offset ≤ p.startingOffset + p.partitionLength)

/-- `PartitionContext::getEPBROffset` (`partitionContext.cpp:239-259`). -/
def getEPBROffset (last : PartitionStream) : Option Nat :=
  match last.type with
  | .extended => some last.offset
  | .logical => some (last.offset + last.size)
  | _ => none

/-- `PartitionStream::setParentEPBR` (`partitionStream.cpp:188-244`): sets the second entry of the
    boot record in which the logical partition before this one is. -/
def setParentEPBR (c : PartitionContext) (s : PartitionStream) (p : Partition) :
    Option PartitionContext :=
  match s.parent with
  | some (.logical, id) =>
    match c.lookup .logical id with
    | none => none
    | some parent =>
      let epbr := c.disk parent.br
      if checkLayout c.geometry p ∧ epbr.signature = MBR_SIGNATURE then
        match c.setEntry s p true with
        | none => none
        | some e => some { c with disk := c.disk.write parent.br (epbr.set 1 e) }
      else none
  | _ => some c

/-- The layout of the link to a logical partition, for the boot record before it
    (`partitionStream.cpp:439-447`). -/
def linkLayout (offsetEPBR : Nat) (p : Partition) : Partition :=
  { p with
    startingOffset := offsetEPBR
    partitionLength := p.partitionLength + (p.startingOffset - offsetEPBR)
    partitionType := PT_EXTENDED }

/-- The update of the second entry before a logical partition (`partitionStream.cpp:437-451`). -/
def setLink (c : PartitionContext) (s : PartitionStream) (p : Partition) :
    Option PartitionContext :=
  match s.type, s.parent with
  | .logical, some (.logical, id) =>
    match (c.lookup .logical id).bind getEPBROffset with
    | none => none
    | some offsetEPBR => c.setParentEPBR s (linkLayout offsetEPBR p)
  | _, _ => some c

/-- The layout that `setLayout` goes on with: its size adjusted, and the type of the extended
    partition that of its end (`partitionStream.cpp:402-421`). -/
def adjust (g : Geometry) (s : PartitionStream) (p : Partition) : Partition :=
  let p := { p with partitionLength := g.adjustSize p }
  if s.type = .extended ∧ isExtendedType p.partitionType then
    { p with partitionType :=
        if MAX_CHS ≤ (p.startingOffset + p.partitionLength).tdiv g.bytesPerSector then
          PT_EXTENDED_LBA
        else PT_EXTENDED }
  else p

/-- `PartitionStream::setLayout` (`partitionStream.cpp:392-478`), or nothing where it returns before
    the boot record is written. -/
def setLayout? (c : PartitionContext) (type : PartitionType) (id : Nat) (p : Partition) :
    Option PartitionContext :=
  match c.lookup type id with
  | none => none
  | some s =>
    let g := c.geometry
    let p := adjust g s p
    let mbr := c.disk s.br
    if c.checkPartition s p ∧ mbr.signature = MBR_SIGNATURE then
      match c.getEntry type id, c.setEntry s p false with
      | some entryNo, some e =>
        match c.setLink s p with
        | none => none
        | some linked =>
          some (({ linked with disk := linked.disk.write s.br (mbr.set entryNo e) }).update type id
            fun s => { s with
              boot := e.boot
              system := e.system
              offset := s.br + g.bytesPerSector * e.startingSector
              size := g.bytesPerSector * e.totalSectors })
      | _, _ => none
    else none

/-- `PartitionStream::setLayout` (`partitionStream.cpp:392-478`). -/
def setLayout (c : PartitionContext) (type : PartitionType) (id : Nat) (p : Partition) :
    PartitionContext :=
  (c.setLayout? type id p).getD c

/-- `createPartition` up to its call of `setLayout` (`partitionContext.cpp:126-223`): the list with
    the new stream, and its layout. -/
def newPartition (c : PartitionContext) (type : PartitionType) (id : Int) :
    Option (PartitionContext × Partition) :=
  let g := c.geometry
  let mbr := c.disk 0
  if id < 0 ∨ 3 < id ∨ (type = .extended ∧ id ≠ 0) then none
  else if type = .primary ∧ 0 < id ∧ c.lookup type (id.toNat - 1) = none then none
  else if mbr.signature ≠ MBR_SIGNATURE then none
  else
    match emptyEntry mbr with
    | none => none
    | some entryNo =>
      let (prevOffset, prevSize) :=
        if entryNo = 0 then (g.sectorsPerTrack, 0)
        else
          let prev := mbr.entry (entryNo - 1)
          (prev.startingSector, prev.totalSectors)
      let stream :=
        { PartitionStream.ofEntry g id.toNat (mbr.entry entryNo) entryNo 0 none with type := type }
      let partitionList :=
        if type = .primary then stream :: c.partitionList else c.partitionList ++ [stream]
      let partition : Partition :=
        { startingOffset := word (prevOffset + prevSize) * g.bytesPerSector
          partitionLength := g.heads * g.sectorsPerTrack * g.bytesPerSector
          hiddenSectors := 0
          partitionType := 0
          bootIndicator := 0 }
      let partition := { partition with partitionLength := g.adjustSize partition }
      let partition := { partition with
        partitionType :=
          if type = .extended then
            if MAX_CHS ≤ prevOffset + prevSize + partition.partitionLength.tdiv g.bytesPerSector then
              PT_EXTENDED_LBA
            else PT_EXTENDED
          else Geometry.getDefaultPartitionType partition.partitionLength }
      some ({ c with partitionList := partitionList }, partition)

/-- `createLogicalPartition` up to its call of `setLayout` (`partitionContext.cpp:261-316`): the
    boot record of the new partition is written, and its stream is in the list. -/
def newLogicalPartition (c : PartitionContext) (id : Int) :
    Option (PartitionContext × Partition) :=
  let g := c.geometry
  if id < 0 ∨ 255 < id then none
  else
    match c.partitionList.getLast? with
    | none => none
    | some last =>
      if ¬ ((last.type = .extended ∧ id = 0) ∨ (last.type = .logical ∧ id = last.id + 1)) then none
      else
        match getEPBROffset last with
        | none => none
        | some offset =>
          let epbr : BootRecord := ⟨MBR_SIGNATURE, fun _ => .zero⟩
          let stream := PartitionStream.ofEntry g id.toNat .zero 0
            (word (offset / g.bytesPerSector)) (some (last.type, last.id))
          let length : Int := g.heads * g.sectorsPerTrack * g.bytesPerSector
          let partition : Partition :=
            { startingOffset := offset + g.sectorsPerTrack * g.bytesPerSector
              partitionLength := length
              hiddenSectors := 0
              partitionType := Geometry.getDefaultPartitionType length
              bootIndicator := 0 }
          some ({ c with
            disk := c.disk.write offset epbr
            partitionList := c.partitionList ++ [stream] }, partition)

/-- The new partition of `bind`, when there is none of that name and one can be created
    (`partitionContext.cpp:815-851`). The name is taken apart into its type and number. -/
def newStream (c : PartitionContext) (type : PartitionType) (id : Int) :
    Option (PartitionContext × Partition) :=
  if 0 ≤ id ∧ id ≤ 255 ∧ c.lookup type id.toNat ≠ none then none
  else
    match type with
    | .primary | .extended => c.newPartition type id
    | .logical => c.newLogicalPartition id
    | .empty => none

/-- `PartitionContext::bind` (`partitionContext.cpp:815-867`). -/
def bind (c : PartitionContext) (type : PartitionType) (id : Int) : PartitionContext :=
  match c.newStream type id with
  | none => c
  | some (c, p) => c.setLayout type id.toNat p

/-- The layout that `clearBootRecord` and `clearParentBootRecord` set
    (`partitionContext.cpp:466-501`). -/
def zeroLayout : Partition := ⟨0, 0, 0, 0, 0⟩

/-- `PartitionContext::removePartition` (`partitionContext.cpp:503-534`), where `removable` is what
    `isRemovable` finds in the reference count of the stream. -/
def removePartition (c : PartitionContext) (type : PartitionType) (id : Nat) (removable : Bool) :
    PartitionContext :=
  match c.lookup type id with
  | none => c
  | some s =>
    if !removable then c
    else if (type = .extended ∨ type = .logical) ∧ c.partitionList.getLast? ≠ some s then c
    else
      let c := c.setLayout type id zeroLayout
      let cleared := if type = .logical then c.setParentEPBR s zeroLayout else some c
      match cleared with
      | none => c
      | some c => { c with
          partitionList := c.partitionList.filter fun t => !(t.type == type && t.id == id) }

/-- `PartitionContext::unbind` (`partitionContext.cpp:945-969`). -/
def unbind (c : PartitionContext) (type : PartitionType) (id : Int) (removable : Bool) :
    PartitionContext :=
  if id < 0 ∨ 255 < id then c else c.removePartition type id.toNat removable

/-- What the loop of `mount` over the table has found: the list, the next number of a primary
    partition, and the entry of the extended one. -/
structure MountState where
  partitionList : List PartitionStream
  id : Nat
  extended : Option Entry

/-- A turn of the loop of `mount` over the table (`partitionContext.cpp:683-719`). -/
def mountEntry (g : Geometry) (r : BootRecord) (m : MountState) (i : Nat) : MountState :=
  let e := r.entry i
  if e.system = PT_EMPTY then m
  else if isExtendedType e.system then
    if m.extended.isSome then m
    else { m with
      partitionList := m.partitionList ++ [PartitionStream.ofEntry g 0 e i 0 none]
      extended := some e }
  else { m with
    partitionList := PartitionStream.ofEntry g m.id e i 0 none :: m.partitionList
    id := m.id + 1 }

/-- The loop of `mount` over the chain of extended partition boot records
    (`partitionContext.cpp:727-776`); nothing when it takes more than `turns`. -/
def mountChain (g : Geometry) (disk : BootDisk) (base : Nat) :
    Nat → Nat → Nat → PartitionType × Nat → Option (List PartitionStream)
  | 0, _, _, _ => none
  | turns + 1, epbr, id, parent =>
    let r := disk (epbr * g.bytesPerSector)
    if r.signature ≠ MBR_SIGNATURE then some []
    else
      let e := r.entry 0
      let other := e.system = PT_EMPTY ∨ isExtendedType e.system = true
      let here := if other then [] else [PartitionStream.ofEntry g id e 0 epbr (some parent)]
      let parent := if other then parent else (.logical, id % 256)
      if (r.entry 1).system ≠ PT_EXTENDED then some here
      else
        (mountChain g disk base turns (word (base + (r.entry 1).startingSector)) (id + 1)
          parent).map (here ++ ·)

/-- `PartitionContext::mount` (`partitionContext.cpp:660-778`): the partitions of the disk; nothing
    when the chain takes more than `turns`. -/
def mount (g : Geometry) (disk : BootDisk) (turns : Nat) : Option (List PartitionStream) :=
  let mbr := disk 0
  if mbr.signature ≠ MBR_SIGNATURE then some []
  else
    let m := (List.range 4).foldl (mountEntry g mbr) ⟨[], 0, none⟩
    match m.extended with
    | none => some m.partitionList
    | some e =>
      (mountChain g disk e.startingSector turns e.startingSector 0 (.extended, 0)).map
        (m.partitionList ++ ·)

/-- The calls of a run. -/
inductive PartitionOp where
  | bind (type : PartitionType) (id : Int)
  | unbind (type : PartitionType) (id : Int) (removable : Bool)
  /-- `setLayout` of the stream of that name; `setSize` calls it with the other fields of
      `getLayout` (`partitionStream.cpp:317-327`) -/
  | setLayout (type : PartitionType) (id : Nat) (p : Partition)

def step (c : PartitionContext) : PartitionOp → PartitionContext
  | .bind type id => c.bind type id
  | .unbind type id removable => c.unbind type id removable
  | .setLayout type id p => c.setLayout type id p

/-- A mounted disk without partitions. -/
structure Fresh (c : PartitionContext) : Prop where
  geometry : c.geometry.Valid
  signature : (c.disk 0).signature = MBR_SIGNATURE
  empty : ∀ i < 4, ((c.disk 0).entry i).system = PT_EMPTY
  partitionList : c.partitionList = []

/-- What `mount` makes of the boot record at the start of an extended partition is nothing. -/
def Blank (r : BootRecord) : Prop :=
  r.signature = MBR_SIGNATURE →
    ((r.entry 0).system = PT_EMPTY ∨ isExtendedType (r.entry 0).system = true) ∧
      (r.entry 1).system ≠ PT_EXTENDED

/-- The layout is one for the stream: it begins behind the boot record with its entry and has a
    length, its type is of the right kind, an extended partition stays where its chain begins, and a
    logical partition is where the one before it ends. -/
structure Suits (c : PartitionContext) (s : PartitionStream) (p : Partition) : Prop where
  start : s.br + c.geometry.bytesPerSector ≤ p.startingOffset
  length : 0 ≤ p.partitionLength
  extended : s.type = .extended ↔ isExtendedType p.partitionType = true
  used : p.partitionType ≠ PT_EMPTY
  origin : s.type = .extended →
    p.startingOffset.toNat / c.geometry.bytesPerSector * c.geometry.bytesPerSector = s.offset ∨
      (∀ t ∈ c.partitionList, t.type ≠ .logical) ∧
        Blank (c.disk (p.startingOffset.toNat / c.geometry.bytesPerSector *
          c.geometry.bytesPerSector))
  chained : ∀ id parent, s.parent = some (.logical, id) → c.lookup .logical id = some parent →
    parent.offset + parent.size = s.br

/-- What a call relies on: `setLayout` takes the layout of a new partition, nothing is mistaken for
    a boot record where an extended partition begins, and a layout that is taken suits its stream. -/
def Meets (c : PartitionContext) : PartitionOp → Prop
  | .bind type id => ∀ c' p, c.newStream type id = some (c', p) →
      (c'.setLayout? type id.toNat p).isSome = true ∧
        (type = .extended → Blank (c.disk p.startingOffset.toNat))
  | .unbind _ _ _ => True
  | .setLayout type id p => ∀ s, c.lookup type id = some s →
      (c.setLayout? type id p).isSome = true → c.Suits s (adjust c.geometry s p)

/-- The runs on a disk without partitions. -/
def system : System PartitionContext PartitionOp where
  init := Fresh
  step c op c' := c' = c.step op

/-- What a partition is to the outside: its kind, type and boot flag, its start and its size. -/
def shown (s : PartitionStream) : PartitionType × Nat × Nat × Nat × Nat :=
  (s.type, s.system, s.boot, s.offset, s.size)

/-- Mounting the disk again yields the same partitions. -/
def Remounts (c : PartitionContext) : Prop :=
  ∃ turns l, mount c.geometry c.disk turns = some l ∧
    (l.map shown).Perm (c.partitionList.map shown)

end PartitionContext

end EsOs.Kernel
