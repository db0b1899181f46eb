import Mathlib
import EsOs.Fat.Volume

/-!
# The boot sector of a new volume

`format` of `os/fs/fat/fatFormat.cpp`, as far as the BIOS parameter block goes that `mount` reads.
The fields that no length depends on, the boot code, and the sectors that are cleared are left out.
-/

namespace EsOs.Fat

/-- The types of a FAT. -/
inductive FatType where
  | fat12
  | fat16
  | fat32
deriving DecidableEq, Repr

/-- The width of an entry of a FAT in bits. -/
def FatType.width : FatType → Nat
  | .fat12 => 12
  | .fat16 => 16
  | .fat32 => 32

/-- The type that `isFat12`, `isFat16` and `isFat32` tell from the number of clusters. -/
def Bpb.fatType (s : Bpb) : FatType :=
  if s.isFat12 then .fat12 else if s.isFat16 then .fat16 else .fat32

/-- What `format` asks the partition for: `getSize`, and what `getGeometry` gets from its `Disk`
    interface (`fatFormat.cpp:173-206`). -/
structure Device where
  size : Nat
  bytesPerSector : Nat
  diskSize : Nat

/-- The lengths that are worked out for a volume. -/
structure Plan where
  type : FatType
  /-- The total sectors. -/
  diskSize : Nat
  bytesPerSector : Nat
  secPerClus : Nat
  resvdSecCnt : Nat
  numFATs : Nat
  rootEntCnt : Nat
  fatSz : Nat
  /-- The number of clusters that `fatSz` is meant for. -/
  clusters : Nat

/-- What the BIOS parameter blocks of the boot sectors hold where `format` leaves them
    (`bootsect/bootfat.S`, `bootsect/bootfat32.S`). -/
def bootfat12 : BootSector where
  bytsPerSec := 512
  secPerClus := 1
  rsvdSecCnt := 1
  numFATs := 2
  rootEntCnt := 224
  totSec16 := 2880
  fatSz16 := 9
  totSec32 := 0
  fatSz32 := 0x290000
  signature := 0xaa55

def bootfat16 : BootSector where
  bytsPerSec := 512
  secPerClus := 8
  rsvdSecCnt := 1
  numFATs := 2
  rootEntCnt := 512
  totSec16 := 0
  fatSz16 := 245
  totSec32 := 500400
  fatSz32 := 0x290000
  signature := 0xaa55

def bootfat32 : BootSector where
  bytsPerSec := 512
  secPerClus := 8
  rsvdSecCnt := 36
  numFATs := 2
  rootEntCnt := 0
  totSec16 := 0
  fatSz16 := 0
  totSec32 := 1044225
  fatSz32 := 1018
  signature := 0xaa55

namespace FatFileSystem

/-- `DskTableFAT16` (`fatFormat.cpp:61-72`). -/
def DskTableFAT16 : List (Nat × Nat) :=
  [(8400, 0), (32680, 2), (262144, 4), (524288, 8), (1048576, 16), (2097152, 32), (4194304, 64),
    (0xFFFFFFFF, 0)]

/-- `DskTableFAT32` (`fatFormat.cpp:86-94`). -/
def DskTableFAT32 : List (Nat × Nat) :=
  [(66600, 0), (532480, 1), (16777216, 8), (33554432, 16), (67108864, 32), (0xFFFFFFFF, 64)]

/-- The loop over a table (`fatFormat.cpp:311-317`). -/
def secPerClusOf : List (Nat × Nat) → Nat → Nat
  | [], _ => 0
  | (limit, secPerClus) :: table, diskSize =>
    if limit < diskSize then secPerClusOf table diskSize else secPerClus

/-- The total sectors, in a `u32` (`fatFormat.cpp:310`). -/
def totalSectors (d : Device) : Nat :=
  u32 (d.diskSize / d.bytesPerSector)

/-- `rootDirSectors` (`fatFormat.cpp:323`). -/
def rootDirSectors (rootEntCnt bytesPerSector : Nat) : Nat :=
  u32 (rootEntCnt * 32 + sub32 bytesPerSector 1) / bytesPerSector

/-- The lengths of a volume with a FAT of `entries` entries in a sector of 512 bytes, each of `bytes`
    bytes (`fatFormat.cpp:310-329`, `fatFormat.cpp:394-413`). With no sectors in a cluster the
    division traps; where assertions are `checked`, a FAT that is too small stops the system. -/
def planFat (checked : Bool) (type : FatType) (table : List (Nat × Nat))
    (entries bytes resvdSecCnt rootEntCnt : Nat) (d : Device) : Option Plan :=
  let diskSize := totalSectors d
  let secPerClus := secPerClusOf table diskSize
  let numFATs := 2
  let tmpVal1 :=
    sub32 diskSize (u32 (resvdSecCnt + rootDirSectors rootEntCnt d.bytesPerSector))
  let tmpVal2 := entries * secPerClus + numFATs
  let fatSz := u32 (tmpVal1 + 2 * secPerClus + (tmpVal2 - 1)) / tmpVal2
  if secPerClus = 0 then none
  else
    let clusters := sub32 tmpVal1 (u32 (numFATs * fatSz)) / secPerClus
    let perSector := d.bytesPerSector / bytes
    let diff := sub32 fatSz ((clusters + 2 + perSector - 1) / perSector)
    if checked ∧ 2147483648 ≤ diff then none
    else
      some {
        type := type
        diskSize := diskSize
        bytesPerSector := d.bytesPerSector
        secPerClus := secPerClus
        resvdSecCnt := resvdSecCnt
        numFATs := numFATs
        rootEntCnt := rootEntCnt
        fatSz := fatSz
        clusters := clusters }

/-- The fields that all the boot sectors share (`fatFormat.cpp:338-352`). -/
def writeBpb (b : BootSector) (p : Plan) : BootSector :=
  { b with
    bytsPerSec := UInt16.ofNat p.bytesPerSector
    secPerClus := UInt8.ofNat p.secPerClus
    rsvdSecCnt := UInt16.ofNat p.resvdSecCnt
    numFATs := UInt8.ofNat p.numFATs
    rootEntCnt := UInt16.ofNat p.rootEntCnt
    totSec16 := if p.diskSize >>> 16 ≠ 0 then 0 else UInt16.ofNat p.diskSize
    totSec32 := if p.diskSize >>> 16 ≠ 0 then UInt32.ofNat p.diskSize else 0 }

/-- `FatFileSystem::formatFat12` (`fatFormat.cpp:225-298`): one kind of disk only. -/
def formatFat12 (d : Device) : Option (Plan × BootSector) :=
  let diskSize := totalSectors d
  if diskSize ≠ 2880 ∨ d.bytesPerSector ≠ 512 then none
  else
    let p : Plan := {
      type := .fat12
      diskSize := diskSize
      bytesPerSector := d.bytesPerSector
      secPerClus := 1
      resvdSecCnt := 1
      numFATs := 2
      rootEntCnt := 224
      fatSz := 9
      clusters := diskSize - (1 + 2 * 9 + rootDirSectors 224 d.bytesPerSector) }
    some (p, { writeBpb bootfat12 p with fatSz16 := UInt16.ofNat p.fatSz })

/-- `FatFileSystem::formatFat16` (`fatFormat.cpp:300-382`). -/
def formatFat16 (checked : Bool) (d : Device) : Option (Plan × BootSector) :=
  (planFat checked .fat16 DskTableFAT16 256 2 1 512 d).map fun p =>
    (p, { writeBpb bootfat16 p with fatSz16 := UInt16.ofNat p.fatSz })

/-- `FatFileSystem::formatFat32` (`fatFormat.cpp:384-479`). -/
def formatFat32 (checked : Bool) (d : Device) : Option (Plan × BootSector) :=
  (planFat checked .fat32 DskTableFAT32 128 4 36 0 d).map fun p =>
    (p, { writeBpb bootfat32 p with fatSz16 := 0, fatSz32 := UInt32.ofNat p.fatSz })

/-- `FatFileSystem::format` (`fatFormat.cpp:143-171`): the lengths and the boot sector of the volume,
    unless the partition is refused or the system stops. -/
def format (checked : Bool) (d : Device) : Option (Plan × BootSector) :=
  if 2 ^ 28 * 32 * 1024 < d.size then none
  else if d.size ≤ 512 * 8400 then formatFat12 d
  else if d.size < 512 * 1024 * 1024 then formatFat16 checked d
  else formatFat32 checked d

end FatFileSystem

end EsOs.Fat
