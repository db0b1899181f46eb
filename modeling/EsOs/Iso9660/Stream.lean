import EsOs.Lib.Circular
import Mathlib.Data.List.Range
import Mathlib.Tactic.Common

/-!
# Files of an ISO 9660 volume

`Iso9660Stream` (`os/fs/iso9660/iso9660Stream.cpp`) reads a file, whose sectors lie one behind the
other, from the disk. The disk is its bytes and the counts that its reads return, which may depend on
how many reads there were before.
-/

namespace EsOs.Iso9660

open EsOs.Lib

/-- The fields of a directory record that tell where a file lies (`iso9660.h`). -/
structure DirectoryRecord where
  location : UInt32
  attributeRecordLength : UInt8
  dataLength : UInt32
deriving DecidableEq, Repr

/-- A disk: its bytes, and what the `k`th read of a count at a position returns. -/
structure Disk where
  bytes : Int → UInt8
  returned : Nat → Int → Int → Int

/-- The fields of `Iso9660Stream` that `read` uses. -/
structure Iso9660Stream where
  location : UInt32
  size : UInt32
deriving DecidableEq, Repr

/-- `Iso9660FileSystem::bytsPerSec` of a mounted volume (`iso9660FileSystem.cpp:161`). -/
def bytsPerSec : Nat := 2048

namespace Iso9660Stream

/-- The constructor (`iso9660Stream.cpp:23-48`). -/
def new (record : DirectoryRecord) : Iso9660Stream where
  location := (record.location + record.attributeRecordLength.toUInt32) * UInt32.ofNat bytsPerSec
  size := record.dataLength

/-- `(n + bytsPerSec - 1) & ~(bytsPerSec - 1)` in an `int`. -/
def roundSector (n : Int) : Int :=
  let sum := (n + bytsPerSec - 1).bmod 4294967296
  sum - sum % bytsPerSec

/-- The loop of `read` (`iso9660Stream.cpp:122-132`), at the `k`th read of the disk. -/
def readLoop (disk : Disk) (location count : Int) (k : Nat) (len offset : Int)
    (dst : Nat → UInt8) : Int × (Nat → UInt8) :=
  if len < count then
    let pos := location + offset + len
    let n := disk.returned k (roundSector (count - len)) pos
    if n ≤ 0 then (len, dst)
    else
      readLoop disk location count (k + 1) (len + n) (offset + n)
        (copyTo dst len.toNat ((List.range n.toNat).map fun i : Nat => disk.bytes (pos + i)))
  else (len, dst)
termination_by (count - len).toNat
decreasing_by
  show (count - (len + n)).toNat < (count - len).toNat
  omega

/-- `Iso9660Stream::read(dst, count, offset)` (`iso9660Stream.cpp:109-135`): what it returns and the
    buffer. -/
def read (s : Iso9660Stream) (disk : Disk) (dst : Nat → UInt8) (count offset : Int) :
    Int × (Nat → UInt8) :=
  if s.size.toNat ≤ offset ∨ count ≤ 0 then (0, dst)
  else
    let count := if s.size.toNat - offset < count then s.size.toNat - offset else count
    readLoop disk s.location.toNat count 0 0 offset dst

end Iso9660Stream

end EsOs.Iso9660

/-!
## Reading a file of an ISO 9660 volume

Every read of the disk takes whole sectors, and the length read counts twice in the position of the
next one: once by itself and once in the offset that grew with it. So `read` is right when the disk
delivers all at once, the count is made of sectors, and the place of the file fits into 32 bits.
-/

namespace EsOs.Iso9660

open EsOs.Lib

/-- The disk reads whole sectors, at least one of those asked for. -/
structure Disk.ReadsSectors (disk : Disk) : Prop where
  pos : ∀ k count pos, 0 < count → count % 2048 = 0 → pos % 2048 = 0 →
    0 < disk.returned k count pos
  le : ∀ k count pos, 0 < count → count % 2048 = 0 → pos % 2048 = 0 →
    disk.returned k count pos ≤ count
  sectors : ∀ k count pos, pos % 2048 = 0 → 0 < disk.returned k count pos →
    disk.returned k count pos % 2048 = 0

/-- The same disk with other bytes. -/
def Disk.withBytes (disk : Disk) (bytes : Int → UInt8) : Disk := { disk with bytes := bytes }

namespace DirectoryRecord

/-- The place of the file on the disk. -/
def place (r : DirectoryRecord) : Int :=
  ((r.location.toNat : Int) + r.attributeRecordLength.toNat) * 2048

/-- How many bytes there are to read. -/
def available (r : DirectoryRecord) (count offset : Int) : Int :=
  if r.dataLength.toNat ≤ offset ∨ count ≤ 0 then 0 else min count (r.dataLength.toNat - offset)

/-- What a read must return, and the bytes it must have stored. -/
def Reads (r : DirectoryRecord) (disk : Disk) (count offset : Int)
    (result : Int × (Nat → UInt8)) : Prop :=
  result.1 = r.available count offset ∧
    ∀ i : Nat, (i : Int) < r.available count offset →
      result.2 i = disk.bytes (r.place + offset + i)

end DirectoryRecord

namespace Iso9660Stream

theorem new_location (r : DirectoryRecord) :
    ((new r).location.toNat : Int) = r.place % 4294967296 := by
  simp [new, DirectoryRecord.place, bytsPerSec, UInt32.toNat_add, UInt32.toNat_mul]

theorem roundSector_eq {n : Int} (hpos : 0 < n) (hsectors : n % 2048 = 0) (hlt : n < 2147483648) :
    roundSector n = n := by
  have hsum : (n + (2048 : Nat) - 1).bmod 4294967296 = n + 2047 := by
    rw [Int.bmod_eq_of_le (by omega) (by omega)]
    omega
  rw [roundSector, bytsPerSec, hsum]
  omega

/-! ## The loop -/

section Loop

variable {disk : Disk} {location count : Int}

/-- The length read is made of sectors. -/
theorem readLoop_sectors (h : disk.ReadsSectors) (hlocation : location % 2048 = 0) (k : Nat)
    {len offset : Int} (hlen : len % 2048 = 0) (hoffset : offset % 2048 = 0)
    (dst : Nat → UInt8) : (readLoop disk location count k len offset dst).1 % 2048 = 0 := by
  fun_induction readLoop disk location count k len offset dst with
  | case1 => exact hlen
  | case2 k len offset dst hlt pos n hn ih =>
    have hsectors := h.sectors k (roundSector (count - len)) pos (by omega) (by omega)
    exact ih (by omega) (by omega)
  | case3 => exact hlen

/-- The bytes stored stay. -/
theorem readLoop_kept (k : Nat) {len offset : Int} (dst : Nat → UInt8) {i : Nat} (hi : i < len) :
    (readLoop disk location count k len offset dst).2 i = dst i := by
  fun_induction readLoop disk location count k len offset dst with
  | case1 => rfl
  | case2 k len offset dst hlt pos n hn ih =>
    rw [ih (by omega), copyTo_of_lt (by omega)]
  | case3 => rfl

/-- A read that returns bytes stores those at its position. -/
theorem readLoop_first (k : Nat) {len offset : Int} (dst : Nat → UInt8) (hlt : len < count)
    (hlen : 0 ≤ len) {i : Nat}
    (hi : i < disk.returned k (roundSector (count - len)) (location + offset + len)) :
    (readLoop disk location count k len offset dst).2 (len.toNat + i) =
      disk.bytes (location + offset + len + i) := by
  rw [readLoop, if_pos hlt]
  simp only
  rw [if_neg (by omega), readLoop_kept _ _ (by omega), copyTo_of_mem (by simp; omega)]
  simp

/-- The first read of the loop. -/
theorem readLoop_start {offset : Int} (dst : Nat → UInt8) (hpos : 0 < count)
    (hround : roundSector count = count) {i : Nat}
    (hi : i < disk.returned 0 count (location + offset)) :
    (readLoop disk location count 0 0 offset dst).2 i = disk.bytes (location + offset + i) := by
  have hfirst := @readLoop_first disk location count 0 0 offset dst hpos (Int.le_refl 0) i
  simp only [Int.sub_zero, hround, Int.add_zero, Int.toNat_zero, Nat.zero_add] at hfirst
  exact hfirst hi

end Loop

section Read

variable {r : DirectoryRecord} {disk : Disk} {count offset : Int}

/-- Without bytes to read nothing is done. -/
theorem read_of_none (h : r.available count offset = 0) (dst : Nat → UInt8) :
    (new r).read disk dst count offset = (0, dst) := by
  unfold DirectoryRecord.available at h
  refine if_pos ?_
  by_contra hnot
  rw [show (new r).size = r.dataLength from rfl] at hnot
  rw [if_neg hnot] at h
  omega

/-- Otherwise the loop runs for the bytes there are. -/
theorem read_of_some (h : 0 < r.available count offset) (dst : Nat → UInt8) :
    (new r).read disk dst count offset =
      readLoop disk (r.place % 4294967296) (r.available count offset) 0 0 offset dst := by
  unfold DirectoryRecord.available at h ⊢
  rw [read, show (new r).size = r.dataLength from rfl]
  split at h
  · exact absurd h (by decide)
  · rename_i hsome
    have hmin : (if (r.dataLength.toNat : Int) - offset < count then
        (r.dataLength.toNat : Int) - offset else count)
        = min count (r.dataLength.toNat - offset) := by
      split <;> omega
    rw [if_neg hsome, if_neg hsome, new_location, hmin]

/-- All the bytes at once. -/
theorem readLoop_whole {location c : Int} (hpos : 0 < c) (hsectors : c % 2048 = 0)
    (hlt : c < 2147483648) (hwhole : disk.returned 0 c (location + offset) = c)
    (dst : Nat → UInt8) : (readLoop disk location c 0 0 offset dst).1 = c := by
  rw [readLoop, if_pos hpos]
  simp only [Int.sub_zero, Int.add_zero, Int.zero_add, roundSector_eq hpos hsectors hlt, hwhole]
  rw [if_neg (by omega), readLoop, if_neg (by omega)]

/-- A disk whose only byte that is not zero stands at the position given. -/
def mark (pos : Int) : Int → UInt8 := fun p => if p = pos then 1 else 0

theorem eq_of_mark {p q : Int} (h : mark q p = mark q q) : p = q := by
  by_contra hne
  simp [mark, hne] at h

/-- `read` returns `min(count, size - offset)` and the bytes of the file, whatever the disk holds, if
    and only if there is nothing to read, or the count is made of sectors, the place of the file
    fits into 32 bits, and the first read of the disk delivers all. -/
theorem read_reads_iff (r : DirectoryRecord) (disk : Disk) (hdisk : disk.ReadsSectors)
    (count : Int) (hcount : count < 2147483648) (offset : Int) (hoffset : 0 ≤ offset)
    (hsector : offset % 2048 = 0) :
    (∀ bytes dst, r.Reads (disk.withBytes bytes) count offset
      ((new r).read (disk.withBytes bytes) dst count offset)) ↔
      r.available count offset = 0 ∨
        r.available count offset % 2048 = 0 ∧ r.place < 4294967296 ∧
          disk.returned 0 (r.available count offset) (r.place + offset) =
            r.available count offset := by
  have hplace : 0 ≤ r.place ∧ r.place % 2048 = 0 := by
    unfold DirectoryRecord.place
    omega
  have hle : 0 ≤ r.available count offset ∧ r.available count offset < 2147483648 := by
    unfold DirectoryRecord.available
    split <;> omega
  by_cases hpos : r.available count offset = 0
  · refine iff_of_true (fun bytes dst => ?_) (.inl hpos)
    rw [read_of_none hpos]
    exact ⟨hpos.symm, fun i hi => absurd hi (by omega)⟩
  · have hpos : 0 < r.available count offset := by omega
    simp only [read_of_some hpos, DirectoryRecord.Reads]
    generalize r.available count offset = c at *
    constructor
    · intro h
      have hsame : ∀ bytes, (disk.withBytes bytes).ReadsSectors :=
        fun _ => ⟨hdisk.pos, hdisk.le, hdisk.sectors⟩
      have hc : c % 2048 = 0 := by
        rw [← (h (mark 0) fun _ => 0).1]
        exact readLoop_sectors (hsame _) (by omega) 0 rfl hsector _
      have hround := roundSector_eq hpos hc hle.2
      have hposition : (r.place % 4294967296 + offset) % 2048 = 0 := by omega
      have hfirst := hdisk.pos 0 c _ hpos hc hposition
      have hplaced : r.place % 4294967296 = r.place := by
        obtain ⟨-, hbytes⟩ := h (mark (r.place + offset + (0 : Nat))) fun _ => 0
        have hbyte := hbytes 0 hpos
        have hfirst' : ((0 : Nat) : Int) <
            (disk.withBytes (mark (r.place + offset + (0 : Nat)))).returned 0 c
              (r.place % 4294967296 + offset) := hfirst
        rw [readLoop_start _ hpos hround hfirst'] at hbyte
        have := eq_of_mark hbyte
        omega
      rw [hplaced] at hfirst hposition
      refine .inr ⟨hc, by omega, ?_⟩
      by_contra hshort
      have hmax := hdisk.le 0 c _ hpos hc hposition
      have hsectors := hdisk.sectors 0 c _ hposition hfirst
      generalize hn : disk.returned 0 c (r.place + offset) = n at *
      have hrest := roundSector_eq (show 0 < c - n by omega) (by omega) (by omega)
      obtain ⟨-, hbytes⟩ := h (mark (r.place + offset + n.toNat)) fun _ => 0
      have hbyte := hbytes n.toNat (by omega)
      rw [readLoop, if_pos hpos] at hbyte
      simp only [Int.sub_zero, hround, hplaced, Int.add_zero, Int.zero_add] at hbyte
      have hn' : (disk.withBytes (mark (r.place + offset + n.toNat))).returned 0 c
          (r.place + offset) = n := hn
      simp only [hn'] at hbyte
      rw [if_neg (by omega), ← Nat.add_zero n.toNat, readLoop_first 1 _ (by omega) (by omega)]
        at hbyte
      · have := eq_of_mark hbyte
        omega
      · rw [hrest]
        exact hdisk.pos 1 (c - n) _ (by omega) (by omega) (by omega)
    · rintro (hzero | ⟨hc, hlow, hwhole⟩)
      · omega
      · have hplaced : r.place % 4294967296 = r.place := Int.emod_eq_of_lt hplace.1 hlow
        rw [hplaced]
        intro bytes dst
        have hwhole' : (disk.withBytes bytes).returned 0 c (r.place + offset) = c := hwhole
        refine ⟨readLoop_whole hpos hc hle.2 hwhole' dst, fun i hi => ?_⟩
        exact readLoop_start dst hpos (roundSector_eq hpos hc hle.2) (by omega)

end Read

/-- A disk that reads whole sectors, as many as are asked for. -/
def wholeDisk : Disk where
  bytes := fun p => UInt8.ofNat (p / 2048).toNat
  returned := fun _ count _ => count - count % 2048

theorem wholeDisk_readsSectors : wholeDisk.ReadsSectors where
  pos := by
    intro k count pos hpos hcount _
    show 0 < count - count % 2048
    omega
  le := by
    intro k count pos hpos _ _
    show count - count % 2048 ≤ count
    omega
  sectors := by
    intro k count pos _ _
    show (count - count % 2048) % 2048 = 0
    omega

/-- Two sectors of a file of three. -/
theorem read_reads_wholeDisk :
    DirectoryRecord.Reads ⟨100, 0, 6144⟩ wholeDisk 4096 2048
      ((new ⟨100, 0, 6144⟩).read wholeDisk (fun _ => 0) 4096 2048) :=
  (read_reads_iff ⟨100, 0, 6144⟩ wholeDisk wholeDisk_readsSectors 4096 (by decide) 2048 (by decide)
    (by decide)).mpr (.inr (by decide)) wholeDisk.bytes fun _ => 0

/-- A file of 100 bytes: `read` returns a sector. -/
theorem read_not_reads :
    wholeDisk.ReadsSectors ∧
      ¬ DirectoryRecord.Reads ⟨100, 0, 100⟩ wholeDisk 100 0
        ((new ⟨100, 0, 100⟩).read wholeDisk (fun _ => 0) 100 0) := by
  refine ⟨wholeDisk_readsSectors, fun h => ?_⟩
  have hreturn := h.1
  revert hreturn
  decide +kernel

end Iso9660Stream

end EsOs.Iso9660
