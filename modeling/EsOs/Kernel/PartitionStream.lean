import EsOs.Kernel.Mount

/-!
# Reading and writing a partition

`PartitionStream::read` and `PartitionStream::write` of `os/kernel/port/partitionStream.cpp`: a
request for a range of a partition is handed on to the disk. An `int` and a `long long` are machine
integers, and a sum that does not fit a `long long` wraps.
-/

namespace EsOs.Kernel

/-- An integer kept in a `long long`. -/
def toLongLong (n : Int) : Int :=
  n.bmod 18446744073709551616

/-- The stream under the partitions: how many bytes it transfers from an offset on, when it is asked
    for `count` at most. -/
structure DiskStream where
  transferred : Int → Int → Nat
  le_count : ∀ count offset, (transferred count offset : Int) ≤ max count 0

/-- `offset` and `size` of a `PartitionStream` (`partition.h:47-48`). -/
structure PartitionRange where
  offset : Int64
  size : Int64
deriving DecidableEq, Repr

/-- What a call does to the disk: its result and the bytes of the disk that are transferred. -/
structure Transfer where
  result : Int
  start : Int
  length : Nat

namespace PartitionRange

/-- The body of `read` and of `write`: the disk is called unless the range ends beyond the size. -/
def access (p : PartitionRange) (disk : DiskStream) (count : Int32) (offset : Int64) : Transfer :=
  if p.size.toInt < toLongLong (offset.toInt + count.toInt) then ⟨-1, 0, 0⟩
  else
    let start := toLongLong (p.offset.toInt + offset.toInt)
    let n := disk.transferred count.toInt start
    ⟨n, start, n⟩

/-- `PartitionStream::read(dst, count, offset)` (`partitionStream.cpp:325-333`). -/
def read (p : PartitionRange) (disk : DiskStream) (count : Int32) (offset : Int64) : Transfer :=
  p.access disk count offset

/-- `PartitionStream::write(src, count, offset)` (`partitionStream.cpp:341-350`). -/
def write (p : PartitionRange) (disk : DiskStream) (count : Int32) (offset : Int64) : Transfer :=
  p.access disk count offset

/-- The bytes transferred are bytes of the partition, and there are none where the request starts
    outside of it. -/
structure Confines (p : PartitionRange) (offset : Int64) (t : Transfer) : Prop where
  within : ∀ i < t.length,
    p.offset.toInt ≤ t.start + i ∧ t.start + i < p.offset.toInt + p.size.toInt
  outside : offset.toInt < 0 ∨ p.size.toInt ≤ offset.toInt → t.length = 0

/-- A request stays in the partition on every disk, both for reading and for writing. -/
def Confined (p : PartitionRange) (count : Int32) (offset : Int64) : Prop :=
  ∀ disk, p.Confines offset (p.read disk count offset) ∧
    p.Confines offset (p.write disk count offset)

/-- The request asks for nothing, is refused, or starts behind the start of the partition and none
    of its sums wraps. -/
def Fits (p : PartitionRange) (count : Int32) (offset : Int64) : Prop :=
  count.toInt ≤ 0 ∨ p.size.toInt < toLongLong (offset.toInt + count.toInt) ∨
    (0 ≤ offset.toInt ∧ offset.toInt + count.toInt < 9223372036854775808 ∧
      p.offset.toInt + offset.toInt < 9223372036854775808)

end PartitionRange

/-- The range of a partition of the disk. -/
def PartitionStream.range (s : PartitionStream) : PartitionRange :=
  ⟨Int64.ofNat s.offset, Int64.ofNat s.size⟩

end EsOs.Kernel

/-!
## Requests stay in the partition

A request is checked at its end only. It stays in the partition if and only if it asks for nothing,
is refused, or starts inside and none of the two sums wraps.
-/

namespace EsOs.Kernel.PartitionRange

theorem toLongLong_of_fits {n : Int} (hlow : -9223372036854775808 ≤ n)
    (hhigh : n < 9223372036854775808) : toLongLong n = n :=
  Int.bmod_eq_of_le (by omega) (by omega)

variable {p : PartitionRange} {count : Int32} {offset : Int64}

/-- The disk that transfers all it is asked for. -/
def wholeTransfers : DiskStream where
  transferred count _ := count.toNat
  le_count count _ := by omega

theorem confines_of_none {t : Transfer} (h : t.length = 0) : p.Confines offset t :=
  ⟨fun i hi => by omega, fun _ => h⟩

theorem access_refused (disk : DiskStream)
    (h : p.size.toInt < toLongLong (offset.toInt + count.toInt)) :
    (p.access disk count offset).length = 0 := by
  rw [access, if_pos h]

theorem access_accepted (disk : DiskStream)
    (h : ¬ p.size.toInt < toLongLong (offset.toInt + count.toInt)) :
    (p.access disk count offset).start = toLongLong (p.offset.toInt + offset.toInt) ∧
      (p.access disk count offset).length =
        disk.transferred count.toInt (toLongLong (p.offset.toInt + offset.toInt)) := by
  rw [access, if_neg h]
  exact ⟨rfl, rfl⟩

/-- Where the condition holds, every disk stays in the partition. -/
theorem access_confines (disk : DiskStream) (h : p.Fits count offset) :
    p.Confines offset (p.access disk count offset) := by
  by_cases hcount : count.toInt ≤ 0
  · refine confines_of_none ?_
    unfold access
    split
    · rfl
    · have := disk.le_count count.toInt (toLongLong (p.offset.toInt + offset.toInt))
      simp only
      omega
  by_cases hrefused : p.size.toInt < toLongLong (offset.toInt + count.toInt)
  · exact confines_of_none (access_refused disk hrefused)
  obtain ⟨hstart, hlength⟩ := access_accepted disk hrefused
  have hle := disk.le_count count.toInt (toLongLong (p.offset.toInt + offset.toInt))
  rw [← hlength] at hle
  rcases h with hnone | hrefused' | ⟨hfirst, hend, hsum⟩
  · exact absurd hnone hcount
  · exact absurd hrefused' hrefused
  · have hoffset := p.offset.le_toInt
    rw [toLongLong_of_fits (by omega) hsum] at hstart
    rw [toLongLong_of_fits (by omega) hend] at hrefused
    exact ⟨fun i hi => by omega, fun hout => by omega⟩

/-- A request that all of is transferred, and that stays in the partition. -/
theorem condition_of_whole (hcount : 0 < count.toInt)
    (haccepted : ¬ p.size.toInt < toLongLong (offset.toInt + count.toInt))
    (h : p.Confines offset (p.access wholeTransfers count offset)) :
    0 ≤ offset.toInt ∧ offset.toInt + count.toInt < 9223372036854775808 ∧
      p.offset.toInt + offset.toInt < 9223372036854775808 := by
  obtain ⟨hstart, hlength⟩ := access_accepted wholeTransfers haccepted
  change _ = count.toInt.toNat at hlength
  have hinside : ¬ (offset.toInt < 0 ∨ p.size.toInt ≤ offset.toInt) := fun hout => by
    have := h.outside hout
    omega
  obtain ⟨hfirst, -⟩ := h.within 0 (by omega)
  obtain ⟨-, hlast⟩ := h.within (count.toInt.toNat - 1) (by omega)
  have hsize := p.size.toInt_lt
  have hoffset := p.offset.le_toInt
  have hoffset' := p.offset.toInt_lt
  have hsum : p.offset.toInt + offset.toInt < 9223372036854775808 := by
    by_contra hover
    rw [hstart, toLongLong, Int.bmod_def] at hfirst
    omega
  rw [hstart, toLongLong_of_fits (by omega) hsum] at hlast
  omega

/-- A request stays in the partition if and only if it asks for nothing, is refused, or starts
    inside and none of its sums wraps. -/
theorem confined_iff (p : PartitionRange) (count : Int32) (offset : Int64) :
    p.Confined count offset ↔ p.Fits count offset := by
  constructor
  · intro h
    by_cases hcount : count.toInt ≤ 0
    · exact .inl hcount
    by_cases hrefused : p.size.toInt < toLongLong (offset.toInt + count.toInt)
    · exact .inr (.inl hrefused)
    exact .inr (.inr (condition_of_whole (Int.not_le.mp hcount) hrefused (h wholeTransfers).1))
  · exact fun h disk => ⟨access_confines disk h, access_confines disk h⟩

/-- A read of 512 bytes that starts 512 bytes before the partition. -/
theorem not_confined_before : ¬ PartitionRange.Confined ⟨1048576, 1048576⟩ 512 (-512) := by
  intro h
  have hnone := (h wholeTransfers).1.outside (by decide)
  revert hnone
  decide

/-- Where the partition is a part of the disk, only the first sum can wrap. -/
theorem fits_range_iff {g : Geometry} (hdisk : g.diskSize < 9223372036854775808)
    {s : PartitionStream} (h : s.Inside g) (count : Int32) (offset : Int64) :
    s.range.Fits count offset ↔
      count.toInt ≤ 0 ∨ (0 ≤ offset.toInt ∧ offset.toInt + count.toInt < 9223372036854775808) ∨
        (offset.toInt < 0 ∧ (s.size : Int) < offset.toInt + count.toInt) := by
  have hfits : s.offset + s.size ≤ g.diskSize := h
  have hsize : s.range.size.toInt = s.size := Int64.toInt_ofNat_of_lt (by omega)
  have hoffset : s.range.offset.toInt = s.offset := Int64.toInt_ofNat_of_lt (by omega)
  rw [Fits, hsize, hoffset]
  by_cases hcount : count.toInt ≤ 0
  · simp only [hcount, true_or]
  have hlow := offset.le_toInt
  have hhigh := offset.toInt_lt
  have hmost := count.toInt_lt
  by_cases hsum : offset.toInt + count.toInt < 9223372036854775808
  · rw [toLongLong_of_fits (by omega) hsum]
    omega
  · have hwraps : toLongLong (offset.toInt + count.toInt) < 0 := by
      rw [toLongLong, Int.bmod_def]
      omega
    omega

end EsOs.Kernel.PartitionRange
