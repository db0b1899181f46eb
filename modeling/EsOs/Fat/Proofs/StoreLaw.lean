import EsOs.Fat.Proofs.Entry

/-!
# Storing an entry

What `setClusEntryVal` does to the entry, to the other entries, to the reserved bits of FAT32 and to
the copies of the table. `clusEntryVal` hands the reserved bits of an entry out with its value, so
that the value comes back as it was put in exactly where these bits are zero.
-/

namespace EsOs.Fat

namespace Disk

variable {write : Disk → Nat → Disk} {byte : Nat → UInt8} {disk : Disk} {width step n o i : Nat}

/-- The write puts the bytes `byte` at its offset and changes no others. -/
structure Puts (write : Disk → Nat → Disk) (byte : Nat → UInt8) (width : Nat) : Prop where
  inside : ∀ (d : Disk) o j, j < width → write d o (o + j) = byte j
  outside : ∀ (d : Disk) o i, (o ≤ i → o + width ≤ i) → write d o i = d i

theorem eachFat_outside (h : Puts write byte width)
    (hi : ∀ k < n, o + k * step ≤ i → o + k * step + width ≤ i) :
    eachFat write step n o disk i = disk i := by
  induction n generalizing o disk with
  | zero => rfl
  | succ n ih =>
    have hfirst := hi 0 (Nat.succ_pos n)
    rw [Nat.zero_mul, Nat.add_zero] at hfirst
    refine (ih fun k hk => ?_).trans (h.outside disk o i hfirst)
    have hnext := hi (k + 1) (Nat.succ_lt_succ hk)
    rw [Nat.succ_mul] at hnext
    omega

/-- The bytes that the writes put into each of the tables. -/
theorem eachFat_inside (h : Puts write byte width) (hstep : width ≤ step) {k j : Nat} (hk : k < n)
    (hj : j < width) : eachFat write step n o disk (o + k * step + j) = byte j := by
  induction n generalizing o disk k with
  | zero => cases hk
  | succ n ih =>
    cases k with
    | zero =>
      rw [Nat.zero_mul, Nat.add_zero]
      show eachFat write step n (o + step) (write disk o) (o + j) = _
      refine (eachFat_outside h fun k _ hle => ?_).trans (h.inside disk o j hj)
      omega
    | succ k =>
      rw [Nat.succ_mul, show o + (k * step + step) + j = o + step + k * step + j by omega]
      exact ih (Nat.lt_of_succ_lt_succ hk)

end Disk

namespace FatFileSystem

variable {s : FatFileSystem} {n v : Nat}

/-- The bits of an entry that hold its value. -/
def entryBits (s : Bpb) : Nat :=
  if s.isFat12 then 12 else if s.isFat16 then 16 else 28

/-- The bytes of the table, in the copy `k`. -/
def tableByte (s : FatFileSystem) (k i : Nat) : UInt8 :=
  s.disk (s.rsvdSecCnt * s.bytsPerSec + k * (s.fatSz * s.bytsPerSec) + i)

/-- All copies of the table hold the same bytes. -/
def Mirrored (s : FatFileSystem) : Prop :=
  ∀ k < s.numFATs, ∀ i < s.fatSz * s.bytsPerSec, s.tableByte k i = s.tableByte 0 i

/-- What storing `v` in the entry `n` is to do. -/
structure StoreLaw (s : FatFileSystem) (n v : Nat) : Prop where
  stored : (s.setClusEntryVal n v).clusEntryVal n = v % 2 ^ entryBits s.toBpb
  kept : ∀ m ≤ s.countOfClusters + 1, m ≠ n →
    (s.setClusEntryVal n v).clusEntryVal m = s.clusEntryVal m
  reserved : s.isFat32 = true → ∀ m ≤ s.countOfClusters + 1,
    (s.setClusEntryVal n v).disk.dword (s.entryOffset m) / 0x10000000 =
      s.disk.dword (s.entryOffset m) / 0x10000000
  hidden : s.isFat32 = true → ∀ m, s.IsCluster m →
    (s.setClusEntryVal n v).clusEntryVal m < 0x10000000
  copies : ∀ k < s.numFATs, ∀ i < s.entryWidth,
    (s.setClusEntryVal n v).tableByte k (s.fatOffset n + i) =
      (s.setClusEntryVal n v).tableByte 0 (s.fatOffset n + i)
  mirrored : s.Mirrored → (s.setClusEntryVal n v).Mirrored

/-- One write of `setClusEntryVal` puts the bytes of its buffer. -/
theorem put_puts (s : FatFileSystem) (buf : Nat) :
    Disk.Puts (s.put buf) (fun j => UInt8.ofNat (buf >>> (8 * j))) s.entryWidth := by
  unfold put Bpb.entryWidth
  split
  · refine ⟨fun d o j hj => ?_, fun d o i hi => Disk.xword_of_ne (by omega)⟩
    obtain rfl | rfl : j = 0 ∨ j = 1 := by omega
    · simp [Disk.xword]
    · simp [Disk.xword]
  · refine ⟨fun d o j hj => ?_, fun d o i hi => Disk.xdword_of_ne (by omega)⟩
    obtain rfl | rfl | rfl | rfl : j = 0 ∨ j = 1 ∨ j = 2 ∨ j = 3 := by omega
    · simp [Disk.xdword]
    · simp [Disk.xdword]
    · simp [Disk.xdword]
    · simp [Disk.xdword]

/-- The bytes of the entry in each copy of the table. -/
theorem tableByte_entry (h : s.WellFormed) (hn : n ≤ s.countOfClusters + 1) {k j : Nat}
    (hk : k < s.numFATs) (hj : j < s.entryWidth) :
    (s.setClusEntryVal n v).tableByte k (s.fatOffset n + j) =
      UInt8.ofNat (s.packEntry n v >>> (8 * j)) := by
  have hin := Bpb.fatOffset_le h hn
  have hoffset := Bpb.entryOffset_eq h hn
  have hwidth : s.entryWidth ≤ s.fatSz * s.bytsPerSec := by omega
  have hput := s.put_puts (s.packEntry n v)
  have hplace : s.rsvdSecCnt * s.bytsPerSec + k * (s.fatSz * s.bytsPerSec) + (s.fatOffset n + j) =
      s.entryOffset n + k * (s.fatSz * s.bytsPerSec) + j := by
    omega
  show Disk.eachFat (s.put (s.packEntry n v)) (u32 (s.fatSz * s.bytsPerSec)) s.numFATs
    (s.entryOffset n) s.disk (s.rsvdSecCnt * s.bytsPerSec + k * (s.fatSz * s.bytsPerSec) +
      (s.fatOffset n + j)) = _
  rw [Bpb.tableStep_eq h, hplace]
  exact Disk.eachFat_inside hput hwidth hk hj

/-- The other bytes of each copy stay. -/
theorem tableByte_other (h : s.WellFormed) (hn : n ≤ s.countOfClusters + 1) {k i : Nat}
    (hi : i < s.fatSz * s.bytsPerSec)
    (hother : s.fatOffset n ≤ i → s.fatOffset n + s.entryWidth ≤ i) :
    (s.setClusEntryVal n v).tableByte k i = s.tableByte k i := by
  have hin := Bpb.fatOffset_le h hn
  have hoffset := Bpb.entryOffset_eq h hn
  show Disk.eachFat (s.put (s.packEntry n v)) (u32 (s.fatSz * s.bytsPerSec)) s.numFATs
    (s.entryOffset n) s.disk _ = _
  rw [Bpb.tableStep_eq h]
  refine Disk.eachFat_outside (s.put_puts _) fun m _ hle => ?_
  show s.entryOffset n + m * (s.fatSz * s.bytsPerSec) + s.entryWidth ≤
    s.rsvdSecCnt * s.bytsPerSec + k * (s.fatSz * s.bytsPerSec) + i
  have hle : s.entryOffset n + m * (s.fatSz * s.bytsPerSec) ≤
    s.rsvdSecCnt * s.bytsPerSec + k * (s.fatSz * s.bytsPerSec) + i := hle
  generalize s.fatSz * s.bytsPerSec = table at *
  rcases Nat.lt_trichotomy m k with hlt | rfl | hgt
  · have := Nat.mul_le_mul_right table (Nat.succ_le_of_lt hlt)
    rw [Nat.succ_mul] at this
    omega
  · omega
  · have := Nat.mul_le_mul_right table (Nat.succ_le_of_lt hgt)
    rw [Nat.succ_mul] at this
    omega

theorem mirrored_set (h : s.WellFormed) (hn : n ≤ s.countOfClusters + 1) (hs : s.Mirrored) :
    (s.setClusEntryVal n v).Mirrored := by
  intro k hk i hi
  by_cases hentry : s.fatOffset n ≤ i ∧ i < s.fatOffset n + s.entryWidth
  · obtain ⟨j, rfl⟩ := Nat.exists_eq_add_of_le hentry.1
    rw [tableByte_entry h hn hk (by omega), tableByte_entry h hn h.fats (by omega)]
  · rw [tableByte_other h hn hi (by omega), tableByte_other h hn hi (by omega)]
    exact hs k hk i hi

theorem isFat16_of_fat32 (h32 : s.isFat32 = true) : s.isFat12 = false ∧ s.isFat16 = false := by
  simp only [Bpb.isFat32, decide_eq_true_eq] at h32
  simp only [Bpb.isFat12, Bpb.isFat16, decide_eq_false_iff_not, Bool.and_eq_false_iff]
  omega

/-- Below FAT32 an entry shows the value that was put into it. -/
theorem shown_of_narrow (h32 : s.isFat32 = false) : s.shown n v = v % 2 ^ entryBits s.toBpb := by
  have hlt : s.countOfClusters < 65525 := by
    simpa only [Bpb.isFat32, decide_eq_false_iff_not, Nat.not_le] using h32
  unfold shown entryBits
  split
  · rfl
  · rename_i h12
    have h16 : s.isFat16 = true := by
      simp only [Bpb.isFat12, decide_eq_true_eq] at h12
      simp only [Bpb.isFat16, Bool.and_eq_true, decide_eq_true_eq]
      omega
    rw [if_pos h16, if_pos h16]
    rfl

theorem shown_fat32 (h32 : s.isFat32 = true) :
    s.shown n v = v % 0x10000000 + s.clusEntryVal n / 0x10000000 * 0x10000000 := by
  obtain ⟨h12, h16⟩ := isFat16_of_fat32 h32
  simp only [shown, h12, h16, Bool.false_eq_true, if_false]

/-- A FAT32 volume with two tables, whose entry 2 has its reserved bits set in the first of them. -/
def reservedDisk : FatFileSystem where
  rsvdSecCnt := 32
  numFATs := 2
  secPerClus := 1
  bytsPerSec := 512
  bytsPerClus := 512
  fatSz := 512
  firstDataSector := 1056
  countOfClusters := 65525
  nxtFree := 2
  freeCount := 65524
  disk := fun i => if i = 16395 then 0xf0 else 0

theorem reservedDisk_wellFormed : reservedDisk.WellFormed where
  sector := by decide
  cluster := ⟨9, by decide, rfl⟩
  fats := by decide
  table := by decide
  addressed := by decide
  someCluster := by decide
  clusters := by decide

/-- The store law holds exactly where no reserved bits are set. -/
theorem store_law (h : s.WellFormed) (hn : s.IsCluster n) :
    s.StoreLaw n v ↔ (s.isFat32 = true → s.ReservedZero) := by
  have hset := fun {m} => @clusEntryVal_set s n m v h hn.2
  constructor
  · intro hlaw h32 m hm
    have hhidden := hlaw.hidden h32 m hm
    by_cases hne : m = n
    · have hbits : entryBits s.toBpb = 28 := by
        obtain ⟨h12, h16⟩ := isFat16_of_fat32 h32
        simp only [entryBits, h12, h16, Bool.false_eq_true, if_false]
      have hstored := hlaw.stored
      rw [hset hn.2, if_pos rfl, shown_fat32 h32, hbits] at hstored
      rw [hne]
      have : (2 : Nat) ^ 28 = 0x10000000 := rfl
      omega
    · rwa [hlaw.kept m hm.2 hne] at hhidden
  · intro hzero
    refine ⟨?_, ?_, ?_, ?_, ?_, mirrored_set h hn.2⟩
    · rw [hset hn.2, if_pos rfl]
      cases h32 : s.isFat32 with
      | false => exact shown_of_narrow h32
      | true =>
        obtain ⟨h12, h16⟩ := isFat16_of_fat32 h32
        have := hzero h32 n hn
        simp only [shown_fat32 h32, entryBits, h12, h16, Bool.false_eq_true, if_false]
        omega
    · intro m hm hne
      rw [hset hm, if_neg hne]
    · intro h32 m hm
      obtain ⟨h12, h16⟩ := isFat16_of_fat32 h32
      have hnew := @hset m hm
      rw [clusEntryVal_fat32 (s := s.setClusEntryVal n v) h12 h16, shown_fat32 h32,
        clusEntryVal_fat32 h12 h16, clusEntryVal_fat32 h12 h16] at hnew
      have hnew : (s.setClusEntryVal n v).disk.dword (s.entryOffset m) = _ := hnew
      rw [hnew]
      split
      · rename_i heq
        rw [heq]
        omega
      · rfl
    · intro h32 m hm
      rw [hset hm.2]
      split
      · rw [shown_fat32 h32]
        have := hzero h32 n hn
        omega
      · exact hzero h32 m hm
    · intro k hk i hi
      rw [tableByte_entry h hn.2 hk hi, tableByte_entry h hn.2 h.fats hi]

theorem store_law_reserved : reservedDisk.StoreLaw 2 5 ↔
    (reservedDisk.isFat32 = true → reservedDisk.ReservedZero) :=
  store_law reservedDisk_wellFormed ⟨by decide, by decide⟩

/-- What was put in as 5 comes back with the reserved bits of the entry. -/
theorem store_law_fails : reservedDisk.WellFormed ∧ reservedDisk.IsCluster 2 ∧
    ¬ reservedDisk.StoreLaw 2 5 := by
  refine ⟨reservedDisk_wellFormed, ⟨by decide, by decide⟩, fun hlaw => ?_⟩
  have hread : (reservedDisk.setClusEntryVal 2 5).clusEntryVal 2 = 0xf0000005 := by
    decide +kernel
  have hstored := hlaw.stored
  rw [hread] at hstored
  exact absurd hstored (by decide +kernel)

end FatFileSystem

end EsOs.Fat
