import EsOs.Lib.Word
import EsOs.Fat.Volume
import Mathlib.Tactic.Common

/-!
# The entries of the table as a map

The bytes of the table behave as a map from clusters to entries: `setClusEntryVal` changes one
entry and no other, in each of the three layouts, although neighbours of FAT12 share a byte and
every copy of the table is written.
-/

namespace EsOs.Fat

open EsOs.Lib

theorem u32_of_lt {n : Nat} (h : n < 4294967296) : u32 n = n :=
  Nat.mod_eq_of_lt h

theorem sub32_of_le {a b : Nat} (h : b ≤ a) : sub32 a b = a - b :=
  if_pos h

namespace Disk

variable (disk : Disk) (o v : Nat)

theorem word_eq : disk.word o = (disk o).toNat + (disk (o + 1)).toNat * 256 :=
  or_shiftLeft (k := 8) (UInt8.toNat_lt _) _

theorem word_lt : disk.word o < 65536 := by
  have h0 := UInt8.toNat_lt (disk o)
  have h1 := UInt8.toNat_lt (disk (o + 1))
  rw [word_eq]
  omega

theorem dword_eq :
    disk.dword o = (disk o).toNat + (disk (o + 1)).toNat * 256 + (disk (o + 2)).toNat * 65536 +
      (disk (o + 3)).toNat * 16777216 := by
  have h0 := UInt8.toNat_lt (disk o)
  have h1 := UInt8.toNat_lt (disk (o + 1))
  have h2 := UInt8.toNat_lt (disk (o + 2))
  have hlow := word_eq disk o
  unfold word at hlow
  unfold dword
  rw [hlow, or_shiftLeft (k := 16) (by omega), or_shiftLeft (k := 24) (by omega)]
  rfl

theorem dword_lt : disk.dword o < 4294967296 := by
  have h0 := UInt8.toNat_lt (disk o)
  have h1 := UInt8.toNat_lt (disk (o + 1))
  have h2 := UInt8.toNat_lt (disk (o + 2))
  have h3 := UInt8.toNat_lt (disk (o + 3))
  rw [dword_eq]
  omega

variable {disk o v}

theorem word_congr {disk' : Disk} (h : ∀ i, o ≤ i → i < o + 2 → disk' i = disk i) :
    disk'.word o = disk.word o := by
  rw [word_eq, word_eq, h o (by omega) (by omega), h (o + 1) (by omega) (by omega)]

theorem dword_congr {disk' : Disk} (h : ∀ i, o ≤ i → i < o + 4 → disk' i = disk i) :
    disk'.dword o = disk.dword o := by
  rw [dword_eq, dword_eq, h o (by omega) (by omega), h (o + 1) (by omega) (by omega),
    h (o + 2) (by omega) (by omega), h (o + 3) (by omega) (by omega)]

theorem xword_low (disk : Disk) (o v : Nat) : (disk.xword o v o).toNat = v % 256 := by
  simp [xword]

theorem xword_high (disk : Disk) (o v : Nat) :
    (disk.xword o v (o + 1)).toNat = v / 256 % 256 := by
  simp [xword, Nat.shiftRight_eq_div_pow]

theorem xword_of_ne (h : o ≤ i → o + 2 ≤ i) : disk.xword o v i = disk i := by
  unfold xword
  rw [if_neg (by omega), if_neg (by omega)]

theorem xdword_of_ne (h : o ≤ i → o + 4 ≤ i) : disk.xdword o v i = disk i := by
  unfold xdword
  rw [if_neg (by omega), if_neg (by omega), if_neg (by omega), if_neg (by omega)]

theorem word_xword : (disk.xword o v).word o = v % 65536 := by
  rw [word_eq, xword_low, xword_high]
  omega

theorem dword_xdword : (disk.xdword o v).dword o = v % 4294967296 := by
  rw [dword_eq]
  simp [xdword, Nat.shiftRight_eq_div_pow]
  omega

/-- The byte at a place before the second table is the one of the first write. -/
theorem eachFat_first {write : Disk → Nat → Disk} {step n : Nat}
    (hlocal : ∀ (d : Disk) o i, i < o → write d o i = d i) {i : Nat} (hi : i < o + step) :
    eachFat write step (n + 1) o disk i = write disk o i := by
  have hlater : ∀ n o (d : Disk), i < o → eachFat write step n o d i = d i := by
    intro n
    induction n with
    | zero => exact fun _ _ _ => rfl
    | succ n ih =>
      intro o d ho
      exact (ih (o + step) _ (Nat.lt_add_right step ho)).trans (hlocal d o i ho)
  exact hlater n (o + step) _ hi

theorem clear_of_off {count i : Nat} (h : o ≤ i → o + count ≤ i) :
    disk.clear o count i = disk i := by
  unfold clear
  rw [if_neg (by omega)]

end Disk

namespace Bpb

variable {s : Bpb} {n m : Nat}

theorem isEof_eq (h : s.WellFormed) : s.isEof n = decide (s.countOfClusters + 1 < n) := by
  have := h.clusters
  unfold isEof
  rw [u32_of_lt (by omega)]

theorem isEof_iff (h : s.WellFormed) : s.isEof n = true ↔ s.countOfClusters + 1 < n := by
  rw [isEof_eq h, decide_eq_true_iff]

theorem not_isEof (h : s.WellFormed) : ¬ s.isEof n = true ↔ n ≤ s.countOfClusters + 1 := by
  rw [isEof_iff h, Nat.not_lt]

/-- The entry of a cluster lies in the table. -/
theorem fatOffset_le (h : s.WellFormed) (hn : n ≤ s.countOfClusters + 1) :
    s.fatOffset n + s.entryWidth ≤ s.fatSz * s.bytsPerSec := by
  have hc := h.clusters
  refine Nat.le_trans (Nat.add_le_add_right ?_ _) h.table
  unfold fatOffset
  split
  · rw [u32_of_lt (by omega), u32_of_lt (by omega)]
    omega
  · split
    · rw [u32_of_lt (by omega), u32_of_lt (by omega)]
      omega
    · rw [u32_of_lt (by omega), u32_of_lt (by omega)]
      omega

theorem fatOffset_lt (h : s.WellFormed) (hn : n ≤ s.countOfClusters + 1) :
    s.fatOffset n < s.fatSz * s.bytsPerSec := by
  have := fatOffset_le h hn
  have : 0 < s.entryWidth := by
    unfold entryWidth
    split <;> omega
  omega

theorem entryOffset_eq (h : s.WellFormed) (hn : n ≤ s.countOfClusters + 1) :
    s.entryOffset n = s.rsvdSecCnt * s.bytsPerSec + s.fatOffset n := by
  have hlt := fatOffset_lt h hn
  have haddr := h.addressed
  rw [Nat.add_mul] at haddr
  have hsec : s.fatOffset n / s.bytsPerSec < s.fatSz :=
    Nat.div_lt_of_lt_mul (by rwa [Nat.mul_comm] at hlt)
  have hsum : s.rsvdSecCnt + s.fatOffset n / s.bytsPerSec < 4294967296 := by
    have : s.rsvdSecCnt + s.fatSz ≤ (s.rsvdSecCnt + s.fatSz) * s.bytsPerSec :=
      Nat.le_mul_of_pos_right _ h.sector
    have := h.addressed
    omega
  have hsplit := Nat.div_add_mod (s.fatOffset n) s.bytsPerSec
  rw [Nat.mul_comm] at hsplit
  unfold entryOffset
  rw [u32_of_lt hsum, Nat.add_mul, Nat.add_assoc, hsplit, u32_of_lt (by omega)]

theorem tableStep_eq (h : s.WellFormed) :
    u32 (s.fatSz * s.bytsPerSec) = s.fatSz * s.bytsPerSec := by
  have haddr := h.addressed
  rw [Nat.add_mul] at haddr
  exact u32_of_lt (by omega)

end Bpb

namespace FatFileSystem

variable {s : FatFileSystem} {n m v : Nat}

@[simp] theorem setClusEntryVal_bpb (s : FatFileSystem) (n v : Nat) :
    (s.setClusEntryVal n v).toBpb = s.toBpb := rfl

@[simp] theorem setClusEntryVal_nxtFree (s : FatFileSystem) (n v : Nat) :
    (s.setClusEntryVal n v).nxtFree = s.nxtFree := rfl

@[simp] theorem setClusEntryVal_freeCount (s : FatFileSystem) (n v : Nat) :
    (s.setClusEntryVal n v).freeCount = s.freeCount := rfl

@[simp] theorem zeroCluster_bpb (s : FatFileSystem) (c : Nat) :
    (s.zeroCluster c).toBpb = s.toBpb := rfl

@[simp] theorem zeroCluster_nxtFree (s : FatFileSystem) (c : Nat) :
    (s.zeroCluster c).nxtFree = s.nxtFree := rfl

@[simp] theorem zeroCluster_freeCount (s : FatFileSystem) (c : Nat) :
    (s.zeroCluster c).freeCount = s.freeCount := rfl

/-- An entry depends on the bytes it is read from. -/
theorem clusEntryVal_of_bytes {s s' : FatFileSystem} (hb : s'.toBpb = s.toBpb) {n : Nat}
    (hd : ∀ i, s.entryOffset n ≤ i → i < s.entryOffset n + s.entryWidth →
      s'.disk i = s.disk i) : s'.clusEntryVal n = s.clusEntryVal n := by
  unfold Bpb.entryWidth at hd
  unfold clusEntryVal
  rw [hb]
  generalize s.entryOffset n = o at hd ⊢
  cases h12 : s.isFat12 with
  | true =>
    rw [h12] at hd
    simp only [if_true, Disk.word_congr hd]
  | false =>
    cases h16 : s.isFat16 with
    | true =>
      rw [h12, h16] at hd
      exact Disk.word_congr hd
    | false =>
      rw [h12, h16] at hd
      exact Disk.dword_congr hd

/-- Entries depend on the disk only. -/
theorem clusEntryVal_congr {s s' : FatFileSystem} (hb : s'.toBpb = s.toBpb)
    (hd : s'.disk = s.disk) (n : Nat) : s'.clusEntryVal n = s.clusEntryVal n :=
  clusEntryVal_of_bytes hb fun _ _ _ => by rw [hd]

@[simp] theorem clusEntryVal_nxtFree (s : FatFileSystem) (k m : Nat) :
    FatFileSystem.clusEntryVal { s with nxtFree := k } m = s.clusEntryVal m := rfl

@[simp] theorem clusEntryVal_freeCount (s : FatFileSystem) (k m : Nat) :
    FatFileSystem.clusEntryVal { s with freeCount := k } m = s.clusEntryVal m := rfl

/-- What one write of `setClusEntryVal` puts on the disk. -/
def put (s : FatFileSystem) (buf : Nat) (disk : Disk) (offset : Nat) : Disk :=
  if s.isFat12 || s.isFat16 then disk.xword offset buf else disk.xdword offset buf

/-- After `setClusEntryVal`, the first table shows the first of the writes. -/
theorem setClusEntryVal_disk (h : s.WellFormed) (hn : n ≤ s.countOfClusters + 1) {i : Nat}
    (hi : i < s.entryOffset n + s.fatSz * s.bytsPerSec) :
    (s.setClusEntryVal n v).disk i = s.put (s.packEntry n v) s.disk (s.entryOffset n) i := by
  obtain ⟨k, hk⟩ := Nat.exists_eq_add_one.mpr h.fats
  have hlocal : ∀ (d : Disk) o i, i < o → s.put (s.packEntry n v) d o i = d i := by
    intro d o i hio
    unfold put
    split
    · exact Disk.xword_of_ne (by omega)
    · exact Disk.xdword_of_ne (by omega)
  show Disk.eachFat (s.put (s.packEntry n v)) (u32 (s.fatSz * s.bytsPerSec)) s.numFATs
    (s.entryOffset n) s.disk i = _
  rw [Bpb.tableStep_eq h, hk]
  exact Disk.eachFat_first hlocal hi

/-- An entry of the first table is read before the second one. -/
theorem entry_before (h : s.WellFormed) (hn : n ≤ s.countOfClusters + 1)
    (hm : m ≤ s.countOfClusters + 1) :
    s.entryOffset m + s.entryWidth ≤ s.entryOffset n + s.fatSz * s.bytsPerSec := by
  rw [Bpb.entryOffset_eq h hn, Bpb.entryOffset_eq h hm]
  have := Bpb.fatOffset_le h hm
  omega

/-- The value that an entry shows after `v` was put into it: the bits that fit, and on FAT32 its
    own reserved bits. -/
def shown (s : FatFileSystem) (n v : Nat) : Nat :=
  if s.isFat12 then v % 4096
  else if s.isFat16 then v % 65536
  else v % 0x10000000 + s.clusEntryVal n / 0x10000000 * 0x10000000

section Fat12

variable (h : s.WellFormed) (h12 : s.isFat12 = true)
include h h12

omit h in
theorem clusEntryVal_fat12 (n : Nat) :
    s.clusEntryVal n =
      if n % 2 = 1 then s.disk.word (s.entryOffset n) / 16
      else s.disk.word (s.entryOffset n) % 4096 := by
  unfold clusEntryVal
  simp only [h12, if_true]
  rw [Nat.shiftRight_eq_div_pow, show (0xfff : Nat) = 2 ^ 12 - 1 from rfl, and_low]
  rfl

omit h in
theorem packEntry_fat12 (n v : Nat) :
    s.packEntry n v =
      if n % 2 = 1 then
        s.disk.word (s.entryOffset n) % 16 + v % 0x10000000 * 16
      else v % 4096 + s.disk.word (s.entryOffset n) / 4096 % 16 * 4096 := by
  unfold packEntry
  simp only [h12, if_true]
  split
  · have hv : u32 (v <<< 4) = v % 0x10000000 * 2 ^ 4 := by
      rw [Nat.shiftLeft_eq]
      unfold u32
      omega
    rw [show (0x000f : Nat) = 2 ^ 4 - 1 from rfl, and_low, hv, Nat.or_comm,
      or_mul (Nat.mod_lt _ (by decide))]
    rfl
  · rw [show (0xfff : Nat) = 2 ^ 12 - 1 from rfl, and_low,
      show (0xf000 : Nat) = (2 ^ 4 - 1) <<< 12 from rfl, and_field,
      or_mul (Nat.mod_lt _ (by decide))]
    rfl

theorem entryOffset_fat12 (hn : n ≤ s.countOfClusters + 1) :
    s.entryOffset n = s.rsvdSecCnt * s.bytsPerSec + (n + n / 2) := by
  have := h.clusters
  rw [Bpb.entryOffset_eq h hn]
  unfold Bpb.fatOffset
  rw [if_pos h12, u32_of_lt (by omega)]

theorem set_word_fat12 (hn : n ≤ s.countOfClusters + 1) (hm : m ≤ s.countOfClusters + 1) :
    (s.setClusEntryVal n v).disk.word (s.entryOffset m) =
      (s.disk.xword (s.entryOffset n) (s.packEntry n v)).word (s.entryOffset m) := by
  have hbefore := entry_before h hn hm
  have hwidth : s.entryWidth = 2 := by simp [Bpb.entryWidth, h12]
  refine Disk.word_congr fun i _ hi => ?_
  rw [setClusEntryVal_disk h hn (by omega)]
  simp [put, h12]

theorem set_fat12_self (hn : n ≤ s.countOfClusters + 1) :
    (s.setClusEntryVal n v).clusEntryVal n = v % 4096 := by
  rw [clusEntryVal_fat12 (s := s.setClusEntryVal n v) h12]
  show (if n % 2 = 1 then (s.setClusEntryVal n v).disk.word (s.entryOffset n) / 16
    else (s.setClusEntryVal n v).disk.word (s.entryOffset n) % 4096) = _
  rw [set_word_fat12 h h12 hn hn, Disk.word_xword, packEntry_fat12 h12]
  split <;> omega

theorem set_fat12_of_ne (hn : n ≤ s.countOfClusters + 1) (hm : m ≤ s.countOfClusters + 1)
    (hne : m ≠ n) : (s.setClusEntryVal n v).clusEntryVal m = s.clusEntryVal m := by
  rw [clusEntryVal_fat12 (s := s.setClusEntryVal n v) h12, clusEntryVal_fat12 h12]
  show (if m % 2 = 1 then (s.setClusEntryVal n v).disk.word (s.entryOffset m) / 16
    else (s.setClusEntryVal n v).disk.word (s.entryOffset m) % 4096) = _
  rw [set_word_fat12 h h12 hn hm]
  have hon := entryOffset_fat12 h h12 hn
  have hom := entryOffset_fat12 h h12 hm
  have hpack := packEntry_fat12 h12 n v
  generalize s.entryOffset n = on at hon hpack ⊢
  generalize s.entryOffset m = om at hom ⊢
  generalize s.packEntry n v = buf at hpack ⊢
  have hlow := Disk.xword_low s.disk on buf
  have hhigh := Disk.xword_high s.disk on buf
  -- two entries share a byte when they are the even and the odd one of a pair
  by_cases hup : n % 2 = 0 ∧ m = n + 1
  · obtain ⟨heven, rfl⟩ := hup
    have hodd : (n + 1) % 2 = 1 := by omega
    have hom' : om = on + 1 := by omega
    rw [if_neg (by omega), Disk.word_eq] at hpack
    rw [if_pos hodd, if_pos hodd, hom', Disk.word_eq, Disk.word_eq, hhigh,
      Disk.xword_of_ne (by omega)]
    have := UInt8.toNat_lt (s.disk on)
    have := UInt8.toNat_lt (s.disk (on + 1))
    omega
  · by_cases hdown : n % 2 = 1 ∧ n = m + 1
    · obtain ⟨hodd, rfl⟩ := hdown
      have heven : ¬ m % 2 = 1 := by omega
      have hon' : on = om + 1 := by omega
      subst hon'
      rw [if_pos hodd, Disk.word_eq] at hpack
      rw [if_neg heven, if_neg heven, Disk.word_eq, Disk.word_eq, hlow,
        Disk.xword_of_ne (by omega)]
      have := UInt8.toNat_lt (s.disk om)
      have := UInt8.toNat_lt (s.disk (om + 1))
      omega
    · rw [Disk.word_congr fun i hi hi' => Disk.xword_of_ne (by omega)]

end Fat12

section Fat16

variable (h : s.WellFormed) (h12 : s.isFat12 = false) (h16 : s.isFat16 = true)
include h h12 h16

omit h in
theorem clusEntryVal_fat16 (n : Nat) :
    s.clusEntryVal n = s.disk.word (s.entryOffset n) := by
  simp [clusEntryVal, h12, h16]

theorem entryOffset_fat16 (hn : n ≤ s.countOfClusters + 1) :
    s.entryOffset n = s.rsvdSecCnt * s.bytsPerSec + n * 2 := by
  have := h.clusters
  rw [Bpb.entryOffset_eq h hn]
  unfold Bpb.fatOffset
  rw [if_neg (by simp [h12]), if_pos h16, u32_of_lt (by omega)]

theorem set_fat16 (hn : n ≤ s.countOfClusters + 1) (hm : m ≤ s.countOfClusters + 1) :
    (s.setClusEntryVal n v).clusEntryVal m = if m = n then v % 65536 else s.clusEntryVal m := by
  have hbefore := entry_before h hn hm
  have hwidth : s.entryWidth = 2 := by simp [Bpb.entryWidth, h16]
  have hpack : s.packEntry n v = v := by simp [packEntry, h12, h16]
  have hword : (s.setClusEntryVal n v).disk.word (s.entryOffset m) =
      (s.disk.xword (s.entryOffset n) v).word (s.entryOffset m) := by
    refine Disk.word_congr fun i _ hi => ?_
    rw [setClusEntryVal_disk h hn (by omega), hpack]
    simp [put, h16]
  rw [clusEntryVal_fat16 (s := s.setClusEntryVal n v) h12 h16, clusEntryVal_fat16 h12 h16]
  refine hword.trans ?_
  have hon := entryOffset_fat16 h h12 h16 hn
  have hom := entryOffset_fat16 h h12 h16 hm
  split
  · rename_i heq
    rw [heq, Disk.word_xword]
  · exact Disk.word_congr fun i _ _ => Disk.xword_of_ne (by omega)

end Fat16

section Fat32

variable (h : s.WellFormed) (h12 : s.isFat12 = false) (h16 : s.isFat16 = false)
include h h12 h16

omit h in
theorem clusEntryVal_fat32 (n : Nat) :
    s.clusEntryVal n = s.disk.dword (s.entryOffset n) := by
  simp [clusEntryVal, h12, h16]

theorem entryOffset_fat32 (hn : n ≤ s.countOfClusters + 1) :
    s.entryOffset n = s.rsvdSecCnt * s.bytsPerSec + n * 4 := by
  have := h.clusters
  rw [Bpb.entryOffset_eq h hn]
  unfold Bpb.fatOffset
  rw [if_neg (by simp [h12]), if_neg (by simp [h16]), u32_of_lt (by omega)]

omit h in
theorem packEntry_fat32 (n v : Nat) :
    s.packEntry n v = v % 0x10000000 + s.clusEntryVal n / 0x10000000 * 0x10000000 := by
  have hlt := Disk.dword_lt s.disk (s.entryOffset n)
  rw [clusEntryVal_fat32 h12 h16]
  unfold packEntry
  simp only [h12, h16, Bool.false_eq_true, if_false]
  rw [show (0x0fffffff : Nat) = 2 ^ 28 - 1 from rfl, and_low,
    show (0xf0000000 : Nat) = (2 ^ 4 - 1) <<< 28 from rfl, and_field,
    or_mul (Nat.mod_lt _ (by decide))]
  omega

theorem set_fat32 (hn : n ≤ s.countOfClusters + 1) (hm : m ≤ s.countOfClusters + 1) :
    (s.setClusEntryVal n v).clusEntryVal m =
      if m = n then v % 0x10000000 + s.clusEntryVal n / 0x10000000 * 0x10000000
      else s.clusEntryVal m := by
  have hbefore := entry_before h hn hm
  have hwidth : s.entryWidth = 4 := by simp [Bpb.entryWidth, h12, h16]
  have hword : (s.setClusEntryVal n v).disk.dword (s.entryOffset m) =
      (s.disk.xdword (s.entryOffset n) (s.packEntry n v)).dword (s.entryOffset m) := by
    refine Disk.dword_congr fun i _ hi => ?_
    rw [setClusEntryVal_disk h hn (by omega)]
    simp [put, h12, h16]
  rw [clusEntryVal_fat32 (s := s.setClusEntryVal n v) h12 h16]
  refine hword.trans ?_
  have hon := entryOffset_fat32 h h12 h16 hn
  have hom := entryOffset_fat32 h h12 h16 hm
  split
  · rename_i heq
    have hold : s.clusEntryVal n < 4294967296 := by
      rw [clusEntryVal_fat32 h12 h16]
      exact Disk.dword_lt _ _
    rw [heq, Disk.dword_xdword, packEntry_fat32 h12 h16]
    omega
  · rw [clusEntryVal_fat32 h12 h16]
    exact Disk.dword_congr fun i _ _ => Disk.xdword_of_ne (by omega)

end Fat32

/-- `setClusEntryVal` changes the entry it is given and no other. -/
theorem clusEntryVal_set (h : s.WellFormed) (hn : n ≤ s.countOfClusters + 1)
    (hm : m ≤ s.countOfClusters + 1) :
    (s.setClusEntryVal n v).clusEntryVal m =
      if m = n then s.shown n v else s.clusEntryVal m := by
  unfold shown
  cases h12 : s.isFat12 with
  | true =>
    split
    · rename_i heq
      rw [heq]
      exact set_fat12_self h h12 hn
    · rename_i hne
      exact set_fat12_of_ne h h12 hn hm hne
  | false =>
    cases h16 : s.isFat16 with
    | true => exact set_fat16 h h12 h16 hn hm
    | false => exact set_fat32 h h12 h16 hn hm

/-- An entry with clear reserved bits shows a cluster number as it was put there. -/
theorem shown_of_le (h : s.WellFormed) (hr : s.clusEntryVal n < 0x10000000)
    (hv : v ≤ s.countOfClusters + 1) : s.shown n v = v := by
  have := h.clusters
  unfold shown
  split
  · rename_i h12
    have : s.countOfClusters < 4085 := by simpa [Bpb.isFat12] using h12
    omega
  · split
    · rename_i h16
      have : s.countOfClusters < 65525 := by
        simp only [Bpb.isFat16, Bool.and_eq_true, decide_eq_true_iff] at h16
        exact h16.2
      omega
    · omega

/-- An end mark of 28 bits or more shows as one in each of the layouts. -/
theorem isEof_shown (h : s.WellFormed) (hv : v % 0x10000000 = 0x0fffffff) :
    s.isEof (s.shown n v) = true := by
  rw [Bpb.isEof_iff h]
  have := h.clusters
  unfold shown
  split
  · rename_i h12
    have : s.countOfClusters < 4085 := by simpa [Bpb.isFat12] using h12
    omega
  · split
    · rename_i h16
      have : s.countOfClusters < 65525 := by
        simp only [Bpb.isFat16, Bool.and_eq_true, decide_eq_true_iff] at h16
        exact h16.2
      omega
    · omega

theorem shown_lt (hr : s.clusEntryVal n < 0x10000000) : s.shown n v < 0x10000000 := by
  unfold shown
  split
  · omega
  · split <;> omega

end FatFileSystem

end EsOs.Fat
