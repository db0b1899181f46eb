import EsOs.Fat.Volume

/-!
# Where the clusters of a volume lie

The bytes of the partition that a transfer for a data cluster touches, against the exact position
of the cluster. The position is a product of two 32-bit numbers that is cut to 32 bits, and neither
the total of the sectors nor an entry that names no cluster is checked.
-/

namespace EsOs.Fat

namespace BootSector

/-- The first sector of the data area, as an exact number. -/
def dataStart (b : BootSector) : Nat :=
  b.rsvdSecCnt.toNat + b.numFATs.toNat * b.fatSz + b.rootDirSectors

end BootSector

namespace FatFileSystem

/-- A transfer for a data cluster touches the byte `i` of the partition as a byte of the cluster
    `m`. -/
def Uses (s : FatFileSystem) (m i : Nat) : Prop :=
  ∃ count c offset j, s.IsCluster c ∧ offset % s.bytsPerSec = 0 ∧
    j < (s.transfer count c offset).2 ∧ m = c + (offset + j) / s.bytsPerClus ∧
    i = (s.transfer count c offset).1 + j

/-- The transfers for the data clusters go to their exact positions, stay inside the data area and
    touch no byte for two clusters. -/
structure Addressed (b : BootSector) (s : FatFileSystem) : Prop where
  exact : ∀ count c offset, s.IsCluster c → offset % s.bytsPerSec = 0 →
    0 < (s.transfer count c offset).2 →
    (s.transfer count c offset).1 = (b.dataStart + (c - 2) * s.secPerClus) * s.bytsPerSec + offset
  inside : ∀ m i, s.Uses m i → b.dataStart * s.bytsPerSec ≤ i ∧ i < b.totSec * s.bytsPerSec
  disjoint : ∀ m m' i, s.Uses m i → s.Uses m' i → m = m'

/-- The last sector of the data area begins below `2^32`, and no run of clusters goes on behind the
    last cluster. -/
def Reachable (b : BootSector) (s : FatFileSystem) : Prop :=
  b.dataStart ≤ b.totSec ∧
    (b.dataStart + s.countOfClusters * s.secPerClus - 1) * s.bytsPerSec < 4294967296 ∧
    s.clusEntryVal (s.countOfClusters + 1) ≠ u32 (s.countOfClusters + 2)

/-- What the rest of the development uses of `mount`. -/
structure Mounted (b : BootSector) (s : Bpb) : Prop where
  sector : 0 < s.bytsPerSec
  sectorBound : s.bytsPerSec < 65536
  perClus : 0 < s.secPerClus
  perClusBound : s.secPerClus < 256
  bytsPerClus : s.bytsPerClus = s.secPerClus * s.bytsPerSec
  dataSector : s.firstDataSector = u32 b.dataStart
  clusters : s.countOfClusters = sub32 b.totSec s.firstDataSector / s.secPerClus
  total : b.totSec < 4294967296

end FatFileSystem

namespace BootSector

open FatFileSystem

theorem totSec_lt (b : BootSector) : b.totSec < 4294967296 := by
  unfold totSec
  split
  · exact b.totSec32.toNat_lt
  · have := b.totSec16.toNat_lt
    omega

theorem firstDataSector_eq (b : BootSector) : b.firstDataSector = u32 b.dataStart := by
  unfold firstDataSector firstRootDirSector dataStart u32
  omega

theorem mounted {b : BootSector} {s : Bpb} (h : b.mount = some s) : Mounted b s := by
  unfold mount at h
  split at h
  · rename_i hok
    obtain ⟨-, hbytes, hsec⟩ := hok
    cases h
    have hbytes : b.bytsPerSec.toNat ≠ 0 := fun h => hbytes (UInt16.toNat_inj.mp h)
    have hsec : b.secPerClus.toNat ≠ 0 := fun h => hsec (UInt8.toNat_inj.mp h)
    exact {
      sector := Nat.pos_of_ne_zero hbytes
      sectorBound := b.bytsPerSec.toNat_lt
      perClus := Nat.pos_of_ne_zero hsec
      perClusBound := b.secPerClus.toNat_lt
      bytsPerClus := Nat.mul_comm _ _
      dataSector := b.firstDataSector_eq
      clusters := rfl
      total := b.totSec_lt }
  · cases h

end BootSector

namespace FatFileSystem

variable {b : BootSector} {s : FatFileSystem} {c n i count clus offset len fuel : Nat}

theorem Mounted.clusBytes (h : Mounted b s.toBpb) : 0 < s.bytsPerClus := by
  rw [h.bytsPerClus]
  exact Nat.mul_pos h.perClus h.sector

theorem Mounted.clusBytes_lt (h : Mounted b s.toBpb) : s.bytsPerClus ≤ 255 * 65535 := by
  rw [h.bytsPerClus]
  exact Nat.mul_le_mul (Nat.le_of_lt_succ h.perClusBound) (Nat.le_of_lt_succ h.sectorBound)

/-- Where the data area lies inside the partition, its first sector did not wrap. -/
theorem Mounted.start (h : Mounted b s.toBpb) (hle : b.dataStart ≤ b.totSec) :
    s.firstDataSector = b.dataStart := by
  have := h.total
  rw [h.dataSector, u32]
  omega

/-- The clusters fill the data area up to less than a cluster. -/
theorem Mounted.area (h : Mounted b s.toBpb) (hle : b.dataStart ≤ b.totSec) :
    b.dataStart + s.countOfClusters * s.secPerClus ≤ b.totSec ∧
      b.totSec < b.dataStart + (s.countOfClusters + 1) * s.secPerClus := by
  have hcount := h.clusters
  rw [h.start hle, sub32, if_pos hle] at hcount
  have hdiv := Nat.div_mul_le_self (b.totSec - b.dataStart) s.secPerClus
  have hrest := Nat.lt_div_mul_add (a := b.totSec - b.dataStart) h.perClus
  rw [← hcount] at hdiv hrest
  rw [Nat.succ_mul]
  omega

/-- An entry of FAT32 is found by the 32 bits of its cluster number. -/
theorem clusEntryVal_u32 (h32 : s.isFat32 = true) (n : Nat) :
    s.clusEntryVal (u32 n) = s.clusEntryVal n := by
  have hcount : ¬ s.countOfClusters < 65525 := by
    simpa only [Bpb.isFat32, decide_eq_true_eq, Nat.not_lt] using h32
  have h12 : s.isFat12 = false := by
    simp only [Bpb.isFat12, decide_eq_false_iff_not]
    omega
  have h16 : s.isFat16 = false := by
    simp only [Bpb.isFat16, Bool.and_eq_false_iff, decide_eq_false_iff_not]
    omega
  have hoffset : s.fatOffset (u32 n) = s.fatOffset n := by
    simp only [Bpb.fatOffset, h12, h16, Bool.false_eq_true, if_false, u32]
    omega
  simp only [clusEntryVal, h12, h16, Bool.false_eq_true, if_false, Bpb.entryOffset, hoffset]

/-- A run that reaches the number `2^32` goes on as from 0. -/
theorem runLoop_u32 (h32 : s.isFat32 = true) :
    s.runLoop count fuel (u32 clus) len = s.runLoop count fuel clus len := by
  cases fuel with
  | zero => rfl
  | succ fuel =>
    have hnext : u32 (u32 clus + 1) = u32 (clus + 1) := by
      unfold u32
      omega
    simp only [runLoop, clusEntryVal_u32 h32, hnext]

theorem le_runLoop : len ≤ s.runLoop count fuel clus len := by
  induction fuel generalizing clus len with
  | zero => exact Nat.le_refl len
  | succ fuel ih =>
    unfold runLoop
    split
    · dsimp only
      split
      · exact Nat.le_refl len
      · exact Nat.le_trans (Nat.le_add_right len _) ih
    · exact Nat.le_refl len

/-- A run ends with the last cluster. -/
theorem runLoop_le (hcount : s.countOfClusters < 4294967296)
    (hlast : s.clusEntryVal (s.countOfClusters + 1) ≠ u32 (s.countOfClusters + 2))
    (hclus : clus ≤ s.countOfClusters + 1) :
    s.runLoop count fuel clus len ≤ len + (s.countOfClusters + 1 - clus) * s.bytsPerClus := by
  induction fuel generalizing clus len with
  | zero => exact Nat.le_add_right len _
  | succ fuel ih =>
    unfold runLoop
    split
    · dsimp only
      split
      · exact Nat.le_add_right len _
      · rename_i hnext
        have hne : clus ≠ s.countOfClusters + 1 := by
          rintro rfl
          exact hlast (Classical.not_not.mp hnext).symm
        have hstep : s.runLoop count fuel (u32 (clus + 1)) (len + s.bytsPerClus) =
            s.runLoop count fuel (clus + 1) (len + s.bytsPerClus) := by
          by_cases hwrap : clus + 1 < 4294967296
          · rw [u32, Nat.mod_eq_of_lt hwrap]
          · refine runLoop_u32 ?_
            simp only [Bpb.isFat32, decide_eq_true_eq]
            omega
        have hrest := @ih (clus + 1) (len + s.bytsPerClus) (by omega)
        have hleft : s.countOfClusters + 1 - clus = s.countOfClusters + 1 - (clus + 1) + 1 := by
          omega
        rw [hstep, hleft, Nat.succ_mul]
        omega
    · exact Nat.le_add_right len _

theorem transfer_pos (h : 0 < (s.transfer count c offset).2) :
    offset < s.bytsPerClus ∧
      (s.transfer count c offset).1 =
        u32 (u32 (s.firstSectorOfCluster c + offset / s.bytsPerSec) * s.bytsPerSec) ∧
      (s.transfer count c offset).2 ≤ s.runLoop (roundCount s.toBpb count)
        (roundCount s.toBpb count) c (s.bytsPerClus - offset) := by
  unfold transfer at *
  split at h
  · cases h
  · rename_i hok
    have hlt : offset < s.bytsPerClus := by omega
    rw [if_neg hok, Nat.mod_eq_of_lt hlt]
    refine ⟨hlt, rfl, ?_⟩
    dsimp only
    split
    · exact Nat.le_refl _
    · omega

/-- The position of a transfer, while the sectors of the data area begin below `2^32`. -/
theorem transfer_exact (h : Mounted b s.toBpb) (hr : s.Reachable b) (hc : s.IsCluster c)
    (hoffset : offset % s.bytsPerSec = 0) (hpos : 0 < (s.transfer count c offset).2) :
    (s.transfer count c offset).1 =
      (b.dataStart + (c - 2) * s.secPerClus) * s.bytsPerSec + offset := by
  obtain ⟨hle, hreach, -⟩ := hr
  obtain ⟨hlt, heq, -⟩ := transfer_pos hpos
  obtain ⟨harea, -⟩ := h.area hle
  have htotal := h.total
  obtain ⟨q, rfl⟩ := Nat.dvd_of_mod_eq_zero hoffset
  have hq : q < s.secPerClus := by
    rw [h.bytsPerClus, Nat.mul_comm] at hlt
    exact Nat.lt_of_mul_lt_mul_right hlt
  have hbefore : (c - 2) * s.secPerClus + s.secPerClus ≤ s.countOfClusters * s.secPerClus := by
    rw [← Nat.succ_mul]
    refine Nat.mul_le_mul_right _ ?_
    have := hc.1
    have := hc.2
    omega
  have hsector : u32 (s.firstSectorOfCluster c + s.bytsPerSec * q / s.bytsPerSec) =
      b.dataStart + (c - 2) * s.secPerClus + q := by
    rw [Nat.mul_div_cancel_left q h.sector, Bpb.firstSectorOfCluster, h.start hle, sub32,
      if_pos hc.1]
    unfold u32
    omega
  have hbyte := Nat.mul_le_mul_right s.bytsPerSec
    (show b.dataStart + (c - 2) * s.secPerClus + q ≤
      b.dataStart + s.countOfClusters * s.secPerClus - 1 by omega)
  rw [heq, hsector, u32, Nat.mod_eq_of_lt (Nat.lt_of_le_of_lt hbyte hreach), Nat.add_mul _ q,
    Nat.mul_comm q]

/-- A byte that is touched for the cluster `m` lies in its place. -/
theorem uses_place (h : Mounted b s.toBpb) (hr : s.Reachable b) (hu : s.Uses n i) :
    2 ≤ n ∧ b.dataStart * s.bytsPerSec ≤ i ∧
      (i - b.dataStart * s.bytsPerSec) / s.bytsPerClus = n - 2 := by
  obtain ⟨count, c, offset, j, hc, hoffset, hj, rfl, rfl⟩ := hu
  have hexact := transfer_exact h hr hc hoffset (Nat.zero_lt_of_lt hj)
  have hsplit : (b.dataStart + (c - 2) * s.secPerClus) * s.bytsPerSec + offset + j =
      b.dataStart * s.bytsPerSec + ((c - 2) * s.bytsPerClus + (offset + j)) := by
    rw [h.bytsPerClus, Nat.add_mul, Nat.mul_assoc]
    omega
  rw [hexact, hsplit, Nat.add_sub_cancel_left, Nat.mul_comm (c - 2),
    Nat.mul_add_div h.clusBytes]
  have := hc.1
  generalize (offset + j) / s.bytsPerClus = k
  omega

/-- A byte that is touched lies before the end of the data area. -/
theorem uses_inside (h : Mounted b s.toBpb) (hr : s.Reachable b) (hu : s.Uses n i) :
    i < b.totSec * s.bytsPerSec := by
  obtain ⟨count, c, offset, j, hc, hoffset, hj, rfl, rfl⟩ := hu
  have hexact := transfer_exact h hr hc hoffset (Nat.zero_lt_of_lt hj)
  obtain ⟨hlt, -, hrun⟩ := transfer_pos (Nat.zero_lt_of_lt hj)
  obtain ⟨hle, -, hlast⟩ := hr
  obtain ⟨harea, -⟩ := h.area hle
  have htotal := h.total
  have hcount : s.countOfClusters < 4294967296 := by
    have := Nat.le_mul_of_pos_right s.countOfClusters h.perClus
    omega
  have hend := Nat.le_trans hrun (runLoop_le hcount hlast hc.2)
  have hbytes : (b.dataStart + s.countOfClusters * s.secPerClus) * s.bytsPerSec =
      (b.dataStart + (c - 2) * s.secPerClus) * s.bytsPerSec +
        (s.bytsPerClus + (s.countOfClusters + 1 - c) * s.bytsPerClus) := by
    have hsplit : s.countOfClusters = c - 2 + (1 + (s.countOfClusters + 1 - c)) := by
      have := hc.1
      have := hc.2
      omega
    rw [h.bytsPerClus, ← Nat.mul_assoc, ← Nat.add_mul, ← Nat.add_mul]
    congr 1
    rw [Nat.add_assoc]
    congr 1
    conv => lhs; rw [hsplit]
    rw [Nat.add_mul, Nat.add_mul, Nat.one_mul]
  have := Nat.mul_le_mul_right s.bytsPerSec harea
  omega

theorem uses_unique (h : Mounted b s.toBpb) (hr : s.Reachable b) {m m' : Nat} (hm : s.Uses m i)
    (hm' : s.Uses m' i) : m = m' := by
  obtain ⟨hlo, -, hplace⟩ := uses_place h hr hm
  obtain ⟨hlo', -, hplace'⟩ := uses_place h hr hm'
  omega

/-- A long count rounds to itself. -/
theorem roundCount_long (h : Mounted b s.toBpb) :
    roundCount s.toBpb (2147483648 - s.bytsPerSec) = 2147483648 - s.bytsPerSec := by
  have hlo := h.sector
  have hhi := h.sectorBound
  rw [roundCount, show 2147483648 - s.bytsPerSec + s.bytsPerSec - 1 = 2 ^ 31 - 1 by omega,
    Nat.and_comm, Nat.and_two_pow_sub_one_eq_mod]
  omega

/-- The transfer of a long count is a run of clusters. -/
theorem transfer_long (h : Mounted b s.toBpb) (hlt : offset < s.bytsPerClus) :
    0 < (s.transfer (2147483648 - s.bytsPerSec) c offset).2 ∧
      (s.clusEntryVal c = u32 (c + 1) → offset = 0 →
        2 * s.bytsPerClus ≤ (s.transfer (2147483648 - s.bytsPerSec) c offset).2) := by
  have hlo := h.sector
  have hhi := h.sectorBound
  have hclus := h.clusBytes_lt
  unfold transfer
  rw [if_neg (by omega), roundCount_long h]
  dsimp only
  obtain ⟨k, hk⟩ := Nat.exists_eq_add_of_le' (show 1 ≤ 2147483648 - s.bytsPerSec by omega)
  refine ⟨?_, fun hnext hzero => ?_⟩
  · have := @le_runLoop s (2147483648 - s.bytsPerSec) c (s.bytsPerClus - offset)
      (2147483648 - s.bytsPerSec)
    split
    · omega
    · omega
  · have hrun : s.bytsPerClus + s.bytsPerClus ≤ s.runLoop (2147483648 - s.bytsPerSec)
        (2147483648 - s.bytsPerSec) c (s.bytsPerClus - offset) := by
      rw [hk, hzero, runLoop, if_pos (by omega)]
      dsimp only
      rw [hnext, if_neg (by simp)]
      exact le_runLoop
    split
    · omega
    · omega

/-- A transfer for a data cluster uses the bytes from its position on. -/
theorem uses_transfer (hc : s.IsCluster c) (hoffset : offset % s.bytsPerSec = 0) {j : Nat}
    (hj : j < (s.transfer count c offset).2) :
    s.Uses (c + (offset + j) / s.bytsPerClus) ((s.transfer count c offset).1 + j) :=
  ⟨count, c, offset, j, hc, hoffset, hj, rfl, rfl⟩

theorem reachable_of_addressed (h : Mounted b s.toBpb) (hn : s.countOfClusters ≠ 0)
    (ha : s.Addressed b) : s.Reachable b := by
  have hfirst : s.IsCluster 2 := ⟨Nat.le_refl 2, by omega⟩
  have hlast : s.IsCluster (s.countOfClusters + 1) := ⟨by omega, Nat.le_refl _⟩
  have hle : b.dataStart ≤ b.totSec := by
    obtain ⟨hlo, hhi⟩ := ha.inside _ _
      (uses_transfer hfirst (Nat.zero_mod _) (transfer_long h h.clusBytes).1)
    exact Nat.le_of_lt (Nat.lt_of_mul_lt_mul_right (Nat.lt_of_le_of_lt hlo hhi))
  refine ⟨hle, ?_, fun hrun => ?_⟩
  · have hsec : s.secPerClus - 1 < s.secPerClus := Nat.sub_lt h.perClus Nat.one_pos
    have hlt : (s.secPerClus - 1) * s.bytsPerSec < s.bytsPerClus := by
      rw [h.bytsPerClus]
      exact Nat.mul_lt_mul_of_pos_right hsec h.sector
    have hpos := (@transfer_long b s (s.countOfClusters + 1) _ h hlt).1
    have hexact := ha.exact _ _ _ hlast (Nat.mul_mod_left _ _) hpos
    have hsector : b.dataStart + (s.countOfClusters + 1 - 2) * s.secPerClus + (s.secPerClus - 1) =
        b.dataStart + s.countOfClusters * s.secPerClus - 1 := by
      obtain ⟨k, hk⟩ := Nat.exists_eq_succ_of_ne_zero hn
      have := h.perClus
      rw [hk, show k.succ + 1 - 2 = k by omega, Nat.succ_mul]
      omega
    rw [← Nat.add_mul, hsector, (transfer_pos hpos).2.1] at hexact
    rw [← hexact]
    exact Nat.mod_lt _ (by decide)
  · have hlong := (transfer_long h h.clusBytes).2 hrun rfl
    have hclus := h.clusBytes
    have hexact := ha.exact _ _ _ hlast (Nat.zero_mod _) (transfer_long h hclus).1
    have hend : 2 * s.bytsPerClus - 1 <
        (s.transfer (2147483648 - s.bytsPerSec) (s.countOfClusters + 1) 0).2 := by
      omega
    have hin := (ha.inside _ _ (uses_transfer hlast (Nat.zero_mod _) hend)).2
    obtain ⟨-, harea⟩ := h.area hle
    have hsplit : (b.dataStart + (s.countOfClusters + 1) * s.secPerClus) * s.bytsPerSec =
        (b.dataStart + (s.countOfClusters + 1 - 2) * s.secPerClus) * s.bytsPerSec +
          2 * s.bytsPerClus := by
      obtain ⟨k, hk⟩ := Nat.exists_eq_succ_of_ne_zero hn
      rw [hk, show k.succ + 1 - 2 = k by omega, show k.succ + 1 = k + 2 by omega, h.bytsPerClus,
        Nat.add_mul k 2, ← Nat.add_assoc, Nat.add_mul _ (2 * s.secPerClus), Nat.mul_assoc 2]
    have hstrict := Nat.mul_lt_mul_of_pos_right harea h.sector
    omega

/-- A FAT32 volume of a little more than 4 GB in clusters of 64 KB. -/
def largeBoot : BootSector where
  bytsPerSec := 512
  secPerClus := 128
  rsvdSecCnt := 32
  numFATs := 1
  rootEntCnt := 0
  totSec16 := 0
  fatSz16 := 0
  totSec32 := 8389665
  fatSz32 := 513
  signature := 0xaa55

/-- That volume with an empty table. -/
def largeDisk : FatFileSystem where
  rsvdSecCnt := 32
  numFATs := 1
  secPerClus := 128
  bytsPerSec := 512
  bytsPerClus := 65536
  fatSz := 513
  firstDataSector := 545
  countOfClusters := 65540
  nxtFree := 2
  freeCount := 65540
  disk := fun _ => 0

/-- The addressing is right where there is no cluster, or where every cluster is reachable. -/
theorem addressed_iff (h : b.mount = some s.toBpb) :
    s.Addressed b ↔ s.countOfClusters = 0 ∨ s.Reachable b := by
  have h := BootSector.mounted h
  constructor
  · intro ha
    by_cases hn : s.countOfClusters = 0
    · exact .inl hn
    · exact .inr (reachable_of_addressed h hn ha)
  · rintro (hn | hr)
    · have hnone : ∀ c, ¬ s.IsCluster c := by
        rintro c ⟨hlo, hhi⟩
        omega
      refine ⟨fun _ c _ hc => absurd hc (hnone c), ?_, ?_⟩
      · rintro m i ⟨_, c, _, _, hc, _⟩
        exact absurd hc (hnone c)
      · rintro m m' i ⟨_, c, _, _, hc, _⟩
        exact absurd hc (hnone c)
    · exact ⟨fun _ _ _ => transfer_exact h hr,
        fun m i hu => ⟨(uses_place h hr hu).2.1, uses_inside h hr hu⟩,
        fun m m' i => uses_unique h hr⟩

theorem addressed_iff_large : largeDisk.Addressed largeBoot ↔
    largeDisk.countOfClusters = 0 ∨ largeDisk.Reachable largeBoot :=
  addressed_iff (by decide +kernel)

/-- The transfers for the cluster 65541 go to the bytes of the cluster 5. -/
theorem addressed_fails : largeBoot.mount = some largeDisk.toBpb ∧
    ¬ largeDisk.Addressed largeBoot := by
  refine ⟨by decide +kernel, fun ha => ?_⟩
  have hlast : largeDisk.IsCluster 65541 := ⟨by decide, by decide⟩
  have hfifth : largeDisk.IsCluster 5 := ⟨by decide, by decide⟩
  have h₁ := uses_transfer hlast (Nat.zero_mod _)
    (show 0 < (largeDisk.transfer 512 65541 0).2 by decide +kernel)
  have h₂ := uses_transfer hfifth (Nat.zero_mod _)
    (show 0 < (largeDisk.transfer 512 5 0).2 by decide +kernel)
  have hsame : (largeDisk.transfer 512 65541 0).1 = (largeDisk.transfer 512 5 0).1 := by
    decide +kernel
  rw [hsame] at h₁
  exact absurd (ha.disjoint _ _ _ h₁ h₂) (by decide)

end FatFileSystem

end EsOs.Fat
