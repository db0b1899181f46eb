import EsOs.Fat.Format

/-!
# A new volume as it is mounted

The boot sector that `format` writes for a plan is mounted with the lengths of the plan, and the
lengths of a plan fit together as long as the number of sectors goes into a `u32` with what the
formula for the FAT adds to it.
-/

namespace EsOs.Fat

/-- A device that tells one size, and whose sectors have room for a boot sector and a length that
    the boot sector has room for. -/
structure Device.Valid (d : Device) : Prop where
  low : 512 ≤ d.bytesPerSector
  high : d.bytesPerSector < 65536
  size : d.diskSize = d.size

/-- The areas of a volume as `mount` places them: the reserved sectors, the FATs, the root directory
    and the clusters, each with its first sector and its length. -/
def areas (b : BootSector) (v : Bpb) : List (Nat × Nat) :=
  [(0, v.rsvdSecCnt), (v.rsvdSecCnt, v.numFATs * v.fatSz),
    (b.firstRootDirSector, b.rootDirSectors),
    (v.firstDataSector, v.countOfClusters * v.secPerClus)]

/-- The boot sector describes a volume of `sectors` sectors as it was planned. -/
structure Describes (sectors : Nat) (p : Plan) (b : BootSector) (v : Bpb) : Prop where
  mounts : b.mount = some v
  entries : (v.countOfClusters + 2) * v.fatType.width ≤ v.fatSz * v.bytsPerSec * 8
  root : b.rootEntCnt.toNat * 32 ≤ b.rootDirSectors * v.bytsPerSec
  total : b.totSec = sectors
  disjoint : (areas b v).Pairwise fun a a' => a.1 + a.2 ≤ a'.1
  inside : ∀ a ∈ areas b v, a.1 + a.2 ≤ sectors
  type : v.fatType = p.type
  clusters : v.countOfClusters = p.clusters

namespace Plan

/-- The sectors of the root directory. -/
def rootSectors (p : Plan) : Nat :=
  (p.rootEntCnt * 32 + (p.bytesPerSector - 1)) / p.bytesPerSector

/-- Where the clusters begin. -/
def start (p : Plan) : Nat :=
  p.resvdSecCnt + p.numFATs * p.fatSz + p.rootSectors

/-- The values of a plan go into the fields of a boot sector. -/
structure Small (p : Plan) : Prop where
  diskSize : p.diskSize < 4294967296
  bytesLow : 0 < p.bytesPerSector
  bytesHigh : p.bytesPerSector < 65536
  secLow : 0 < p.secPerClus
  secHigh : p.secPerClus < 256
  resvdSecCnt : p.resvdSecCnt < 65536
  numFATs : p.numFATs < 256
  rootEntCnt : p.rootEntCnt < 65536

/-- The boot sector holds the values of the plan. -/
structure Written (p : Plan) (b : BootSector) : Prop where
  signature : b.signature = 0xaa55
  bytsPerSec : b.bytsPerSec.toNat = p.bytesPerSector
  secPerClus : b.secPerClus.toNat = p.secPerClus
  rsvdSecCnt : b.rsvdSecCnt.toNat = p.resvdSecCnt
  numFATs : b.numFATs.toNat = p.numFATs
  rootEntCnt : b.rootEntCnt.toNat = p.rootEntCnt
  totSec : b.totSec = p.diskSize
  fatSz : b.fatSz = p.fatSz

variable {p : Plan} {b : BootSector}

theorem toNat_ofNat16 {n : Nat} (hn : n < 65536) : (UInt16.ofNat n).toNat = n :=
  UInt16.toNat_ofNat'.trans (Nat.mod_eq_of_lt hn)

theorem toNat_ofNat8 {n : Nat} (hn : n < 256) : (UInt8.ofNat n).toNat = n :=
  UInt8.toNat_ofNat'.trans (Nat.mod_eq_of_lt hn)

theorem toNat_ofNat32 {n : Nat} (hn : n < 4294967296) : (UInt32.ofNat n).toNat = n :=
  UInt32.toNat_ofNat'.trans (Nat.mod_eq_of_lt hn)

/-- The total sectors are in one of their two fields. -/
theorem totSec_writeBpb (b : BootSector) (hp : p.diskSize < 4294967296) :
    (FatFileSystem.writeBpb b p).totSec = p.diskSize := by
  have hshift : p.diskSize >>> 16 = p.diskSize / 65536 := Nat.shiftRight_eq_div_pow _ 16
  unfold BootSector.totSec FatFileSystem.writeBpb
  dsimp only
  by_cases hhigh : p.diskSize >>> 16 ≠ 0
  · rw [if_pos hhigh, if_pos rfl, if_pos hhigh]
    exact toNat_ofNat32 hp
  · rw [if_neg hhigh, if_neg hhigh]
    have hlow := toNat_ofNat16 (show p.diskSize < 65536 by omega)
    split
    · rename_i hzero
      rw [hzero] at hlow
      exact hlow
    · exact hlow

theorem written16 (hp : p.Small) (hfat : p.fatSz < 65536) (hpos : 0 < p.fatSz)
    (hsignature : b.signature = 0xaa55) :
    Written p { FatFileSystem.writeBpb b p with fatSz16 := UInt16.ofNat p.fatSz } := by
  have hsz := toNat_ofNat16 hfat
  refine ⟨hsignature, toNat_ofNat16 hp.bytesHigh, toNat_ofNat8 hp.secHigh,
    toNat_ofNat16 hp.resvdSecCnt, toNat_ofNat8 hp.numFATs, toNat_ofNat16 hp.rootEntCnt,
    totSec_writeBpb b hp.diskSize, ?_⟩
  unfold BootSector.fatSz
  dsimp only
  rw [if_neg, hsz]
  intro hzero
  rw [hzero] at hsz
  have : 0 = p.fatSz := hsz
  omega

theorem written32 (hp : p.Small) (hfat : p.fatSz < 4294967296)
    (hsignature : b.signature = 0xaa55) :
    Written p { FatFileSystem.writeBpb b p with
      fatSz16 := 0, fatSz32 := UInt32.ofNat p.fatSz } :=
  ⟨hsignature, toNat_ofNat16 hp.bytesHigh, toNat_ofNat8 hp.secHigh,
    toNat_ofNat16 hp.resvdSecCnt, toNat_ofNat8 hp.numFATs, toNat_ofNat16 hp.rootEntCnt,
    totSec_writeBpb b hp.diskSize, toNat_ofNat32 hfat⟩

/-- What `mount` makes of it. -/
def mounted (p : Plan) : Bpb where
  rsvdSecCnt := p.resvdSecCnt
  numFATs := p.numFATs
  secPerClus := p.secPerClus
  bytsPerSec := p.bytesPerSector
  bytsPerClus := p.bytesPerSector * p.secPerClus
  fatSz := p.fatSz
  firstDataSector := p.start
  countOfClusters := (p.diskSize - p.start) / p.secPerClus

theorem Written.firstRootDirSector_eq (hb : Written p b) (hstart : p.start < 4294967296) :
    b.firstRootDirSector = p.resvdSecCnt + p.numFATs * p.fatSz := by
  unfold start at hstart
  unfold BootSector.firstRootDirSector u32
  rw [hb.rsvdSecCnt, hb.numFATs, hb.fatSz]
  exact Nat.mod_eq_of_lt (by omega)

theorem Written.rootDirSectors_eq (hb : Written p b) : b.rootDirSectors = p.rootSectors := by
  unfold BootSector.rootDirSectors rootSectors
  rw [hb.rootEntCnt, hb.bytsPerSec]

theorem Written.mount_eq (hb : Written p b) (hp : p.Small) (hstart : p.start ≤ p.diskSize) :
    b.mount = some p.mounted := by
  have hdisk := hp.diskSize
  have hroot := hb.firstRootDirSector_eq (by omega)
  have hfirst : b.firstDataSector = p.start := by
    unfold BootSector.firstDataSector u32
    rw [hroot, hb.rootDirSectors_eq]
    exact Nat.mod_eq_of_lt (by unfold start at hstart; omega)
  have hcount : b.countOfClusters = (p.diskSize - p.start) / p.secPerClus := by
    unfold BootSector.countOfClusters sub32
    rw [hfirst, hb.totSec, hb.secPerClus, if_pos hstart]
  have hbytes : b.bytsPerSec ≠ 0 := by
    intro hzero
    have := hb.bytsPerSec
    rw [hzero] at this
    exact absurd this.symm (Nat.ne_of_gt hp.bytesLow)
  have hsec : b.secPerClus ≠ 0 := by
    intro hzero
    have := hb.secPerClus
    rw [hzero] at this
    exact absurd this.symm (Nat.ne_of_gt hp.secLow)
  unfold BootSector.mount
  rw [if_pos ⟨hb.signature, hbytes, hsec⟩, hb.rsvdSecCnt, hb.numFATs, hb.secPerClus,
    hb.bytsPerSec, hb.fatSz, hfirst, hcount]
  rfl

/-- A plan whose areas lie in the disk, with a FAT that has an entry for every cluster. -/
theorem Written.describes (hb : Written p b) (hp : p.Small) (hstart : p.start ≤ p.diskSize)
    (hclusters : p.clusters = (p.diskSize - p.start) / p.secPerClus)
    (htype : p.mounted.fatType = p.type)
    (hentries : (p.clusters + 2) * p.type.width ≤ p.fatSz * p.bytesPerSector * 8) :
    Describes p.diskSize p b p.mounted := by
  have hdisk := hp.diskSize
  have hroot := hb.firstRootDirSector_eq (by omega)
  have hdata : p.clusters * p.secPerClus ≤ p.diskSize - p.start := by
    rw [hclusters]
    exact Nat.div_mul_le_self _ _
  have hareas : areas b p.mounted = [(0, p.resvdSecCnt), (p.resvdSecCnt, p.numFATs * p.fatSz),
      (p.resvdSecCnt + p.numFATs * p.fatSz, p.rootSectors), (p.start, p.clusters * p.secPerClus)] := by
    unfold areas
    rw [hroot, hb.rootDirSectors_eq, hclusters]
    rfl
  have hsplit : p.start = p.resvdSecCnt + p.numFATs * p.fatSz + p.rootSectors := rfl
  refine ⟨hb.mount_eq hp hstart, ?_, ?_, hb.totSec, ?_, ?_, htype, hclusters.symm⟩
  · rw [htype]
    rw [hclusters] at hentries
    exact hentries
  · rw [hb.rootDirSectors_eq, hb.rootEntCnt]
    have hlow := hp.bytesLow
    have hdiv := Nat.div_add_mod (p.rootEntCnt * 32 + (p.bytesPerSector - 1)) p.bytesPerSector
    have hmod := Nat.mod_lt (p.rootEntCnt * 32 + (p.bytesPerSector - 1)) hlow
    rw [Nat.mul_comm] at hdiv
    show _ ≤ p.rootSectors * p.bytesPerSector
    unfold rootSectors
    omega
  · rw [hareas]
    simp only [List.pairwise_cons, List.mem_cons, List.not_mem_nil, or_false, forall_eq_or_imp,
      forall_eq, false_imp_iff, implies_true, List.Pairwise.nil, and_true]
    omega
  · rw [hareas]
    simp only [List.mem_cons, List.not_mem_nil, or_false, forall_eq_or_imp, forall_eq]
    omega

end Plan

namespace FatFileSystem

variable {d : Device} {checked : Bool} {p : Plan} {n : Nat}

/-- The sectors in a cluster of a volume with a FAT of 16 bits, below 512 MB. -/
theorem secPerClusOf_fat16 (hn : n < 1048576) (hpos : secPerClusOf DskTableFAT16 n ≠ 0) :
    8400 < n ∧ (n ≤ 32680 ∧ secPerClusOf DskTableFAT16 n = 2 ∨
      32680 < n ∧ n ≤ 262144 ∧ secPerClusOf DskTableFAT16 n = 4 ∨
      262144 < n ∧ n ≤ 524288 ∧ secPerClusOf DskTableFAT16 n = 8 ∨
      524288 < n ∧ secPerClusOf DskTableFAT16 n = 16) := by
  revert hpos
  simp only [DskTableFAT16, secPerClusOf]
  repeat' split
  all_goals omega

/-- The sectors in a cluster of a volume with a FAT of 32 bits. -/
theorem secPerClusOf_fat32 (hn : n < 4294967296) (hpos : secPerClusOf DskTableFAT32 n ≠ 0) :
    66600 < n ∧ (n ≤ 532480 ∧ secPerClusOf DskTableFAT32 n = 1 ∨
      532480 < n ∧ n ≤ 16777216 ∧ secPerClusOf DskTableFAT32 n = 8 ∨
      16777216 < n ∧ n ≤ 33554432 ∧ secPerClusOf DskTableFAT32 n = 16 ∨
      33554432 < n ∧ n ≤ 67108864 ∧ secPerClusOf DskTableFAT32 n = 32 ∨
      67108864 < n ∧ secPerClusOf DskTableFAT32 n = 64) := by
  revert hpos
  simp only [DskTableFAT32, secPerClusOf]
  repeat' split
  all_goals omega

theorem rootDirSectors_eq (hd : d.Valid) {rootEntCnt : Nat} (hroot : rootEntCnt ≤ 512) :
    rootDirSectors rootEntCnt d.bytesPerSector =
      (rootEntCnt * 32 + (d.bytesPerSector - 1)) / d.bytesPerSector := by
  have hlow := hd.low
  have hhigh := hd.high
  unfold rootDirSectors u32 sub32
  rw [if_pos (by omega), Nat.mod_eq_of_lt (by omega)]

/-- A root directory of 512 entries. -/
theorem rootDirSectors_512 (hd : d.Valid) :
    1 ≤ rootDirSectors 512 d.bytesPerSector ∧ rootDirSectors 512 d.bytesPerSector ≤ 32 := by
  have hlow := hd.low
  rw [rootDirSectors_eq hd (Nat.le_refl _)]
  constructor
  · exact (Nat.le_div_iff_mul_le (by omega)).mpr (by omega)
  · exact Nat.le_of_lt_succ ((Nat.div_lt_iff_lt_mul (by omega)).mpr (by omega))

theorem rootDirSectors_zero (hd : d.Valid) : rootDirSectors 0 d.bytesPerSector = 0 := by
  have hlow := hd.low
  rw [rootDirSectors_eq hd (Nat.zero_le _)]
  exact Nat.div_eq_of_lt (by omega)

/-- What is planned. -/
theorem planFat_eq {type : FatType} {table : List (Nat × Nat)} {entries bytes resvdSecCnt
    rootEntCnt : Nat}
    (hp : planFat checked type table entries bytes resvdSecCnt rootEntCnt d = some p) :
    secPerClusOf table (totalSectors d) ≠ 0 ∧ p.type = type ∧ p.diskSize = totalSectors d ∧
    p.bytesPerSector = d.bytesPerSector ∧ p.secPerClus = secPerClusOf table (totalSectors d) ∧
    p.resvdSecCnt = resvdSecCnt ∧ p.numFATs = 2 ∧ p.rootEntCnt = rootEntCnt ∧
    p.fatSz = u32 (sub32 (totalSectors d)
        (u32 (resvdSecCnt + rootDirSectors rootEntCnt d.bytesPerSector)) +
      2 * secPerClusOf table (totalSectors d) +
        (entries * secPerClusOf table (totalSectors d) + 2 - 1)) /
      (entries * secPerClusOf table (totalSectors d) + 2) ∧
    p.clusters = sub32 (sub32 (totalSectors d)
        (u32 (resvdSecCnt + rootDirSectors rootEntCnt d.bytesPerSector))) (u32 (2 * p.fatSz)) /
      secPerClusOf table (totalSectors d) := by
  unfold planFat at hp
  dsimp only at hp
  split at hp
  · cases hp
  · rename_i hpos
    split at hp
    · cases hp
    · cases hp
      exact ⟨hpos, rfl, rfl, rfl, rfl, rfl, rfl, rfl, rfl, rfl⟩

/-- The formula leaves no cluster without an entry. -/
theorem fatSz_covers {secPerClus entries tmpVal1 fatSz clusters : Nat} (hsec : 0 < secPerClus)
    (hfat : fatSz = (tmpVal1 + 2 * secPerClus + (entries * secPerClus + 2 - 1)) /
      (entries * secPerClus + 2))
    (hclusters : clusters = (tmpVal1 - 2 * fatSz) / secPerClus) (hle : 2 * fatSz ≤ tmpVal1) :
    clusters + 2 ≤ entries * fatSz := by
  have hceil : tmpVal1 + 2 * secPerClus ≤ (entries * secPerClus + 2) * fatSz := by
    have hdiv := Nat.div_add_mod (tmpVal1 + 2 * secPerClus + (entries * secPerClus + 2 - 1))
      (entries * secPerClus + 2)
    have hmod := Nat.mod_lt (tmpVal1 + 2 * secPerClus + (entries * secPerClus + 2 - 1))
      (show 0 < entries * secPerClus + 2 by omega)
    rw [← hfat] at hdiv
    omega
  have hdata : clusters * secPerClus ≤ tmpVal1 - 2 * fatSz := by
    rw [hclusters]
    exact Nat.div_mul_le_self _ _
  have hexpand : (entries * secPerClus + 2) * fatSz = entries * fatSz * secPerClus + 2 * fatSz := by
    rw [Nat.add_mul, Nat.mul_right_comm]
  refine Nat.le_of_mul_le_mul_right ?_ hsec
  rw [Nat.add_mul]
  omega

/-- The lengths of a volume with a FAT of 16 bits. -/
theorem fat16_lengths {r secPerClus fatSz clusters : Nat} (hlow : 8400 < n) (hhigh : n < 1048576)
    (hr : 1 ≤ r ∧ r ≤ 32)
    (hsec : n ≤ 32680 ∧ secPerClus = 2 ∨ 32680 < n ∧ n ≤ 262144 ∧ secPerClus = 4 ∨
      262144 < n ∧ n ≤ 524288 ∧ secPerClus = 8 ∨ 524288 < n ∧ secPerClus = 16)
    (hfat : fatSz = (n - (1 + r) + 2 * secPerClus + (256 * secPerClus + 2 - 1)) /
      (256 * secPerClus + 2))
    (hclusters : clusters = (n - (1 + r) - 2 * fatSz) / secPerClus) :
    0 < fatSz ∧ fatSz ≤ 256 ∧ 4085 ≤ clusters ∧ clusters < 65525 := by
  rcases hsec with ⟨h, rfl⟩ | ⟨h, h', rfl⟩ | ⟨h, h', rfl⟩ | ⟨h, rfl⟩ <;> omega

/-- The lengths of a volume with a FAT of 32 bits. -/
theorem fat32_lengths {secPerClus fatSz clusters : Nat} (hlow : 66600 < n) (hhigh : n < 4294967296)
    (hsec : n ≤ 532480 ∧ secPerClus = 1 ∨ 532480 < n ∧ n ≤ 16777216 ∧ secPerClus = 8 ∨
      16777216 < n ∧ n ≤ 33554432 ∧ secPerClus = 16 ∨
      33554432 < n ∧ n ≤ 67108864 ∧ secPerClus = 32 ∨ 67108864 < n ∧ secPerClus = 64)
    (hfat : fatSz = (n - 36 + 2 * secPerClus + (128 * secPerClus + 2 - 1)) /
      (128 * secPerClus + 2))
    (hclusters : clusters = (n - 36 - 2 * fatSz) / secPerClus) :
    2 * fatSz ≤ n - 36 ∧ fatSz < 1000000 ∧ 65525 ≤ clusters := by
  rcases hsec with ⟨h, rfl⟩ | ⟨h, h', rfl⟩ | ⟨h, h', rfl⟩ | ⟨h, h', rfl⟩ | ⟨h, rfl⟩ <;> omega

theorem fatType_eq (hn : p.mounted.countOfClusters = n) :
    p.mounted.fatType = if n < 4085 then .fat12 else if n < 65525 then .fat16 else .fat32 := by
  unfold Bpb.fatType Bpb.isFat12 Bpb.isFat16
  rw [hn]
  by_cases hlow : n < 4085
  · simp [hlow]
  · have hge : 4085 ≤ n := Nat.le_of_not_lt hlow
    simp [hlow, hge]

/-- The number of sectors that a device tells. -/
def sectors (d : Device) : Nat :=
  d.diskSize / d.bytesPerSector

theorem formatFat12_describes {b : BootSector} (hf : formatFat12 d = some (p, b))
    (hsize : sectors d < 4294967296) :
    ∃ v, Describes (sectors d) p b v := by
  unfold formatFat12 at hf
  dsimp only at hf
  split at hf
  · cases hf
  · rename_i hkind
    have hn : totalSectors d = 2880 := Decidable.byContradiction fun h => hkind (.inl h)
    have hb : d.bytesPerSector = 512 := Decidable.byContradiction fun h => hkind (.inr h)
    have hsectors : sectors d = 2880 := (Nat.mod_eq_of_lt hsize).symm.trans hn
    cases hf
    rw [hn, hb, hsectors]
    have hsmall : Plan.Small ⟨.fat12, 2880, 512, 1, 1, 2, 224, 9,
        2880 - (1 + 2 * 9 + rootDirSectors 224 512)⟩ := by
      constructor <;> decide
    refine ⟨_, (@Plan.written16 _ bootfat12 hsmall ?_ ?_ rfl).describes hsmall ?_ ?_ ?_ ?_⟩ <;>
      decide

/-- The values of a plan are small. -/
theorem planFat_small (hd : d.Valid) {type : FatType} {table : List (Nat × Nat)}
    {entries bytes resvdSecCnt rootEntCnt : Nat}
    (hp : planFat checked type table entries bytes resvdSecCnt rootEntCnt d = some p)
    (hsec : secPerClusOf table (totalSectors d) < 256) (hresvd : resvdSecCnt < 65536)
    (hroot : rootEntCnt < 65536) : p.Small := by
  obtain ⟨hpos, -, hdisk, hbytes, hspc, hrsvd, hnum, hent, -, -⟩ := planFat_eq hp
  have hlow := hd.low
  have hhigh := hd.high
  refine ⟨?_, by omega, by omega, by omega, by omega, by omega, by omega, by omega⟩
  rw [hdisk]
  exact Nat.mod_lt _ (by decide)

theorem formatFat16_describes {b : BootSector} (hd : d.Valid)
    (hf : formatFat16 checked d = some (p, b)) (hsize : sectors d < 1048576) :
    ∃ v, Describes (sectors d) p b v := by
  obtain ⟨q, hq, heq⟩ := Option.map_eq_some_iff.mp hf
  cases heq
  obtain ⟨hpos, htype, hdisk, hbytes, hspc, hrsvd, hnum, hent, hfat, hclusters⟩ := planFat_eq hq
  have hn : totalSectors d = sectors d := Nat.mod_eq_of_lt (by unfold sectors at hsize; omega)
  rw [hn] at hpos hdisk hspc hfat hclusters
  obtain ⟨hlow, hsec⟩ := secPerClusOf_fat16 hsize hpos
  have hr := rootDirSectors_512 hd
  have hroot : p.rootSectors = rootDirSectors 512 d.bytesPerSector := by
    rw [rootDirSectors_eq hd (Nat.le_refl _), Plan.rootSectors, hent, hbytes]
  have hsmall := planFat_small hd hq (by rw [hn]; omega) (by decide) (by decide)
  generalize secPerClusOf DskTableFAT16 (sectors d) = secPerClus at *
  generalize rootDirSectors 512 d.bytesPerSector = r at *
  have htmp : sub32 (sectors d) (u32 (1 + r)) = sectors d - (1 + r) := by
    unfold sub32 u32
    rw [Nat.mod_eq_of_lt (by omega), if_pos (by omega)]
  rw [htmp] at hfat hclusters
  have hfat : p.fatSz = (sectors d - (1 + r) + 2 * secPerClus + (256 * secPerClus + 2 - 1)) /
      (256 * secPerClus + 2) := by
    rw [hfat, u32, Nat.mod_eq_of_lt (by omega)]
  obtain ⟨hfatpos, hfathigh, hcount, hcount'⟩ := fat16_lengths hlow hsize hr hsec hfat rfl
  have htwo : u32 (2 * p.fatSz) = 2 * p.fatSz := Nat.mod_eq_of_lt (by omega)
  have hle : 2 * p.fatSz ≤ sectors d - (1 + r) := by omega
  rw [htwo, sub32, if_pos hle] at hclusters
  have hcovers := fatSz_covers (by omega) hfat hclusters hle
  have hstart : p.start = 1 + 2 * p.fatSz + r := by
    unfold Plan.start
    rw [hrsvd, hnum, hroot]
  have hwritten := Plan.written16 hsmall (by omega) hfatpos
    (show bootfat16.signature = 0xaa55 from rfl)
  have hclusters' : p.clusters = (p.diskSize - p.start) / p.secPerClus := by
    rw [hclusters, hstart, hdisk, hspc, Nat.sub_sub]
    congr 2
    omega
  have hdescribes := hwritten.describes hsmall (by omega) hclusters' ?_ ?_
  · rw [hdisk] at hdescribes
    exact ⟨_, hdescribes⟩
  · rw [fatType_eq (show p.mounted.countOfClusters = p.clusters from hclusters'.symm), htype,
      if_neg (by omega), if_pos (by omega)]
  · have hbig : p.fatSz * 512 ≤ p.fatSz * p.bytesPerSector :=
      Nat.mul_le_mul_left _ (by rw [hbytes]; exact hd.low)
    rw [htype]
    show (p.clusters + 2) * 16 ≤ p.fatSz * p.bytesPerSector * 8
    omega

/-- A volume with a FAT of 32 bits is described where neither the number of sectors nor the sum in
    the formula wraps. -/
theorem formatFat32_describes_iff {b : BootSector} (hd : d.Valid)
    (hf : formatFat32 checked d = some (p, b)) :
    (∃ v, Describes (sectors d) p b v) ↔ sectors d + 8285 < 4294967296 := by
  obtain ⟨q, hq, heq⟩ := Option.map_eq_some_iff.mp hf
  cases heq
  obtain ⟨hpos, htype, hdisk, hbytes, hspc, hrsvd, hnum, hent, hfat, hclusters⟩ := planFat_eq hq
  have hnlt : totalSectors d < 4294967296 := Nat.mod_lt _ (by decide)
  obtain ⟨hlow, hsec⟩ := secPerClusOf_fat32 hnlt hpos
  have hr := rootDirSectors_zero hd
  have hroot : p.rootSectors = 0 := by
    rw [Plan.rootSectors, hent, hbytes, ← rootDirSectors_eq hd (Nat.zero_le _), hr]
  have hsmall := planFat_small hd hq (by omega) (by decide) (by decide)
  have hfatlt : p.fatSz < 4294967296 := by
    rw [hfat]
    exact Nat.lt_of_le_of_lt (Nat.div_le_self _ _) (Nat.mod_lt _ (by decide))
  have hwritten := Plan.written32 hsmall hfatlt (show bootfat32.signature = 0xaa55 from rfl)
  have htotal := hwritten.totSec
  have hstart : p.start = 36 + 2 * p.fatSz := by
    unfold Plan.start
    rw [hrsvd, hnum, hroot, Nat.add_zero]
  rw [hr] at hfat hclusters
  generalize secPerClusOf DskTableFAT32 (totalSectors d) = secPerClus at *
  have htmp : sub32 (totalSectors d) (u32 (36 + 0)) = totalSectors d - 36 := by
    show sub32 (totalSectors d) 36 = _
    rw [sub32, if_pos (by omega)]
  rw [htmp] at hfat hclusters
  constructor
  · rintro ⟨v, hv⟩
    refine Decidable.byContradiction fun hbig => ?_
    have hn : totalSectors d = sectors d := by rw [← hdisk, ← htotal, hv.total]
    have hsec : secPerClus = 64 := by omega
    rw [hsec] at hfat
    have hfatsmall : p.fatSz ≤ 1 := by
      rw [hfat]
      unfold u32
      omega
    have hmount := hwritten.mount_eq hsmall (by omega)
    rw [hv.mounts] at hmount
    have hentries := hv.entries
    rw [Option.some.inj hmount] at hentries
    have hcount : p.mounted.countOfClusters = (totalSectors d - (36 + 2 * p.fatSz)) / 64 := by
      show (p.diskSize - p.start) / p.secPerClus = _
      rw [hdisk, hstart, hspc, hsec]
    rw [fatType_eq rfl, if_neg (by omega), if_neg (by omega)] at hentries
    have hbytes' : p.fatSz * p.bytesPerSector ≤ 1 * 65535 :=
      Nat.mul_le_mul hfatsmall (by have := hsmall.bytesHigh; omega)
    have hentries : (p.mounted.countOfClusters + 2) * 32 ≤ p.fatSz * p.bytesPerSector * 8 :=
      hentries
    omega
  · intro hsize
    have hn : totalSectors d = sectors d :=
      Nat.mod_eq_of_lt (by unfold sectors at hsize; omega)
    rw [hn] at hdisk hfat hclusters hsec hlow hnlt
    have hfat : p.fatSz = (sectors d - 36 + 2 * secPerClus + (128 * secPerClus + 2 - 1)) /
        (128 * secPerClus + 2) := by
      rw [hfat, u32, Nat.mod_eq_of_lt (by omega)]
    obtain ⟨hle, hfathigh, hcount⟩ := fat32_lengths hlow hnlt hsec hfat rfl
    have htwo : u32 (2 * p.fatSz) = 2 * p.fatSz := Nat.mod_eq_of_lt (by omega)
    rw [htwo, sub32, if_pos hle] at hclusters
    have hcovers := fatSz_covers (by omega) hfat hclusters hle
    have hclusters' : p.clusters = (p.diskSize - p.start) / p.secPerClus := by
      rw [hclusters, hstart, hdisk, hspc, Nat.sub_sub]
    have hdescribes := hwritten.describes hsmall (by omega) hclusters' ?_ ?_
    · rw [hdisk] at hdescribes
      exact ⟨_, hdescribes⟩
    · rw [fatType_eq (show p.mounted.countOfClusters = p.clusters from hclusters'.symm), htype,
        if_neg (by omega), if_neg (by omega)]
    · have hbig : p.fatSz * 512 ≤ p.fatSz * p.bytesPerSector :=
        Nat.mul_le_mul_left _ (by rw [hbytes]; exact hd.low)
      rw [htype]
      show (p.clusters + 2) * 32 ≤ p.fatSz * p.bytesPerSector * 8
      omega

/-- The boot sector that `format` writes describes the volume that it plans, unless the partition has
    so many sectors that their number, or the sum in the formula for the FAT, wraps. -/
theorem format_describes_iff (hd : d.Valid) {b : BootSector}
    (hf : format checked d = some (p, b)) :
    (∃ v, Describes (sectors d) p b v) ↔ sectors d + 8285 < 4294967296 := by
  have hlow := hd.low
  have hsize : sectors d = d.size / d.bytesPerSector := by
    unfold sectors
    rw [hd.size]
  have hle : ∀ k, d.size < k * 512 → sectors d < k := by
    intro k hk
    rw [hsize]
    exact (Nat.div_lt_iff_lt_mul (by omega)).mpr
      (Nat.lt_of_lt_of_le hk (Nat.mul_le_mul_left k hlow))
  unfold format at hf
  split at hf
  · cases hf
  · split at hf
    · rename_i hsmall
      have hn := hle 8401 (by omega)
      exact iff_of_true (formatFat12_describes hf (by omega)) (by omega)
    · split at hf
      · rename_i hmiddle
        have hn := hle 1048576 (by omega)
        exact iff_of_true (formatFat16_describes hd hf hn) (by omega)
      · exact formatFat32_describes_iff hd hf

/-- A partition of 1 GB. -/
theorem format_describes_gigabyte :
    ∃ p b, format true ⟨1073741824, 512, 1073741824⟩ = some (p, b) ∧
      ((∃ v, Describes (sectors ⟨1073741824, 512, 1073741824⟩) p b v) ↔
        sectors ⟨1073741824, 512, 1073741824⟩ + 8285 < 4294967296) := by
  have hsome : (format true ⟨1073741824, 512, 1073741824⟩).isSome = true := by decide +kernel
  obtain ⟨⟨p, b⟩, hf⟩ := Option.isSome_iff_exists.mp hsome
  exact ⟨p, b, hf, format_describes_iff ⟨by decide, by decide, rfl⟩ hf⟩

/-- A partition of 2 TB and 1 GB is given a boot sector for 1 GB. -/
theorem format_describes_fails :
    ∃ p b, format true ⟨2200096997376, 512, 2200096997376⟩ = some (p, b) ∧ b.totSec = 2097152 ∧
      ¬ ∃ v, Describes (sectors ⟨2200096997376, 512, 2200096997376⟩) p b v := by
  have htotal : (format true ⟨2200096997376, 512, 2200096997376⟩).map
      (fun r => r.2.totSec) = some 2097152 := by
    decide +kernel
  obtain ⟨⟨p, b⟩, hf, hb⟩ := Option.map_eq_some_iff.mp htotal
  refine ⟨p, b, hf, hb, fun ⟨v, hv⟩ => ?_⟩
  have hsectors : sectors ⟨2200096997376, 512, 2200096997376⟩ = 4297064448 := by decide
  have := hv.total
  rw [hsectors] at this
  have hb : b.totSec = 2097152 := hb
  omega

end FatFileSystem

end EsOs.Fat
