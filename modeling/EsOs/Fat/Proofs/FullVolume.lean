import EsOs.Fat.Proofs.Create

/-!
# A new directory on a full volume

What `createSubcontext` leaves when it runs out of clusters. The search for free entries gives the
parent directory its clusters before the cluster of the new directory is allocated, and nothing
takes them back.
-/

namespace EsOs.Fat

open EsOs.Es

/-- The entries with their long names that calls of `findNext` show from `pos` on, no more than
    `turns`. -/
def listLoop (entries : List Fcb) : Nat → Nat → Option (List (Fcb × List Nat))
  | 0, _ => some []
  | turns + 1, pos =>
    match FatStream.findNext 0 0 pos (entries.drop (pos / 32)) with
    | none => none
    | some (.missing _ _) => some []
    | some (.found ent longName pos _) =>
      (listLoop entries turns pos).map fun rest => (ent, longName) :: rest

/-- What a reader of the directory is shown; a directory has at most `DIR_LIMIT` bytes. -/
def Directory.listing (dir : Directory) : Option (List (Fcb × List Nat)) :=
  listLoop dir.entries (DIR_LIMIT / 32) 0

/-- The listing of the directory, the table and the count of free clusters are as they were. -/
structure Unchanged (disk : FatDisk) (dir : Directory) (disk' : FatDisk) (dir' : Directory) :
    Prop where
  listing : dir'.listing = dir.listing
  entries : ∀ c ≤ disk.countOfClusters + 1, disk'.clusEntryVal c = disk.clusEntryVal c
  freeCount : disk'.freeCount = disk.freeCount

/-- The number of clusters that the directory needs more for a new name. -/
def growth (utftolower : Nat → Nat) (unset : Unset) (name : List UInt8) (s : Bpb)
    (dir : Directory) : Nat :=
  match newName unset name with
  | some (.ok name) =>
    match asks utftolower name dir numericBases 1 ⟨name.required, DIR_LIMIT⟩ with
    | some size => dir.stream.takes s size
    | none => 0
  | _ => 0

/-- A directory on a volume in order: the count of free clusters is right, a cluster has room for
    the first two entries of a directory, no cluster has the number of the mark of a bad one, the
    stream has the clusters for what its cache knows, and what is behind that is zero. -/
structure Intact (disk : FatDisk) (dir : Directory) : Prop where
  usable : disk.Usable
  freeCount : disk.freeCount = disk.zeroEntries
  cluster : 64 ≤ disk.bytsPerClus
  good : ∀ c, disk.IsCluster c → disk.isBadCluster c = false
  limit : dir.cacheSize ≤ DIR_LIMIT
  sized : dir.stream.size = dir.stream.roundSize disk.toBpb dir.cacheSize ∨
    (dir.stream.isRoot = true ∧ disk.isFat32 = false)
  ended : ∀ ent ∈ dir.records.drop (dir.cacheSize / 32), ent 0 = 0

/-! ## The listing -/

section Listing

variable {pos : Nat} {entries zs : List Fcb}

/-- What a call of `findNext` that only reads shows: the entry, its name and the place behind it. -/
def Next.shown : Next → Option (Fcb × List Nat × Nat)
  | .found ent longName pos _ => some (ent, longName, pos)
  | .missing _ _ => none

/-- Zero entries at the end show nothing. -/
theorem findNextLoop_zeros {d : Decoder} {free : FreeSlot} (hz : ∀ z ∈ zs, z 0 = 0) :
    (FatStream.findNextLoop 0 0 d free pos (entries ++ zs)).map Next.shown =
      (FatStream.findNextLoop 0 0 d free pos entries).map Next.shown := by
  induction entries generalizing d free pos with
  | nil =>
    cases zs with
    | nil => rfl
    | cons z zs =>
      have h0 : z 0 = 0 := hz z (.head _)
      have hfree : z.isFreeEntry = true := by
        unfold Fcb.isFreeEntry
        rw [h0]
        rfl
      show (FatStream.findNextLoop 0 0 d free pos (z :: zs)).map Next.shown = some none
      rw [FatStream.findNextLoop]
      simp only [hfree, h0, if_true]
      rfl
  | cons ent rest ih =>
    rw [List.cons_append, FatStream.findNextLoop, FatStream.findNextLoop]
    simp only
    split
    · split
      · rfl
      · exact ih
    · split
      · cases hpiece : d.restart.piece ent with
        | none => rfl
        | some d' => exact ih
      · split
        · rfl
        · exact ih

theorem findNext_zeros (hz : ∀ z ∈ zs, z 0 = 0) (hle : pos ≤ 32 * entries.length) :
    (FatStream.findNext 0 0 pos ((entries ++ zs).drop (pos / 32))).map Next.shown =
      (FatStream.findNext 0 0 pos (entries.drop (pos / 32))).map Next.shown := by
  rw [List.drop_append_of_le_length (by omega)]
  exact findNextLoop_zeros hz

theorem listLoop_zeros (hz : ∀ z ∈ zs, z 0 = 0) (hpos : pos % 32 = 0)
    (hle : pos ≤ 32 * entries.length) (turns : Nat) :
    listLoop (entries ++ zs) turns pos = listLoop entries turns pos := by
  induction turns generalizing pos with
  | zero => rfl
  | succ turns ih =>
    have hshown := findNext_zeros hz hle
    rw [listLoop, listLoop]
    cases hnext : FatStream.findNext 0 0 pos (entries.drop (pos / 32)) with
    | none =>
      rw [hnext, Option.map_none, Option.map_eq_none_iff] at hshown
      rw [hshown]
    | some next =>
      rw [hnext] at hshown
      obtain ⟨next', hnext', hsame⟩ := Option.map_eq_some_iff.mp hshown
      rw [hnext']
      cases next with
      | missing free asked =>
        cases next' with
        | missing free' asked' => rfl
        | found ent' name' pos'' free' => cases hsame
      | found ent name pos' free =>
        cases next' with
        | missing free' asked' => cases hsame
        | found ent' name' pos'' free' =>
          cases hsame
          obtain ⟨hpos', hle'⟩ := FatStream.findNext_found hpos hle hnext
          simp only [ih hpos' hle']

/-- Clusters that a directory gets do not show in its listing. -/
theorem listing_grown {dir : Directory}
    (hended : ∀ ent ∈ dir.records.drop (dir.cacheSize / 32), ent 0 = 0) {f : FatStream}
    {size n : Nat} (hsize : dir.cacheSize ≤ size) :
    Directory.listing ⟨f, size, dir.records ++ List.replicate n fun _ => 0⟩ = dir.listing := by
  have hadd : size / 32 = dir.cacheSize / 32 + (size / 32 - dir.cacheSize / 32) := by omega
  obtain ⟨zs, hz, heq⟩ : ∃ zs : List Fcb, (∀ z ∈ zs, z 0 = 0) ∧
      Directory.entries ⟨f, size, dir.records ++ List.replicate n fun _ => 0⟩ =
        dir.entries ++ zs := by
    refine ⟨(dir.records.drop (dir.cacheSize / 32)).take (size / 32 - dir.cacheSize / 32) ++
      (List.replicate n fun _ => 0).take (size / 32 - dir.records.length), ?_, ?_⟩
    · intro z hmem
      rcases List.mem_append.mp hmem with hmem | hmem
      · exact hended z (List.mem_of_mem_take hmem)
      · rw [List.eq_of_mem_replicate (List.mem_of_mem_take hmem)]
    · unfold Directory.entries
      simp only
      rw [List.take_append, ← List.append_assoc, ← List.take_add, ← hadd]
  unfold Directory.listing
  rw [heq]
  exact listLoop_zeros hz rfl (Nat.zero_le _) _

end Listing

/-! ## A call that runs out of space -/

variable {utftolower : Nat → Nat} {unset : Unset} {now : DateTime} {disk disk' disk₁ : FatDisk}
  {dir dir' dir₁ : Directory}

/-- The root directory outside of the clusters keeps its size. -/
theorem Directory.setSize_root (hdir : dir.stream.isDirectory = true)
    (hroot : dir.stream.isRoot = true) (hfat : disk.isFat32 = false) {size : Nat}
    {err : Option Errno} (hset : dir.setSize disk size = some (err, disk', dir')) :
    err = some .einval := by
  obtain ⟨⟨err', s, f⟩, hstream, hpair⟩ := Option.map_eq_some_iff.mp hset
  have hrefused :
      dir.stream.refused disk.toBpb (dir.stream.roundSize disk.toBpb size) = true := by
    unfold FatStream.refused
    rw [hdir, hroot, hfat]
    simp
  unfold FatStream.setSize at hstream
  simp only [Int.toNat_natCast, hrefused, if_true, ite_self] at hstream
  cases hstream
  cases hpair
  rfl

/-- The directory with the clusters it got, or with those it had. -/
theorem Directory.setSize_ends (h : Intact disk dir) (hdir : dir.stream.isDirectory = true)
    {size : Nat} (hsize : dir.cacheSize < size) (hbound : size ≤ 2147483648) {err : Option Errno}
    (hset : dir.setSize disk size = some (err, disk', dir')) :
    err = some .einval ∨
      (err = some .enospc ∧ Unchanged disk dir disk' dir' ∧
        disk.freeCount < dir.stream.takes disk.toBpb size) ∨
      (err = none ∧ disk'.Usable ∧ disk'.toBpb = disk.toBpb ∧
        disk'.freeCount + dir.stream.takes disk.toBpb size = disk.freeCount ∧
        (dir.stream.takes disk.toBpb size = 0 → Unchanged disk dir disk' dir')) := by
  rcases h.sized with hsized | ⟨hroot, hfat⟩
  · obtain ⟨⟨err', s, f⟩, hstream, hpair⟩ := Option.map_eq_some_iff.mp hset
    have hle : dir.stream.size ≤ dir.stream.roundSize disk.toBpb size :=
      hsized ▸ roundSize_mono h.usable.geometry hdir (Nat.le_of_lt hsize) hbound
    rcases FatStream.setSize_ends h.usable hle hstream with ⟨rfl, -, -⟩ |
      ⟨rfl, rfl, hrest, -, htakes, clus, s', halloc, heof⟩ | ⟨rfl, hgot⟩
    · cases hpair
      exact .inl rfl
    · cases hpair
      exact .inr (.inl ⟨rfl, ⟨rfl, hrest.entries, hrest.freeCount⟩,
        (h.usable.alloc_iff h.freeCount htakes halloc).mp heof⟩)
    · cases hpair
      refine .inr (.inr ⟨rfl, hgot.usable, hgot.bpb, hgot.freeCount, fun h0 => ?_⟩)
      obtain rfl := hgot.same h0
      exact ⟨listing_grown h.ended (Nat.le_of_lt hsize), fun _ _ => rfl, rfl⟩
  · exact .inl (Directory.setSize_root hdir hroot hfat hset)

/-- Where a call that runs out of space stopped: in the search, or behind it. -/
theorem createSubcontext_enospc (h : Intact disk dir) {canWrite : Bool} {utf8 : List UInt8}
    (hcreate : createSubcontext utftolower unset now canWrite utf8 disk dir =
      some (.threw (.errno .enospc), disk', dir')) :
    dir.stream.isDirectory = true ∧ ∃ name slot disk₁ dir₁, newName unset utf8 = some (.ok name) ∧
      findSlot utftolower name numericBases 1 ⟨name.required, DIR_LIMIT⟩ 0 disk dir =
        some (slot, disk₁, dir₁) ∧
      ((slot = .threw .enospc ∧ disk' = disk₁ ∧ dir' = dir₁) ∨
        ((∀ e, slot ≠ .threw e) ∧ (disk₁.Usable → disk₁.toBpb = disk.toBpb → dir' = dir₁ ∧
          FatFileSystem.Restored disk₁.toFatFileSystem disk'.toFatFileSystem))) := by
  unfold createSubcontext at hcreate
  split at hcreate
  · cases hcreate
  split at hcreate
  · cases hcreate
  unfold create at hcreate
  split at hcreate
  · cases hcreate
  rename_i hdir
  refine ⟨by simpa using hdir, ?_⟩
  split at hcreate
  · cases hcreate
  · rename_i e hname
    cases e with
    | enametoolong => cases hcreate
    | eacces => cases hcreate
    | errno e =>
      -- a conversion throws nothing else
      unfold newName at hname
      split at hname
      · cases hname
      · cases hname
      · cases hname
      · simp only at hname
        split at hname <;> cases hname
  · rename_i name hname
    split at hcreate
    · cases hcreate
    · cases hcreate
    · rename_i e disk₁ dir₁ hslot
      cases hcreate
      exact ⟨name, _, _, _, hname, hslot, .inl ⟨rfl, rfl, rfl⟩⟩
    · rename_i off numericTrail disk₁ dir₁ hslot
      refine ⟨name, _, _, _, hname, hslot, .inr ⟨fun e => nofun, fun husable hb => ?_⟩⟩
      split at hcreate
      · cases hcreate
      · exact createAt_enospc husable (hb ▸ h.cluster) (hb ▸ h.good) hcreate

/-- A call that runs out of space leaves the directory, the table and the count as they were when
    the directory needs no further cluster for the new entries, or more of them than are free. -/
theorem createSubcontext_unchanged_iff (h : Intact disk dir) {canWrite : Bool} {utf8 : List UInt8}
    (hcreate : createSubcontext utftolower unset now canWrite utf8 disk dir =
      some (.threw (.errno .enospc), disk', dir')) :
    Unchanged disk dir disk' dir' ↔ growth utftolower unset utf8 disk.toBpb dir = 0 ∨
      disk.freeCount < growth utftolower unset utf8 disk.toBpb dir := by
  obtain ⟨hdir, name, slot, disk₁, dir₁, hname, hslot, hend⟩ := createSubcontext_enospc h hcreate
  have hspec := findSlot_spec hslot
  unfold growth
  simp only [hname]
  cases hasks : asks utftolower name dir numericBases 1 ⟨name.required, DIR_LIMIT⟩ with
  | none =>
    rw [hasks] at hspec
    obtain ⟨hthrew, rfl, rfl⟩ := hspec
    refine iff_of_true ?_ (.inl rfl)
    rcases hend with ⟨hslot, -⟩ | ⟨-, hrest⟩
    · exact absurd hslot (hthrew _)
    · obtain ⟨rfl, hback⟩ := hrest h.usable rfl
      exact ⟨rfl, hback.entries, hback.freeCount⟩
  | some size =>
    rw [hasks] at hspec
    obtain ⟨err, hset, hthrew⟩ := hspec
    obtain ⟨-, hsize, hbound⟩ := asks_bound hasks
    have hreq := newName_required hname
    have hlimit := h.limit
    have hentries : dir.entries.length ≤ dir.cacheSize / 32 := by
      unfold Directory.entries
      exact List.length_take_le _ _
    have hle : size ≤ 2147483648 := by
      simp only [DIR_LIMIT] at hlimit
      simp only at hbound
      omega
    rcases Directory.setSize_ends h hdir hsize hle hset with rfl | ⟨rfl, hsame, hlt⟩ |
      ⟨rfl, husable, hb, hcount, hzero⟩
    · rcases hend with ⟨rfl, -⟩ | ⟨hnot, -⟩
      · exact absurd ((hthrew _).mp rfl) (by simp)
      · exact absurd ((hthrew .einval).mpr rfl) (hnot _)
    · rcases hend with ⟨-, rfl, rfl⟩ | ⟨hnot, -⟩
      · exact iff_of_true hsame (.inr hlt)
      · exact absurd ((hthrew .enospc).mpr rfl) (hnot _)
    · rcases hend with ⟨rfl, -⟩ | ⟨-, hrest⟩
      · exact absurd ((hthrew _).mp rfl) (by simp)
      obtain ⟨rfl, hback⟩ := hrest husable hb
      simp only
      by_cases h0 : dir.stream.takes disk.toBpb size = 0
      · obtain ⟨hlist, hfat, hfree⟩ := hzero h0
        refine iff_of_true ⟨hlist, fun c hc => ?_, hback.freeCount.trans hfree⟩ (.inl h0)
        exact (hback.entries c (hb ▸ hc)).trans (hfat c hc)
      · refine iff_of_false (fun hsame => ?_) (by omega)
        have := hsame.freeCount
        have := hback.freeCount
        omega

/-- The tiny volume as a disk. -/
def tinyDisk (table : List UInt8) (freeCount : Nat) : FatDisk where
  toFatFileSystem := (tinyVolume table freeCount oneByte).fs
  rootEntCnt := 16
  rootClus := 0
  firstRootDirSector := 1

/-- A directory of one cluster, with `n` entries of the name "A" and free entries behind them. -/
def tinyDirectory (n : Nat) : Directory where
  stream := { oneByte with isDirectory := true, size := 512, fcbFileSize := 0 }
  cacheSize := 512
  records := List.replicate n (fun i => if i = 0 then 0x41 else 0x20) ++
    List.replicate (16 - n) fun _ => 0

/-- The disk and directory are in order when the count is right. -/
theorem tiny_intact {table : List UInt8} {n k : Nat} (hk : k ≤ 16)
    (hn : n < 4 ∧ n = (tinyDisk table n).zeroEntries) :
    Intact (tinyDisk table n) (tinyDirectory k) where
  usable := by
    refine ⟨tinyBpb_wellFormed, Nat.lt_trans hn.1 (by decide), Nat.le_refl 2, ?_⟩
    rintro c ⟨hlow, hhigh⟩
    have hhigh : c ≤ 4 := hhigh
    have hall : ∀ i < 3, tinyBpb.ZeroedOff (i + 2) := by
      unfold Bpb.ZeroedOff
      decide
    have := hall (c - 2) (by omega)
    rwa [show c - 2 + 2 = c by omega] at this
  freeCount := hn.2
  cluster := (by decide : 64 ≤ tinyBpb.bytsPerClus)
  good := by
    rintro c ⟨-, hhigh⟩
    have hhigh : c ≤ 4 := hhigh
    have hall : ∀ i < 5, tinyBpb.isBadCluster i = false := by decide
    exact hall c (by omega)
  limit := (by decide : 512 ≤ DIR_LIMIT)
  sized := .inl (by
    have hround : tinyBpb.clusterMask (512 + 512 - 1) = 512 := by decide
    exact hround.symm)
  ended ent hmem := by
    have hlen : (tinyDirectory k).records.length = 16 := by
      unfold tinyDirectory
      rw [List.length_append, List.length_replicate, List.length_replicate]
      omega
    have hcache : (tinyDirectory k).cacheSize / 32 = 16 := (by decide : 512 / 32 = 16)
    rw [hcache, List.drop_of_length_le (Nat.le_of_eq hlen)] at hmem
    cases hmem

/-- The call ran out of space. -/
def Created.isEnospc : Created → Bool
  | .threw (.errno .enospc) => true
  | _ => false

theorem Created.eq_of_isEnospc {c : Created} (h : c.isEnospc = true) :
    c = .threw (.errno .enospc) := by
  unfold isEnospc at h
  split at h
  · rfl
  · cases h

/-- `createSubcontext("B")` in a directory of the tiny volume. -/
def tinyCreate (disk : FatDisk) (dir : Directory) : Option (Created × FatDisk × Directory) :=
  createSubcontext id ⟨0, fun _ => 0, fun _ => 0⟩ FatFileSystem.epoch true [0x42] disk dir

/-- A call that runs out of space leaves a count. -/
theorem tinyCreate_ends {disk : FatDisk} {dir : Directory} {n : Nat}
    (h : (tinyCreate disk dir).map (fun r => (r.1.isEnospc, r.2.1.freeCount)) = some (true, n)) :
    ∃ disk' dir', tinyCreate disk dir = some (.threw (.errno .enospc), disk', dir') ∧
      disk'.freeCount = n := by
  obtain ⟨⟨c, disk', dir'⟩, hcreate, hpair⟩ := Option.map_eq_some_iff.mp h
  obtain ⟨hc, hn⟩ := Prod.mk.inj hpair
  obtain rfl := Created.eq_of_isEnospc hc
  exact ⟨disk', dir', hcreate, hn⟩

/-- Without a free cluster, where the directory has a free entry. -/
def emptyDisk : FatDisk :=
  tinyDisk [0xf8, 0xff, 0xff, 0xff, 0xff, 0xff, 0xff, 0x0f] 0

theorem createSubcontext_unchanged_entry :
    ∃ disk' dir', tinyCreate emptyDisk (tinyDirectory 15) =
      some (.threw (.errno .enospc), disk', dir') ∧
        Unchanged emptyDisk (tinyDirectory 15) disk' dir' := by
  have hends : (tinyCreate emptyDisk (tinyDirectory 15)).map
      (fun r => (r.1.isEnospc, r.2.1.freeCount)) = some (true, 0) := by decide +kernel
  obtain ⟨disk', dir', hcreate, -⟩ := tinyCreate_ends hends
  refine ⟨disk', dir', hcreate, ?_⟩
  exact (createSubcontext_unchanged_iff (tiny_intact (by decide) (by decide)) hcreate).mpr
    (.inl (by decide +kernel))

/-- With one free cluster, where the directory is full: it gets the cluster and keeps it. -/
theorem createSubcontext_grows :
    let disk := tinyDisk [0xf8, 0xff, 0xff, 0xff, 0xff, 0xff, 0x00, 0x00] 1
    Intact disk (tinyDirectory 16) ∧ ∃ disk' dir', tinyCreate disk (tinyDirectory 16) =
      some (.threw (.errno .enospc), disk', dir') ∧ disk'.freeCount = 0 ∧
        ¬ Unchanged disk (tinyDirectory 16) disk' dir' := by
  intro disk
  have hends : (tinyCreate disk (tinyDirectory 16)).map
      (fun r => (r.1.isEnospc, r.2.1.freeCount)) = some (true, 0) := by decide +kernel
  obtain ⟨disk', dir', hcreate, hcount⟩ := tinyCreate_ends hends
  refine ⟨tiny_intact (by decide) (by decide), disk', dir', hcreate, hcount, fun hsame => ?_⟩
  have hkept : disk'.freeCount = 1 := hsame.freeCount
  omega

end EsOs.Fat
