import Mathlib
import EsOs.Fat.Create
import EsOs.Fat.Proofs.Available
import EsOs.Fat.Proofs.Time

/-!
# What making an entry takes

The search for free entries sets the size of the directory at most once, and throws what that
throws. Behind it, a new directory that runs out of clusters leaves nothing.
-/

namespace EsOs.Fat

open EsOs.Es

/-- The size that the search for free entries asks for, when the entries that there are do not do.
    -/
def asks (utftolower : Nat → Nat) (name : NewName) (dir : Directory) :
    Nat → Nat → Search → Option Nat
  | 0, _, _ => none
  | turns + 1, numericBase, search =>
    match pass utftolower name numericBase dir search with
    | some (.ended _ _ (some size)) => some size
    | some (.ended search numericMap none) =>
      if name.lossy = false ∨ numericMap ≠ 0xffffffff then none
      else asks utftolower name dir turns (numericBase + 32) search
    | _ => none

/-! ## The search asks for space at most once -/

theorem FreeSlot.extend_asks {free free' : FreeSlot} {freeRequired pos size newSize : Nat}
    (h : free.extend freeRequired pos size = (free', some newSize)) :
    0 < freeRequired ∧ free'.freeSize = freeRequired ∧ size < newSize ∧
      newSize ≤ pos + freeRequired := by
  unfold extend at h
  split at h
  · rename_i hlt
    simp only at h
    obtain ⟨hfree, hsize⟩ := Prod.mk.inj h
    generalize hoffset : (if free.freeOffset + free.freeSize ≠ pos then pos
      else free.freeOffset) = offset at hfree hsize
    have hle : offset ≤ pos := by
      rw [← hoffset]
      split <;> omega
    split at hsize
    · cases hsize
      exact ⟨by omega, by rw [← hfree], by omega, by omega⟩
    · cases hsize
  · cases h

namespace FatStream

variable {size freeRequired pos pos' newSize : Nat} {d : Decoder} {free free' : FreeSlot}
  {entries : List Fcb}

theorem findNextLoop_asks
    (h : findNextLoop size freeRequired d free pos entries = some (.missing free' (some newSize))) :
    0 < freeRequired ∧ free'.freeSize = freeRequired ∧ size < newSize ∧
      newSize ≤ pos + 32 * entries.length + freeRequired := by
  have hend : ∀ {f : FreeSlot} {p : Nat}, some (Next.missing (f.extend freeRequired p size).1
      (f.extend freeRequired p size).2) = some (.missing free' (some newSize)) →
      0 < freeRequired ∧ free'.freeSize = freeRequired ∧ size < newSize ∧
        newSize ≤ p + freeRequired := by
    intro f p heq
    injection heq with heq
    injection heq with h1 h2
    exact FreeSlot.extend_asks (Prod.ext h1 h2)
  induction entries generalizing d free pos with
  | nil => exact hend h
  | cons ent rest ih =>
    have hrest : ∀ {d f}, findNextLoop size freeRequired d f (pos + 32) rest =
        some (.missing free' (some newSize)) → _ := fun heq => ih heq
    rw [List.length_cons]
    rw [findNextLoop] at h
    simp only at h
    split at h
    · split at h
      · have := hend h
        omega
      · have := hrest h
        omega
    · split at h
      · obtain ⟨d', -, h⟩ := Option.bind_eq_some_iff.mp h
        have := hrest h
        omega
      · split at h
        · split at h
          · obtain ⟨name, -, h⟩ := Option.bind_eq_some_iff.mp h
            cases h
          · cases h
        · have := hrest h
          omega

/-- An entry that is found lies behind the place of the search. -/
theorem findNextLoop_found {ent' : Fcb} {name : List Nat}
    (h : findNextLoop size freeRequired d free pos entries = some (.found ent' name pos' free')) :
    ∃ k, 0 < k ∧ k ≤ entries.length ∧ pos' = pos + 32 * k := by
  induction entries generalizing d free pos with
  | nil => cases h
  | cons ent rest ih =>
    have hrest : ∀ {d f}, findNextLoop size freeRequired d f (pos + 32) rest =
        some (.found ent' name pos' free') →
          ∃ k, 0 < k ∧ k ≤ rest.length + 1 ∧ pos' = pos + 32 * k := by
      intro d f heq
      obtain ⟨k, hk, hle, hpos⟩ := ih heq
      exact ⟨k + 1, by omega, by omega, by omega⟩
    have hhere : pos + 32 = pos' → ∃ k, 0 < k ∧ k ≤ rest.length + 1 ∧ pos' = pos + 32 * k :=
      fun heq => ⟨1, by omega, by omega, heq.symm⟩
    rw [List.length_cons]
    rw [findNextLoop] at h
    simp only at h
    split at h
    · split at h
      · cases h
      · exact hrest h
    · split at h
      · obtain ⟨d', -, h⟩ := Option.bind_eq_some_iff.mp h
        exact hrest h
      · split at h
        · split at h
          · obtain ⟨name, -, h⟩ := Option.bind_eq_some_iff.mp h
            cases h
            exact hhere rfl
          · cases h
            exact hhere rfl
        · exact hrest h

/-- The same in a directory, from one of its entries on. -/
theorem findNext_found {ent : Fcb} {name : List Nat} (hpos : pos % 32 = 0)
    (hle : pos ≤ 32 * entries.length)
    (h : findNext size freeRequired pos (entries.drop (pos / 32)) =
      some (.found ent name pos' free')) :
    pos' % 32 = 0 ∧ pos' ≤ 32 * entries.length := by
  obtain ⟨k, -, hk, rfl⟩ := findNextLoop_found h
  rw [List.length_drop] at hk
  omega

end FatStream

section Search

variable {utftolower : Nat → Nat} {name : NewName} {numericBase numericMap newSize : Nat}
  {search search' : Search} {entries : List Fcb} {dir dir' : Directory}

theorem Search.take_required (search : Search) (free : FreeSlot) :
    (search.take free).freeRequired = search.freeRequired ∨
      (search.take free).freeRequired = 0 := by
  unfold Search.take
  split
  · exact .inr rfl
  · exact .inl rfl

/-- A pass asks for space when it still has to, and does not have to any more then. -/
theorem passLoop_asks {size fuel pos map : Nat} (hpos : pos % 32 = 0)
    (hle : pos ≤ 32 * entries.length)
    (h : passLoop utftolower name numericBase size entries fuel pos search map =
      some (.ended search' numericMap (some newSize))) :
    search'.freeRequired = 0 ∧ search.freeRequired ≠ 0 ∧ size < newSize ∧
      newSize ≤ 32 * entries.length + search.freeRequired := by
  induction fuel generalizing pos search map with
  | zero => cases h
  | succ fuel ih =>
    rw [passLoop] at h
    split at h
    · cases h
    · rename_i free asked hnext
      cases h
      obtain ⟨hreq, hfree, hsize, hbound⟩ := FatStream.findNextLoop_asks hnext
      rw [List.length_drop] at hbound
      refine ⟨?_, by omega, hsize, by omega⟩
      unfold Search.take
      rw [if_pos ⟨hreq, Nat.le_of_eq hfree.symm⟩]
    · rename_i ent longName pos' free hnext
      obtain ⟨hpos', hle'⟩ := FatStream.findNext_found hpos hle hnext
      have hon : ∀ {map}, passLoop utftolower name numericBase size entries fuel pos'
          (search.take free) map = some (.ended search' numericMap (some newSize)) →
          search'.freeRequired = 0 ∧ search.freeRequired ≠ 0 ∧ size < newSize ∧
            newSize ≤ 32 * entries.length + search.freeRequired := by
        intro map hloop
        obtain ⟨hdone, hreq, hsize, hbound⟩ := ih hpos' hle' hloop
        have hkeep := (search.take_required free).resolve_right hreq
        rw [hkeep] at hreq hbound
        exact ⟨hdone, hreq, hsize, hbound⟩
      simp only at h
      split at h
      · cases h
      · split at h
        · split at h
          · cases h
          · split at h
            · cases h
            · exact hon h
        · exact hon h

theorem pass_asks (h : pass utftolower name numericBase dir search =
    some (.ended search' numericMap (some newSize))) :
    search'.freeRequired = 0 ∧ search.freeRequired ≠ 0 ∧ dir.cacheSize < newSize ∧
      newSize ≤ 32 * dir.entries.length + search.freeRequired :=
  passLoop_asks rfl (Nat.zero_le _) h

/-- After a pass the search needs as much as before, or it has its place. -/
theorem passLoop_required {size fuel pos map : Nat} {asked : Option Nat}
    (h : passLoop utftolower name numericBase size entries fuel pos search map =
      some (.ended search' numericMap asked)) :
    search'.freeRequired = search.freeRequired ∨ search'.freeRequired = 0 := by
  induction fuel generalizing pos search map with
  | zero => cases h
  | succ fuel ih =>
    rw [passLoop] at h
    split at h
    · cases h
    · cases h
      exact search.take_required _
    · rename_i ent longName pos' free hnext
      have htake := search.take_required free
      have hon : ∀ {map}, passLoop utftolower name numericBase size entries fuel pos'
          (search.take free) map = some (.ended search' numericMap asked) →
          search'.freeRequired = search.freeRequired ∨ search'.freeRequired = 0 := by
        intro map hloop
        have := ih hloop
        omega
      simp only at h
      split at h
      · cases h
      · split at h
        · split at h
          · cases h
          · split at h
            · cases h
              exact htake
            · exact hon h
        · exact hon h

/-- What is asked for is more than there is, by no more than the name needs. -/
theorem asks_bound {turns : Nat}
    (h : asks utftolower name dir turns numericBase search = some newSize) :
    search.freeRequired ≠ 0 ∧ dir.cacheSize < newSize ∧
      newSize ≤ 32 * dir.entries.length + search.freeRequired := by
  induction turns generalizing numericBase search with
  | zero => cases h
  | succ turns ih =>
    rw [asks] at h
    split at h
    · rename_i hpass
      cases h
      exact (pass_asks hpass).2
    · rename_i hpass
      split at h
      · cases h
      · obtain ⟨hreq, hsize, hbound⟩ := ih h
        have hkeep := (passLoop_required hpass).resolve_right hreq
        rw [hkeep] at hreq hbound
        exact ⟨hreq, hsize, hbound⟩
    · cases h

/-- The search sets the size of the directory once, when it has to, and throws what that throws. -/
theorem findSlot_spec {fuel : Nat} {disk disk' : FatDisk} {slot : Slot}
    (h : findSlot utftolower name fuel numericBase search numericMap disk dir =
      some (slot, disk', dir')) :
    match asks utftolower name dir fuel numericBase search with
    | none => (∀ e, slot ≠ .threw e) ∧ disk' = disk ∧ dir' = dir
    | some size => ∃ err, dir.setSize disk size = some (err, disk', dir') ∧
        ∀ e, slot = .threw e ↔ err = some e := by
  induction fuel generalizing numericBase search numericMap disk dir with
  | zero =>
    cases h
    exact ⟨fun e => by simp, rfl, rfl⟩
  | succ fuel ih =>
    rw [findSlot] at h
    rw [asks]
    split at h
    · cases h
    · rename_i hpass
      cases h
      rw [hpass]
      exact ⟨fun e => by simp, rfl, rfl⟩
    · rename_i search₁ map asked hpass
      rw [hpass]
      cases asked with
      | none =>
        simp only at h ⊢
        split at h
        · rename_i hend
          cases h
          rw [if_pos hend]
          exact ⟨fun e => by simp, rfl, rfl⟩
        · rename_i hgo
          rw [if_neg hgo]
          exact ih h
      | some size =>
        obtain ⟨hdone, -⟩ := pass_asks hpass
        simp only at h ⊢
        split at h
        · cases h
        · rename_i e disk₁ dir₁ hset
          cases h
          exact ⟨some e, hset, fun e' => by simp⟩
        · rename_i disk₁ dir₁ hset
          refine ⟨none, ?_, ?_⟩
          all_goals
            split at h
            · cases h
              simp [hset]
            · have hrest := ih h
              have hnone : asks utftolower name dir₁ fuel (numericBase + 32) search₁ = none := by
                cases hask : asks utftolower name dir₁ fuel (numericBase + 32) search₁ with
                | none => rfl
                | some size => exact absurd hdone (asks_bound hask).1
              rw [hnone] at hrest
              obtain ⟨hslot, rfl, rfl⟩ := hrest
              simp [hset, hslot]

end Search

/-! ## The cluster of the new directory -/

/-- A name has no more than 255 units. -/
theorem convertLoop_length {utf32 fuel : Nat} {utf8 : List UInt8} {utf16 : Option (List UInt16)}
    {units : List UInt16} (h : convertLoop utf32 fuel utf8 utf16 = some (.units units)) :
    units.length < 256 := by
  induction fuel generalizing utf8 utf16 with
  | zero => cases h
  | succ fuel ih =>
    rw [convertLoop] at h
    split at h
    · split at h <;> cases h
    · split at h
      · cases h
      · split at h
        · exact ih h
        · injection h with h
          unfold terminate at h
          split at h
          · cases h
          · split at h
            · cases h
            · split at h
              · rename_i hlt
                cases h
                exact Nat.lt_of_le_of_lt (List.takeWhile_prefix _).length_le hlt
              · cases h

theorem newName_required {unset : Unset} {utf8 : List UInt8} {name : NewName}
    (h : newName unset utf8 = some (.ok name)) : name.required ≤ 672 := by
  unfold newName at h
  split at h
  · cases h
  · cases h
  · cases h
  · rename_i units hunits
    have hlen := convertLoop_length hunits
    simp only at h
    split at h
    · cases h
    · cases h
      unfold NewName.required
      simp only [List.length_map]
      split <;> omega

/-- A size that is asked for takes whole clusters, not less than a smaller size. -/
theorem roundSize_mono {f : FatStream} {s : Bpb} (h : s.WellFormed) (hdir : f.isDirectory = true)
    {a b : Nat} (hle : a ≤ b) (hb : b ≤ 2147483648) :
    f.roundSize s a ≤ f.roundSize s b := by
  obtain ⟨k, hk, hclus⟩ := h.cluster
  have hpow : 2 ^ k ≤ 2 ^ 31 := Nat.pow_le_pow_right (by decide) (by omega)
  have hpos := h.clus_pos
  unfold FatStream.roundSize
  rw [if_pos hdir, if_pos hdir, Bpb.clusterMask_eq h (by omega), Bpb.clusterMask_eq h (by omega)]
  exact Nat.mul_le_mul_right _ (Nat.div_le_div_right (by omega))

/-- The first two entries of a directory are in its first cluster. -/
theorem roundSize_dots {f : FatStream} {s : Bpb} (h : s.WellFormed) (hdir : f.isDirectory = true)
    {n : Nat} (hn : 0 < n) (hle : n ≤ s.bytsPerClus) : f.roundSize s n = s.bytsPerClus := by
  obtain ⟨k, hk, hclus⟩ := h.cluster
  have hpow : 2 ^ k ≤ 2 ^ 31 := Nat.pow_le_pow_right (by decide) (by omega)
  have hpos := h.clus_pos
  unfold FatStream.roundSize
  rw [if_pos hdir, Bpb.clusterMask_eq h (by omega),
    show n + s.bytsPerClus - 1 = n - 1 + s.bytsPerClus by omega, Nat.add_div_right _ hpos,
    Nat.div_eq_of_lt (by omega), Nat.zero_add, Nat.one_mul]

section Dots

variable {disk disk' : FatDisk} {dir dir' : Directory} {f f' : FatStream} {err : Option Errno}
  {fcb ent : Fcb} {clus : Nat}

/-- `setSize` of a stream on the disk, as far as it can fail. -/
theorem reach_grown {cacheSize cacheSize' upTo : Nat} (h : disk.Usable)
    (hgrow : cacheSize < upTo) (hle : f.size ≤ f.roundSize disk.toBpb upTo)
    (hreach : reach disk f cacheSize upTo = some (err, disk', f', cacheSize')) :
    (err = some .einval) ∨
      (err = some .enospc ∧ FatFileSystem.Restored disk.toFatFileSystem disk'.toFatFileSystem ∧
        f.takes disk.toBpb upTo ≠ 0) ∨
      (err = none ∧ cacheSize' = upTo ∧
        f.Got disk.toFatFileSystem upTo disk'.toFatFileSystem f') := by
  unfold reach at hreach
  rw [if_pos hgrow] at hreach
  obtain ⟨⟨err', s, f''⟩, hset, hpair⟩ := Option.map_eq_some_iff.mp hreach
  cases hpair
  rcases FatStream.setSize_ends h hle hset with ⟨rfl, -, -⟩ | ⟨rfl, -, hrest, -, htakes, -⟩ |
    ⟨rfl, hgot⟩
  · exact .inl rfl
  · exact .inr (.inl ⟨rfl, hrest, htakes⟩)
  · exact .inr (.inr ⟨rfl, rfl, hgot⟩)

/-- The entries `.` and `..` run out of space only where the new directory has no cluster yet. -/
theorem writeDots_enospc (h : disk.Usable) (hclus : 64 ≤ disk.bytsPerClus)
    (hdir : fcb.isDirectory = true)
    (hsize : disk.calcSize fcb.fstClus = 0 ∨ 64 ≤ disk.calcSize fcb.fstClus)
    (hdots : writeDots disk f fcb ent = some (.error .enospc, disk')) :
    disk.calcSize fcb.fstClus = 0 ∧
      FatFileSystem.Restored disk.toFatFileSystem disk'.toFatFileSystem := by
  have hopen : (disk.openStream false fcb).size = disk.calcSize fcb.fstClus := if_pos hdir
  have hisdir : (disk.openStream false fcb).isDirectory = true := hdir
  unfold writeDots at hdots
  simp only [hopen] at hdots
  rcases hsize with h0 | hbig
  · refine ⟨h0, ?_⟩
    have hround : ∀ n, 0 < n → n ≤ 64 →
        (disk.openStream false fcb).roundSize disk.toBpb n = disk.bytsPerClus := fun n hpos hle =>
      roundSize_dots h.geometry hisdir hpos (Nat.le_trans hle hclus)
    split at hdots
    · cases hdots
    · rename_i e disk₁ f₁ cache hreach
      cases hdots
      rcases reach_grown h (by omega) (by rw [hopen, h0]; exact Nat.zero_le _) hreach with
        herr | ⟨-, hrest, -⟩ | ⟨herr, -⟩
      · cases herr
      · exact hrest
      · cases herr
    · rename_i disk₁ f₁ cache hreach
      rcases reach_grown h (by omega) (by rw [hopen, h0]; exact Nat.zero_le _) hreach with
        herr | ⟨herr, -⟩ | ⟨-, rfl, hgot⟩
      · cases herr
      · cases herr
      -- the stream has a whole cluster now
      have hsize₁ : f₁.size = disk.bytsPerClus :=
        hgot.size.trans (hround 32 (by decide) (by decide))
      have hround₁ : f₁.roundSize disk₁.toBpb 64 = f₁.size := by
        rw [hsize₁, hgot.bpb]
        exact roundSize_dots h.geometry (hgot.isDirectory.trans hisdir) (by decide) hclus
      split at hdots
      · cases hdots
      · rename_i e disk₂ f₂ cache hreach₂
        cases hdots
        rcases reach_grown hgot.usable (by decide) (Nat.le_of_eq hround₁.symm) hreach₂ with
          herr | ⟨-, -, htakes⟩ | ⟨herr, -⟩
        · cases herr
        · exact absurd (if_neg (by rw [hround₁]; exact Nat.lt_irrefl _)) htakes
        · cases herr
      · cases hdots
  · have hreach : ∀ n, n ≤ 64 → reach disk (disk.openStream false fcb)
        (disk.calcSize fcb.fstClus) n =
          some (none, disk, disk.openStream false fcb, disk.calcSize fcb.fstClus) := fun n hn =>
      if_neg (by omega)
    simp only [hreach 32 (by decide), hreach 64 (by decide)] at hdots
    cases hdots

/-- The times of an entry are apart from its name, its attributes, its first cluster and its size.
    -/
theorem setTimes_of_apart (fcb : Fcb) (now : DateTime) {i : Nat}
    (hi : i < 13 ∨ i = 20 ∨ i = 21 ∨ 26 ≤ i) : fcb.setTimes now i = fcb i := by
  unfold Fcb.setTimes FileEntry.setLastAccessTime FileEntry.setLastWriteTime
    FileEntry.setCreationTime
  simp only [DIR_LstAccDate, DIR_WrtTime, DIR_WrtDate, DIR_CrtTimeTenth, DIR_CrtTime, DIR_CrtDate]
  rw [Disk.xword_of_ne (by omega), Disk.xword_of_ne (by omega), Disk.xword_of_ne (by omega),
    Disk.xbyte_of_ne (by omega), Disk.xword_of_ne (by omega), Disk.xword_of_ne (by omega)]

theorem fstClus_setFstClus (fcb : Fcb) (h : clus < 4294967296) :
    (fcb.setFstClus clus).fstClus = clus := by
  have hhigh : clus >>> 16 < 65536 := by
    rw [Nat.shiftRight_eq_div_pow]
    omega
  unfold Fcb.fstClus Fcb.setFstClus
  simp only [DIR_FstClusLO, DIR_FstClusHI]
  rw [Disk.word_xword_of_ne (by decide), Disk.word_xword, Disk.word_xword, Nat.mod_eq_of_lt hhigh,
    Nat.lor_comm, ← Nat.shiftLeft_add_eq_or_of_lt (Nat.mod_lt _ (by decide)),
    Nat.shiftRight_eq_div_pow, Nat.shiftLeft_eq]
  omega

/-- A numeric trail is written into the base name. -/
theorem setNumericTrail_of_le {oem oem' : Fcb} {n i : Nat} (h : setNumericTrail oem n = some oem')
    (hi : 8 ≤ i) : oem' i = oem i := by
  obtain ⟨⟨s, m⟩, -, h⟩ := Option.bind_eq_some_iff.mp h
  cases h
  simp only
  rw [if_neg (by omega), if_neg (by omega)]

/-- The entry of a new directory: it says so, and it has the cluster that was allocated. -/
theorem newFcb_directory {name : NewName} {attr numericTrail : Nat} (now : DateTime)
    (h : newFcb name attr numericTrail = some fcb) (hattr : attr &&& ATTR_DIRECTORY ≠ 0)
    (hclus : clus < 4294967296) :
    ((fcb.setFstClus clus).setTimes now).isDirectory = true ∧
      ((fcb.setFstClus clus).setTimes now).fstClus = clus := by
  have hbyte : fcb 11 = 0x30 := by
    unfold newFcb at h
    simp only [if_neg hattr] at h
    split at h
    · rw [setNumericTrail_of_le h (by decide)]
      rfl
    · cases h
      rfl
  constructor
  · unfold Fcb.isDirectory Fcb.attr Fcb.setFstClus
    rw [setTimes_of_apart _ _ (by decide), Disk.xword_of_ne (by decide),
      Disk.xword_of_ne (by decide), hbyte]
    rfl
  · refine Eq.trans ?_ (fstClus_setFstClus fcb hclus)
    unfold Fcb.fstClus
    have hlo : Disk.word ((fcb.setFstClus clus).setTimes now) 26 =
        Disk.word (fcb.setFstClus clus) 26 :=
      Disk.word_congr fun i hlow hhigh => setTimes_of_apart _ now (by omega)
    have hhi : Disk.word ((fcb.setFstClus clus).setTimes now) 20 =
        Disk.word (fcb.setFstClus clus) 20 :=
      Disk.word_congr fun i hlow hhigh => setTimes_of_apart _ now (by omega)
    rw [hlo, hhi]

/-- A directory of one cluster has its size, and one that begins with an end mark has none. -/
theorem calcSize_alloc {s' : FatFileSystem} (h : disk.Usable)
    (hgood : ∀ c, disk.IsCluster c → disk.isBadCluster c = false)
    (hresult : FatFileSystem.AllocResult disk.toFatFileSystem 1 clus s') :
    let disk' : FatDisk := { disk with toFatFileSystem := s' }
    (disk.isEof clus = true ∧ disk'.calcSize clus = 0) ∨
      (disk.isEof clus = false ∧ disk'.calcSize clus = disk.bytsPerClus) := by
  intro disk'
  have hlt := h.geometry.clus_lt
  have hcount := h.geometry.clusters
  have hcalc : clus ≠ 0 → disk'.calcSize clus =
      disk'.calcLoop (DIR_LIMIT / s'.bytsPerClus + 2) clus 0 := fun hne => by
    unfold FatDisk.calcSize
    rw [if_neg fun hx => hne hx.1]
    simp only [if_neg hne]
    rfl
  have hstop : ∀ {turns c size}, disk'.isEof c = true →
      disk'.calcLoop (turns + 1) c size = size := fun hend => by
    rw [FatDisk.calcLoop, hend]
    rfl
  rcases hresult with ⟨heof, hrest⟩ | ⟨heof, l, ha⟩
  · refine .inl ⟨heof, ?_⟩
    have hbeyond := (Bpb.isEof_iff h.geometry).mp heof
    rw [hcalc (by omega)]
    exact hstop (hrest.bpb ▸ heof)
  · refine .inr ⟨heof, ?_⟩
    have hb : disk'.toBpb = disk.toBpb := ha.bpb
    obtain ⟨a, rfl⟩ := List.length_eq_one_iff.mp ha.length
    obtain ⟨rfl, hlink⟩ := ha.chain.chain.head
    have hcl := ha.chain.isCluster (ha.bpb ▸ h.geometry) (.head _)
    rw [ha.bpb] at hcl
    obtain ⟨t, ht, hend⟩ := hlink.ends
    have hin : disk.outOfRange clus = false := by
      unfold Bpb.outOfRange
      rw [hgood clus hcl, u32_of_lt (by omega)]
      have := hcl.1
      have := hcl.2
      simp
      omega
    have hnext : disk'.isEof (disk'.clusEntryVal clus) = true := by
      rw [show disk'.clusEntryVal clus = t from ht]
      exact hend
    have hlow := hcl.1
    rw [hcalc (by omega), FatDisk.calcLoop]
    simp only [hb, heof, hin, Bool.or_false, Bool.false_eq_true, if_false, Nat.zero_add]
    rw [u32_of_lt hlt]
    split
    · rfl
    · rw [hstop hnext]

/-- From the free entries on nothing is left of a call that runs out of space. -/
theorem createAt_enospc {name : NewName} {attr off numericTrail : Nat} {now : DateTime}
    (h : disk.Usable) (hclus : 64 ≤ disk.bytsPerClus)
    (hgood : ∀ c, disk.IsCluster c → disk.isBadCluster c = false)
    (hcreate : createAt name attr now ent off numericTrail disk dir =
      some (.threw (.errno .enospc), disk', dir')) :
    dir' = dir ∧ FatFileSystem.Restored disk.toFatFileSystem disk'.toFatFileSystem := by
  unfold createAt at hcreate
  split at hcreate
  · cases hcreate
  rename_i fcb hfcb
  split at hcreate
  · cases hcreate
  rename_i hattr
  obtain ⟨clus, s, halloc, hresult, husable⟩ := h.alloc 1 true
  have hclusRange := (FatFileSystem.allocCluster_range h.geometry h.nxtFree halloc).2
  obtain ⟨hisdir, hfst⟩ := newFcb_directory now hfcb hattr hclusRange
  have hsize := calcSize_alloc h hgood hresult
  have hb : s.toBpb = disk.toBpb := by
    rcases hresult with ⟨-, hrest⟩ | ⟨-, l, ha⟩
    · exact hrest.bpb
    · exact ha.bpb
  simp only [halloc] at hcreate
  split at hcreate
  · cases hcreate
  · rename_i e disk₁ hdots
    cases hcreate
    have hspec := writeDots_enospc husable (hb ▸ hclus) hisdir (by
        rw [hfst]
        rcases hsize with ⟨-, h0⟩ | ⟨-, hone⟩
        · exact .inl h0
        · exact .inr (Nat.le_trans hclus (Nat.le_of_eq hone.symm))) hdots
    refine ⟨rfl, ?_⟩
    rcases hsize with ⟨heof, -⟩ | ⟨-, hbig⟩
    · rcases hresult with ⟨-, hrest⟩ | ⟨hne, -⟩
      · have hrest' := hspec.2
        refine ⟨hrest'.bpb.trans hrest.bpb, fun m hm => ?_, hrest'.freeCount.trans hrest.freeCount⟩
        exact (hrest'.entries m (hrest.bpb ▸ hm)).trans (hrest.entries m hm)
      · rw [heof] at hne
        cases hne
    · have := hspec.1
      rw [hfst, hbig] at this
      omega
  · cases hcreate

end Dots

end EsOs.Fat
