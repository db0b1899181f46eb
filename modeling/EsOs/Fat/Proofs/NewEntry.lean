import EsOs.Fat.Proofs.FullVolume
import EsOs.Fat.Proofs.OemName
import EsOs.Fat.Proofs.Slots

/-!
# The entries of a new name

What the entries are that `create` writes: parts of a long name with their orders, and behind them an
entry that is not free, with the attributes of a new file or directory.
-/

namespace EsOs.Fat

open EsOs.Es

/-! ## The short name -/

/-- A code that is no terminator is a character that can be printed. -/
theorem oemCode_printable {u ch : Nat} {lossy lossy' : Bool}
    (h : oemCode u lossy = some (ch, lossy')) (hne : ch ≠ 0) : 0x20 ≤ ch ∧ ch < 0x7f := by
  have hmap : ∀ c < 0x20, isValidLongChar (UInt8.ofNat c) = false := by decide
  unfold oemCode at h
  split at h
  · cases h
    exact absurd rfl hne
  split at h
  · rename_i hlt
    have hle := toupper_le u
    simp only at h
    split at h
    · cases h
    rename_i hvalid
    split at h
    · cases h
      decide
    · cases h
      refine ⟨Nat.not_lt.mp fun hlow => hvalid ?_, by omega⟩
      rw [hmap _ hlow]
      rfl
  · cases h
    decide

/-- The bytes of the base name can be printed. -/
theorem oemMain_printable {utf16 bytes : List Nat} {case8 : Int} {lossy : Bool} {s : OemState}
    (h : oemMain utf16 bytes case8 lossy = some s) (hb : ∀ b ∈ bytes, 0x20 ≤ b ∧ b < 0x7f) :
    ∀ b ∈ s.bytes, 0x20 ≤ b ∧ b < 0x7f := by
  induction utf16 generalizing bytes case8 lossy with
  | nil =>
    rw [oemMain] at h
    split at h
    · cases h
    · cases h
      exact hb
  | cons unit rest ih =>
    rw [oemMain] at h
    split at h
    · cases h
    rename_i ch lossy' hcode
    simp only at h
    split at h
    · cases h
      exact hb
    rename_i hgo
    split at h
    · exact ih h hb
    split at h
    · cases h
      exact hb
    refine ih h fun b hmem => ?_
    rcases List.mem_append.mp hmem with hmem | hmem
    · exact hb b hmem
    · rw [List.mem_singleton] at hmem
      subst hmem
      split
      · decide
      · exact oemCode_printable hcode fun h0 => hgo (.inl h0)

theorem utf16tooem_first {utf16 : List Nat} {fcb fcb' : Fcb} {lossy : Bool}
    (h : utf16tooem utf16 fcb = some (lossy, fcb')) :
    0x20 ≤ (fcb' 0).toNat ∧ (fcb' 0).toNat < 0x7f := by
  obtain ⟨main, hmain, h⟩ := Option.bind_eq_some_iff.mp h
  obtain ⟨ext, -, h⟩ := Option.bind_eq_some_iff.mp h
  cases h
  have hbytes := oemMain_printable hmain (fun b hb => by cases hb)
  show 0x20 ≤ (UInt8.ofNat (main.bytes.getD 0 0x20)).toNat ∧
    (UInt8.ofNat (main.bytes.getD 0 0x20)).toNat < 0x7f
  cases hm : main.bytes with
  | nil => decide
  | cons b bytes =>
    have hb := hbytes b (hm ▸ .head _)
    rw [List.getD_cons_zero, UInt8.toNat_ofNat', Nat.mod_eq_of_lt (by omega)]
    exact hb

/-- A byte that a numeric trail changes can be printed. -/
theorem setNumericTrail_byte {oem oem' : Fcb} {n : Nat} (h : setNumericTrail oem n = some oem')
    (i : Nat) : oem' i = oem i ∨ (0x20 ≤ (oem' i).toNat ∧ (oem' i).toNat < 0x7f) := by
  obtain ⟨⟨s, m⟩, -, h⟩ := Option.bind_eq_some_iff.mp h
  cases h
  simp only
  split
  · exact .inr (by decide)
  · split
    · right
      have := Nat.mod_lt (n / 10 ^ (min (s + 1 + (Nat.toDigits 10 n).length) 7 - i)) (y := 10)
        (by decide)
      rw [UInt8.toNat_ofNat', Nat.mod_eq_of_lt (by omega)]
      omega
    · exact .inl rfl

/-- The entry of a new name: its first byte can be printed, and its attributes are those of a new file
    or directory. -/
theorem newFcb_spec {unset : Unset} {utf8 : List UInt8} {name : NewName} {attr numericTrail : Nat}
    {fcb : Fcb} (hname : newName unset utf8 = some (.ok name))
    (h : newFcb name attr numericTrail = some fcb) :
    (0x20 ≤ (fcb 0).toNat ∧ (fcb 0).toNat < 0x7f) ∧
      fcb 11 = if attr &&& ATTR_DIRECTORY = 0 then 0x20 else 0x30 := by
  have hfirst : 0x20 ≤ (name.oem 0).toNat ∧ (name.oem 0).toNat < 0x7f := by
    unfold newName at hname
    split at hname
    · cases hname
    · cases hname
    · cases hname
    · simp only at hname
      split at hname
      · cases hname
      · rename_i lossy oem hoem
        cases hname
        exact utf16tooem_first hoem
  unfold newFcb at h
  simp only at h
  generalize hattr : (if attr &&& ATTR_DIRECTORY = 0 then ATTR_ARCHIVE
    else ATTR_ARCHIVE ||| ATTR_DIRECTORY) = a at h
  have hbyte : UInt8.ofNat a = if attr &&& ATTR_DIRECTORY = 0 then 0x20 else 0x30 := by
    rw [← hattr]
    split <;> rfl
  rw [← hbyte]
  split at h
  · refine ⟨?_, setNumericTrail_of_le h (by decide)⟩
    rcases setNumericTrail_byte h 0 with heq | hprint
    · rw [heq]
      exact hfirst
    · exact hprint
  · cases h
    exact ⟨hfirst, rfl⟩

/-! ## The parts of the long name -/

/-- The units of a part are apart from its order, its attributes and its checksum. -/
theorem longEntry_rest (fileName : List Nat) (sum : UInt8) (ord last : Nat) {i : Nat}
    (hi : i = 0 ∨ i = 11 ∨ i = 12 ∨ i = 13) :
    longEntry fileName sum ord last i =
      Disk.xbyte (Disk.xbyte (Disk.xbyte (fun _ => 0) LDIR_Attr ATTR_LONG_NAME) LDIR_Chksum
        sum.toNat) LDIR_Ord (if ord = last then ord ||| LAST_LONG_ENTRY else ord) i := by
  have hfold : ∀ (js : List Nat) (e : Fcb), (∀ j ∈ js, j < 13) →
      js.foldl (fun (ent : Fcb) j => Disk.xword ent (pieceOffsets.reverse.getD j 0)
        (longUnit fileName ((ord - 1) * 13 + j))) e i = e i := by
    intro js
    induction js with
    | nil => exact fun _ _ => rfl
    | cons j js ih =>
      intro e hjs
      have hoffset : ∀ j < 13, (pieceOffsets.reverse.getD j 0 ≠ 0 ∧
          (pieceOffsets.reverse.getD j 0 + 2 ≤ 11 ∨ 14 ≤ pieceOffsets.reverse.getD j 0)) := by
        decide
      have := hoffset j (hjs j (.head _))
      rw [List.foldl_cons, ih _ fun k hk => hjs k (.tail _ hk)]
      exact Disk.xword_of_ne (by omega)
  exact hfold _ _ fun j hj => List.mem_range.mp hj

section Entries

variable {name : NewName} {fcb : Fcb}

theorem newEntries_length (name : NewName) (fcb : Fcb) :
    32 * (newEntries name fcb).length = name.required := by
  unfold newEntries NewName.required
  simp only [List.length_append, List.length_map, List.length_range, List.length_singleton]
  split <;> omega

/-- No entry of a new name ends the directory. -/
theorem newEntries_first (hreq : name.required ≤ 672) (hfcb : fcb 0 ≠ 0) :
    ∀ e ∈ newEntries name fcb, e 0 ≠ 0 := by
  intro e he
  unfold newEntries at he
  simp only at he
  rcases List.mem_append.mp he with he | he
  · obtain ⟨i, hi, rfl⟩ := List.mem_map.mp he
    rw [List.mem_range] at hi
    have hord : ∀ ord < 21, 0 < ord → UInt8.ofNat ord ≠ 0 ∧
        UInt8.ofNat (ord ||| LAST_LONG_ENTRY) ≠ 0 := by decide
    have := hord (name.required / 32 - 1 - i) (by omega) (by omega)
    rw [longEntry_rest _ _ _ _ (.inl rfl)]
    show UInt8.ofNat (if _ then _ else _) ≠ 0
    split
    · exact this.2
    · exact this.1
  · rw [List.mem_singleton] at he
    exact he ▸ hfcb

theorem newEntries_last (name : NewName) (fcb : Fcb) :
    (newEntries name fcb)[name.required / 32 - 1]? = some fcb := by
  unfold newEntries
  rw [List.getElem?_append_right (by simp)]
  simp

end Entries

/-! ## A new entry in a directory -/

/-- What `create` does to a directory: the entries of the name, the last of them at `offset`, are put
    in one place, and the entry is that of a new file or directory. -/
structure Made (unset : Unset) (utf8 : List UInt8) (attr : Nat) (dir dir' : Directory) (fcb : Fcb)
    (offset : Nat) (name : NewName) (o : Nat) : Prop where
  converted : newName unset utf8 = some (.ok name)
  offset_eq : offset = 32 * o + name.required - 32
  put : Put dir.entries dir'.entries o (newEntries name fcb)
  fits : 32 * o + name.required ≤ dir'.cacheSize
  room : dir'.cacheSize / 32 ≤ dir'.records.length
  first : 0x20 ≤ (fcb 0).toNat ∧ (fcb 0).toNat < 0x7f
  attributes : fcb 11 = if attr &&& ATTR_DIRECTORY = 0 then 0x20 else 0x30

/-- A directory that `setSize` was asked to make larger has the size that was asked for. -/
theorem le_roundSize {f : FatStream} {s : Bpb} (h : s.WellFormed) {n : Nat}
    (hn : n ≤ 2147483648) : n ≤ f.roundSize s n := by
  obtain ⟨k, hk, hclus⟩ := h.cluster
  have hpow : 2 ^ k ≤ 2 ^ 31 := Nat.pow_le_pow_right (by decide) (by omega)
  have hpos := h.clus_pos
  unfold FatStream.roundSize
  split
  · rw [Bpb.clusterMask_eq h (by omega)]
    have hdiv := Nat.div_add_mod (n + s.bytsPerClus - 1) s.bytsPerClus
    have hmod := Nat.mod_lt (n + s.bytsPerClus - 1) hpos
    rw [Nat.mul_comm] at hdiv
    omega
  · exact Nat.le_refl _

variable {utftolower : Nat → Nat} {unset : Unset} {now : DateTime} {disk disk' : FatDisk}
  {dir dir' : Directory} {utf8 : List UInt8} {attr offset : Nat} {fcb : Fcb}
  {dots : Option (Fcb × Fcb)}

theorem asks_le {name : NewName} {turns numericBase size : Nat} {search : Search}
    (h : Intact disk dir) (hreq : search.freeRequired ≤ 672)
    (hasks : asks utftolower name dir turns numericBase search = some size) :
    dir.cacheSize < size ∧ size ≤ 2147483648 := by
  obtain ⟨-, hsize, hbound⟩ := asks_bound hasks
  have hlimit := h.limit
  have hentries : dir.entries.length ≤ dir.cacheSize / 32 := List.length_take_le _ _
  simp only [DIR_LIMIT] at hlimit
  omega

theorem create_made (h : Intact disk dir) (hw : dir.Whole)
    (hcreate : create utftolower unset now utf8 attr disk dir =
      some (.stream fcb offset dots, disk', dir')) :
    ∃ name o, Made unset utf8 attr dir dir' fcb offset name o := by
  obtain ⟨hdir, name, off, numericTrail, disk₁, dir₁, ent, hname, hslot, hoff, hat⟩ :=
    create_stream hcreate
  obtain ⟨hoffset, rfl, oem, hoem, hkeep⟩ := createAt_stream hat
  have hlen := newEntries_length name fcb
  have hreq : name.required % 32 = 0 := by omega
  have hreq' := newName_required hname
  obtain ⟨hfree, hfit⟩ := (findSlot_placed hreq hw.blank (.inl ⟨rfl, rfl⟩) hslot).resolve_left
    (by omega)
  have hspec := findSlot_spec hslot
  -- what the directory is in which the entries are written
  have hgrown : dir₁.cacheSize / 32 ≤ dir₁.records.length ∧
      (∀ (i : Nat) (e : Fcb), dir.entries[i]? = some e → dir₁.entries[i]? = some e) ∧
      (∀ (i : Nat) (e : Fcb), dir.entries[i]? = none → dir₁.entries[i]? = some e → e 0 = 0) := by
    cases hasks : asks utftolower name dir numericBases 1 ⟨name.required, DIR_LIMIT⟩ with
    | none =>
      rw [hasks] at hspec
      obtain ⟨-, -, rfl⟩ := hspec
      exact ⟨hw.room, fun i e he => he, fun i e hnone he => by rw [hnone] at he; cases he⟩
    | some size =>
      rw [hasks] at hspec
      obtain ⟨err, hset, hthrew⟩ := hspec
      cases err with
      | some e => cases (hthrew e).mpr rfl
      | none =>
        obtain ⟨hlt, hle⟩ := asks_le h hreq' hasks
        have hsize : size ≤ dir₁.stream.size := by
          rcases h.sized with hsized | ⟨hroot, hfat⟩
          · obtain ⟨⟨err', s, f⟩, hstream, hpair⟩ := Option.map_eq_some_iff.mp hset
            have hmono := roundSize_mono (f := dir.stream) h.usable.geometry hdir
              (Nat.le_of_lt hlt) hle
            rcases FatStream.setSize_ends h.usable (hsized ▸ hmono) hstream with
              ⟨rfl, -⟩ | ⟨rfl, -⟩ | ⟨rfl, hgot⟩
            · cases hpair
            · cases hpair
            · cases hpair
              exact hgot.size ▸ le_roundSize (f := dir.stream) h.usable.geometry hle
          · cases Directory.setSize_root hdir hroot hfat hset
        have hentries := Directory.setSize_entries hw.room h.ended (Nat.le_of_lt hlt) hset hsize
        exact hentries.2
  obtain ⟨hroom, hkept, hzero⟩ := hgrown
  have hput : Put dir.entries (dir₁.write off (newEntries name fcb)).entries (off / 32)
      (newEntries name fcb) := Put.of_write hfree hlen hroom hfit hkept hzero
  obtain ⟨hfirst, hattr⟩ := newFcb_spec hname hoem
  have hstart := hfree.start
  refine ⟨name, off / 32, hname, ?_, hput, ?_, ?_, ?_, ?_⟩
  · omega
  · show 32 * (off / 32) + name.required ≤ dir₁.cacheSize
    omega
  · show dir₁.cacheSize / 32 ≤ (dir₁.records.take (off / 32) ++ newEntries name fcb ++
      dir₁.records.drop (off / 32 + (newEntries name fcb).length)).length
    simp only [List.length_append, List.length_take, List.length_drop]
    omega
  · rw [hkeep 0 (by decide)]
    exact hfirst
  · rw [hkeep 11 (by decide)]
    exact hattr

end EsOs.Fat
