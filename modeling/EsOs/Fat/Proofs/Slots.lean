import EsOs.Fat.Proofs.Create

/-!
# The place of a new entry

The entries that the search takes for a new name are free ones of the directory, or are those that it
gets more. What is written there leaves the other entries as they are.
-/

namespace EsOs.Fat

open EsOs.Es

/-- Behind the end mark of a directory there are end marks only. -/
def Blank (entries : List Fcb) : Prop :=
  ∀ (i j : Nat) (e e' : Fcb), i ≤ j → entries[i]? = some e → e 0 = 0 → entries[j]? = some e' → e' 0 = 0

/-- The entries from byte `off` on for `size` bytes are free, as far as there are any. -/
structure FreeRange (entries : List Fcb) (off size : Nat) : Prop where
  start : off % 32 = 0
  whole : size % 32 = 0
  free : ∀ (i : Nat) (e : Fcb), off ≤ 32 * i → 32 * i < off + size → entries[i]? = some e →
    e.isFreeEntry = true

theorem isFreeEntry_of_zero {e : Fcb} (h : e 0 = 0) : e.isFreeEntry = true := by
  unfold Fcb.isFreeEntry
  rw [h]
  rfl

section Range

variable {pre rest : List Fcb} {free free' : FreeSlot} {freeRequired size : Nat} {ent : Fcb}

/-- A free entry joins the range before it, or starts a new one, or is left. -/
theorem FreeRange.see (h : FreeRange (pre ++ ent :: rest) free.freeOffset free.freeSize)
    (hent : ent.isFreeEntry = true) :
    FreeRange (pre ++ ent :: rest) (free.see freeRequired (32 * pre.length)).freeOffset
      (free.see freeRequired (32 * pre.length)).freeSize := by
  have hhere : ∀ (i : Nat) (e : Fcb), 32 * i = 32 * pre.length → (pre ++ ent :: rest)[i]? = some e →
      e.isFreeEntry = true := by
    intro i e hi he
    rw [show i = pre.length by omega, List.getElem?_append_right (Nat.le_refl _), Nat.sub_self,
      List.getElem?_cons_zero] at he
    cases he
    exact hent
  obtain ⟨hoff, hsize, hfree⟩ := h
  unfold FreeSlot.see
  split
  · rename_i hjoin
    refine ⟨hoff, by simp only; omega, fun i e hlow hhigh he => ?_⟩
    simp only at hlow hhigh
    by_cases hi : 32 * i = 32 * pre.length
    · exact hhere i e hi he
    · exact hfree i e hlow (by omega) he
  · split
    · refine ⟨by simp only; omega, Nat.mod_self 32, fun i e hlow hhigh he => hhere i e ?_ he⟩
      simp only at hlow hhigh
      omega
    · exact ⟨hoff, hsize, hfree⟩

theorem FreeSlot.see_le {p : Nat} (hle : free.freeOffset + free.freeSize ≤ p) :
    (free.see freeRequired p).freeOffset + (free.see freeRequired p).freeSize ≤ p + 32 := by
  unfold FreeSlot.see
  split
  · simp only
    omega
  · split
    · exact Nat.le_refl _
    · omega

/-- At the end of the entries, the range is made long enough by what is behind them. -/
theorem FreeRange.extend {entries : List Fcb} {p : Nat} (h : FreeRange entries free.freeOffset free.freeSize)
    (hreq : freeRequired % 32 = 0) (hp : p % 32 = 0) (hle : free.freeOffset + free.freeSize ≤ p)
    (hend : ∀ (i : Nat) (e : Fcb), p ≤ 32 * i → entries[i]? = some e → e.isFreeEntry = true) (hpsize : p ≤ size) :
    FreeRange entries (free.extend freeRequired p size).1.freeOffset
        (free.extend freeRequired p size).1.freeSize ∧
      (free.extend freeRequired p size).1.freeOffset +
        (free.extend freeRequired p size).1.freeSize ≤
          (free.extend freeRequired p size).2.getD size := by
  obtain ⟨hoff, hsize, hfree⟩ := h
  unfold FreeSlot.extend
  split
  · simp only
    split
    · rename_i hgap
      refine ⟨⟨hp, hreq, fun i e hlow _ he => hend i e hlow he⟩, ?_⟩
      split
      · exact Nat.le_refl _
      · simp only [Option.getD_none]
        omega
    · rename_i hjoin
      refine ⟨⟨hoff, hreq, fun i e hlow _ he => ?_⟩, ?_⟩
      · by_cases hi : p ≤ 32 * i
        · exact hend i e hi he
        · exact hfree i e hlow (by omega) he
      · split
        · exact Nat.le_refl _
        · simp only [Option.getD_none]
          omega
  · exact ⟨⟨hoff, hsize, hfree⟩, by simp only [Option.getD_none]; omega⟩

/-- What `findNext` reports is free. -/
def Next.Reports (entries : List Fcb) (size : Nat) : Next → Prop
  | .found _ _ _ free => FreeRange entries free.freeOffset free.freeSize ∧
      free.freeOffset + free.freeSize ≤ size
  | .missing free asked => FreeRange entries free.freeOffset free.freeSize ∧
      free.freeOffset + free.freeSize ≤ asked.getD size

theorem findNextLoop_reports (hreq : freeRequired % 32 = 0) {entries : List Fcb}
    (hblank : Blank entries) (hsize : 32 * entries.length ≤ size) {d : Decoder} {next : Next}
    (hentries : entries = pre ++ rest)
    (hfree : FreeRange entries free.freeOffset free.freeSize)
    (hle : free.freeOffset + free.freeSize ≤ 32 * pre.length)
    (h : FatStream.findNextLoop size freeRequired d free (32 * pre.length) rest = some next) :
    next.Reports entries size := by
  induction rest generalizing pre free d with
  | nil =>
    rw [List.append_nil] at hentries
    cases h
    refine hfree.extend hreq (by omega) hle (fun i e hi he => ?_) (hentries ▸ hsize)
    rw [hentries, List.getElem?_eq_none (by omega)] at he
    cases he
  | cons ent rest ih =>
    have hnext : entries = (pre ++ [ent]) ++ rest := by rw [hentries, List.append_assoc]; rfl
    have hlen : 32 * (pre ++ [ent]).length = 32 * pre.length + 32 := by
      rw [List.length_append, List.length_singleton]
      omega
    have hon : ∀ {d f}, FreeRange entries f.freeOffset f.freeSize →
        f.freeOffset + f.freeSize ≤ 32 * pre.length + 32 →
        FatStream.findNextLoop size freeRequired d f (32 * pre.length + 32) rest = some next →
        next.Reports entries size := fun hf hfle hloop =>
      ih hnext hf (hlen ▸ hfle) (hlen ▸ hloop)
    rw [FatStream.findNextLoop] at h
    simp only [Nat.add_sub_cancel] at h
    split at h
    · rename_i hent
      have hsee : FreeRange entries (free.see freeRequired (32 * pre.length)).freeOffset
          (free.see freeRequired (32 * pre.length)).freeSize := by
        rw [hentries] at hfree ⊢
        exact hfree.see hent
      have hseele : (free.see freeRequired (32 * pre.length)).freeOffset +
          (free.see freeRequired (32 * pre.length)).freeSize ≤ 32 * pre.length + 32 :=
        FreeSlot.see_le hle
      split at h
      · rename_i hzero
        cases h
        refine hsee.extend hreq (by omega) hseele (fun i e hi he => ?_) ?_
        · refine isFreeEntry_of_zero (hblank pre.length i ent e (by omega) ?_ hzero he)
          rw [hentries, List.getElem?_append_right (Nat.le_refl _), Nat.sub_self,
            List.getElem?_cons_zero]
        · rw [hentries, List.length_append, List.length_cons] at hsize
          omega
      · exact hon hsee hseele h
    · split at h
      · obtain ⟨d', -, h⟩ := Option.bind_eq_some_iff.mp h
        exact hon hfree (by omega) h
      · split at h
        · have hfound : FreeRange entries free.freeOffset free.freeSize ∧
              free.freeOffset + free.freeSize ≤ size := by
            rw [hentries, List.length_append, List.length_cons] at hsize
            exact ⟨hfree, by omega⟩
          split at h
          · obtain ⟨name, -, h⟩ := Option.bind_eq_some_iff.mp h
            cases h
            exact hfound
          · cases h
            exact hfound
        · exact hon hfree (by omega) h

/-- The same for a call of `findNext`. -/
theorem findNext_reports {entries : List Fcb} {pos : Nat} {next : Next}
    (hreq : freeRequired % 32 = 0) (hblank : Blank entries) (hsize : 32 * entries.length ≤ size)
    (hpos : pos % 32 = 0) (hle : pos ≤ 32 * entries.length)
    (h : FatStream.findNext size freeRequired pos (entries.drop (pos / 32)) = some next) :
    next.Reports entries size := by
  have hlen : 32 * (entries.take (pos / 32)).length = pos := by
    rw [List.length_take_of_le (by omega)]
    omega
  unfold FatStream.findNext at h
  nth_rewrite 1 [← hlen] at h
  refine findNextLoop_reports hreq hblank hsize (List.take_append_drop (pos / 32) entries).symm
    ⟨rfl, rfl, ?_⟩ (Nat.zero_le _) h
  intro i e _ hi
  simp only at hi
  omega

end Range

/-! ## The search -/

section Search

variable {utftolower : Nat → Nat} {name : NewName} {numericBase numericMap req : Nat}
  {search search' : Search} {entries : List Fcb} {dir dir' : Directory} {disk disk' : FatDisk}

/-- The search has its place in a directory of `size` bytes. -/
def Search.Placed (entries : List Fcb) (req size : Nat) (search : Search) : Prop :=
  search.freeRequired = 0 ∧ FreeRange entries search.off req ∧ search.off + req ≤ size

/-- The search looks for its place still, or has it. -/
def Search.Looks (entries : List Fcb) (req size : Nat) (search : Search) : Prop :=
  (search.freeRequired = req ∧ search.off = DIR_LIMIT) ∨ search.Placed entries req size

theorem Search.take_done (hdone : search.freeRequired = 0) (free : FreeSlot) :
    search.take free = search := by
  unfold Search.take
  rw [hdone]
  exact if_neg fun hx => absurd hx.1 (Nat.lt_irrefl 0)

/-- Enough free entries are the place that the search was looking for. -/
theorem Search.Looks.take {free : FreeSlot} {size size' : Nat} (h : search.Looks entries req size)
    (hreq : req % 32 = 0) (hfree : FreeRange entries free.freeOffset free.freeSize)
    (hle : free.freeOffset + free.freeSize ≤ size') (hsize : size ≤ size') :
    (search.take free).Looks entries req size' := by
  rcases h with ⟨hsearch, hoff⟩ | ⟨hdone, hrange, hfit⟩
  · unfold Search.take
    split
    · rename_i henough
      rw [hsearch] at henough
      refine .inr ⟨rfl, ⟨hfree.start, hreq, fun i e hlow hhigh he => ?_⟩, ?_⟩
      · exact hfree.free i e hlow (Nat.lt_of_lt_of_le hhigh (Nat.add_le_add_left henough.2 _)) he
      · exact Nat.le_trans (Nat.add_le_add_left henough.2 _) hle
    · exact .inl ⟨hsearch, hoff⟩
  · rw [Search.take_done hdone]
    exact .inr ⟨hdone, hrange, Nat.le_trans hfit hsize⟩

theorem passLoop_looks {size fuel pos map : Nat} {asked : Option Nat} (hreq : req % 32 = 0)
    (hblank : Blank entries) (hsize : 32 * entries.length ≤ size) (hpos : pos % 32 = 0)
    (hle : pos ≤ 32 * entries.length) (hsearch : search.Looks entries req size)
    (h : passLoop utftolower name numericBase size entries fuel pos search map =
      some (.ended search' numericMap asked)) : search'.Looks entries req (asked.getD size) := by
  induction fuel generalizing pos search map with
  | zero => cases h
  | succ fuel ih =>
    have hrem : search.freeRequired % 32 = 0 := by
      rcases hsearch with ⟨heq, -⟩ | ⟨heq, -⟩ <;> omega
    rw [passLoop] at h
    split at h
    · cases h
    · rename_i free asked' hnext
      have hgrows : ∀ m, asked' = some m → size < m := by
        rintro m rfl
        exact (FatStream.findNextLoop_asks hnext).2.2.1
      obtain ⟨hfree, hfit⟩ := findNext_reports hrem hblank hsize hpos hle hnext
      cases h
      refine hsearch.take hreq hfree hfit ?_
      cases asked with
      | none => exact Nat.le_refl _
      | some m => exact Nat.le_of_lt (hgrows m rfl)
    · rename_i ent longName pos' free hnext
      obtain ⟨hpos', hle'⟩ := FatStream.findNext_found hpos hle hnext
      obtain ⟨hfree, hfit⟩ := findNext_reports hrem hblank hsize hpos hle hnext
      have htake := hsearch.take hreq hfree hfit (Nat.le_refl _)
      simp only at h
      split at h
      · cases h
      · split at h
        · split at h
          · cases h
          · split at h
            · cases h
              exact htake
            · exact ih hpos' hle' htake h
        · exact ih hpos' hle' htake h

/-- A search that has its place leaves it. -/
theorem passLoop_done {size fuel pos map : Nat} {asked : Option Nat}
    (hdone : search.freeRequired = 0)
    (h : passLoop utftolower name numericBase size entries fuel pos search map =
      some (.ended search' numericMap asked)) : search' = search := by
  induction fuel generalizing pos map with
  | zero => cases h
  | succ fuel ih =>
    rw [passLoop] at h
    simp only [Search.take_done hdone] at h
    split at h
    · cases h
    · cases h
      rfl
    · split at h
      · cases h
      · split at h
        · split at h
          · cases h
          · split at h
            · cases h
              rfl
            · exact ih h
        · exact ih h

theorem findSlot_done {fuel off numericTrail : Nat} (hdone : search.freeRequired = 0)
    (h : findSlot utftolower name fuel numericBase search numericMap disk dir =
      some (.found off numericTrail, disk', dir')) : off = search.off ∧ dir' = dir := by
  induction fuel generalizing numericBase numericMap search disk dir with
  | zero =>
    cases h
    exact ⟨rfl, rfl⟩
  | succ fuel ih =>
    rw [findSlot] at h
    split at h
    · cases h
    · cases h
    · rename_i search₁ map asked hpass
      obtain rfl := passLoop_done hdone hpass
      cases asked with
      | some m => exact absurd hdone (pass_asks hpass).2.1
      | none =>
        simp only at h
        split at h
        · cases h
          exact ⟨rfl, rfl⟩
        · exact ih hdone h

/-- The place that the search comes to: none, or free entries, for which the directory has room. -/
theorem findSlot_placed {fuel off numericTrail : Nat} (hreq : req % 32 = 0)
    (hblank : Blank dir.entries) (hsearch : search.Looks dir.entries req dir.cacheSize)
    (h : findSlot utftolower name fuel numericBase search numericMap disk dir =
      some (.found off numericTrail, disk', dir')) :
    off = DIR_LIMIT ∨ (FreeRange dir.entries off req ∧ off + req ≤ dir'.cacheSize) := by
  have hsize : 32 * dir.entries.length ≤ dir.cacheSize := by
    have : dir.entries.length ≤ dir.cacheSize / 32 := List.length_take_le _ _
    omega
  have hplace : ∀ {search : Search} {size}, search.Looks dir.entries req size →
      search.off = DIR_LIMIT ∨ (FreeRange dir.entries search.off req ∧ search.off + req ≤ size) :=
    fun hx => hx.imp And.right And.right
  induction fuel generalizing numericBase numericMap search with
  | zero =>
    cases h
    exact hplace hsearch
  | succ fuel ih =>
    rw [findSlot] at h
    split at h
    · cases h
    · cases h
    · rename_i search₁ map asked hpass
      have hlooks := passLoop_looks hreq hblank hsize rfl (Nat.zero_le _) hsearch hpass
      cases asked with
      | none =>
        simp only at h
        split at h
        · cases h
          exact hplace hlooks
        · exact ih hlooks h
      | some m =>
        obtain ⟨hdone, -⟩ := pass_asks hpass
        simp only at h
        split at h
        · cases h
        · cases h
        · rename_i disk₁ dir₁ hset
          obtain ⟨⟨err, s, f⟩, -, hpair⟩ := Option.map_eq_some_iff.mp hset
          have hcache : dir₁.cacheSize = m := by
            cases err with
            | none =>
              cases hpair
              rfl
            | some e => cases hpair
          split at h
          · cases h
            rw [hcache]
            exact hplace hlooks
          · obtain ⟨rfl, rfl⟩ := findSlot_done hdone h
            rw [hcache]
            exact hplace hlooks

end Search

/-! ## The entries that are written -/

/-- The clusters of a directory have the entries that the cache knows of, and behind the end mark
    there is nothing. -/
structure Directory.Whole (dir : Directory) : Prop where
  room : dir.cacheSize / 32 ≤ dir.records.length
  blank : Blank dir.entries

/-- The entries `put` were written from entry `o` on, over free ones and behind the end, and there
    may be more zero entries at the end. -/
structure Put (old new : List Fcb) (o : Nat) (put : List Fcb) : Prop where
  free : ∀ (i : Nat) (e : Fcb), o ≤ i → i < o + put.length → old[i]? = some e →
    e.isFreeEntry = true
  inside : ∀ i < put.length, new[o + i]? = put[i]?
  kept : ∀ (i : Nat) (e : Fcb), i < o ∨ o + put.length ≤ i → old[i]? = some e → new[i]? = some e
  zero : ∀ (i : Nat) (e : Fcb), i < o ∨ o + put.length ≤ i → old[i]? = none → new[i]? = some e →
    e 0 = 0

section Write

variable {dir dir' : Directory} {disk disk' : FatDisk} {new : List Fcb} {o off : Nat}

theorem Directory.entries_length (h : dir.cacheSize / 32 ≤ dir.records.length) :
    dir.entries.length = dir.cacheSize / 32 :=
  List.length_take_of_le h

/-- Writing inside of the directory replaces entries. -/
theorem Directory.write_entries (hroom : dir.cacheSize / 32 ≤ dir.records.length)
    (hfit : off / 32 + new.length ≤ dir.cacheSize / 32) (i : Nat) :
    (dir.write off new).entries[i]? =
      if off / 32 ≤ i ∧ i < off / 32 + new.length then new[i - off / 32]? else dir.entries[i]? := by
  have hlen : (dir.records.take (off / 32)).length = off / 32 := List.length_take_of_le (by omega)
  show ((dir.records.take (off / 32) ++ new ++
    dir.records.drop (off / 32 + new.length)).take (dir.cacheSize / 32))[i]? =
    if _ then _ else (dir.records.take (dir.cacheSize / 32))[i]?
  rw [List.getElem?_take, List.getElem?_take, List.append_assoc]
  by_cases hi : i < dir.cacheSize / 32
  · rw [if_pos hi, if_pos hi]
    split
    · rename_i hin
      rw [List.getElem?_append_right (by omega), hlen, List.getElem?_append_left (by omega)]
    · rename_i hout
      by_cases hlow : i < off / 32
      · rw [List.getElem?_append_left (by omega), List.getElem?_take, if_pos hlow]
      · rw [List.getElem?_append_right (by omega), List.getElem?_append_right (by omega), hlen,
          List.getElem?_drop]
        congr 1
        omega
  · rw [if_neg hi, if_neg hi, if_neg (by omega)]

/-- What `setSize` does to the entries of a directory that gets larger. -/
theorem Directory.setSize_entries (hroom : dir.cacheSize / 32 ≤ dir.records.length)
    (hended : ∀ ent ∈ dir.records.drop (dir.cacheSize / 32), ent 0 = 0) {size : Nat}
    (hsize : dir.cacheSize ≤ size)
    (hset : dir.setSize disk size = some (none, disk', dir'))
    (hle : size ≤ dir'.stream.size) :
    dir'.cacheSize = size ∧ dir'.cacheSize / 32 ≤ dir'.records.length ∧
      (∀ (i : Nat) (e : Fcb), dir.entries[i]? = some e → dir'.entries[i]? = some e) ∧
      (∀ (i : Nat) (e : Fcb), dir.entries[i]? = none → dir'.entries[i]? = some e → e 0 = 0) := by
  obtain ⟨⟨err, s, f⟩, -, hpair⟩ := Option.map_eq_some_iff.mp hset
  cases err with
  | some e => cases hpair
  | none =>
    cases hpair
    have hdiv : dir.cacheSize / 32 ≤ size / 32 := Nat.div_le_div_right hsize
    have hle : size / 32 ≤ f.size / 32 := Nat.div_le_div_right hle
    refine ⟨rfl, ?_, fun i e he => ?_, fun i e hnone he => ?_⟩
    · simp only [List.length_append, List.length_replicate]
      omega
    · have hi : i < dir.cacheSize / 32 := by
        have := (List.getElem?_eq_some_iff.mp he).1
        rwa [Directory.entries_length hroom] at this
      unfold Directory.entries at he ⊢
      rw [List.getElem?_take, if_pos hi] at he
      rw [List.getElem?_take, if_pos (by simp only; omega), List.getElem?_append_left (by omega)]
      exact he
    · have hi : dir.cacheSize / 32 ≤ i := by
        rw [← Directory.entries_length hroom]
        exact List.getElem?_eq_none_iff.mp hnone
      unfold Directory.entries at he
      rw [List.getElem?_take] at he
      split at he
      · by_cases hin : i < dir.records.length
        · rw [List.getElem?_append_left hin] at he
          refine hended e (List.mem_of_getElem? (i := i - dir.cacheSize / 32) ?_)
          rw [List.getElem?_drop, Nat.add_sub_cancel' hi]
          exact he
        · rw [List.getElem?_append_right (by omega)] at he
          obtain rfl := List.eq_of_mem_replicate (List.mem_of_getElem? he)
          rfl
      · cases he

/-- The entries of a new name are put in the place that the search has found. -/
theorem Put.of_write {dir₁ : Directory} {req : Nat} (hfree : FreeRange dir.entries off req)
    (hlen : 32 * new.length = req) (hroom : dir₁.cacheSize / 32 ≤ dir₁.records.length)
    (hfit : off + req ≤ dir₁.cacheSize)
    (hkept : ∀ (i : Nat) (e : Fcb), dir.entries[i]? = some e → dir₁.entries[i]? = some e)
    (hzero : ∀ (i : Nat) (e : Fcb), dir.entries[i]? = none → dir₁.entries[i]? = some e → e 0 = 0) :
    Put dir.entries (dir₁.write off new).entries (off / 32) new := by
  have hstart := hfree.start
  have hwrite : ∀ i, (dir₁.write off new).entries[i]? =
      if off / 32 ≤ i ∧ i < off / 32 + new.length then new[i - off / 32]? else dir₁.entries[i]? :=
    Directory.write_entries hroom (by omega)
  refine ⟨fun i e hlow hhigh he => hfree.free i e (by omega) (by omega) he, fun i hi => ?_,
    fun i e hout he => ?_, fun i e hout hnone he => ?_⟩
  · rw [hwrite, if_pos (by omega), Nat.add_sub_cancel_left]
  · rw [hwrite, if_neg (by omega)]
    exact hkept i e he
  · rw [hwrite, if_neg (by omega)] at he
    exact hzero i e hnone he

/-- How far `create` comes when it returns a stream. -/
theorem create_stream {utftolower : Nat → Nat} {unset : Unset} {now : DateTime} {utf8 : List UInt8}
    {attr offset : Nat} {fcb : Fcb} {dots : Option (Fcb × Fcb)}
    (h : create utftolower unset now utf8 attr disk dir =
      some (.stream fcb offset dots, disk', dir')) :
    dir.stream.isDirectory = true ∧ ∃ name off numericTrail disk₁ dir₁ ent,
      newName unset utf8 = some (.ok name) ∧
      findSlot utftolower name numericBases 1 ⟨name.required, DIR_LIMIT⟩ 0 disk dir =
        some (.found off numericTrail, disk₁, dir₁) ∧ off < DIR_LIMIT ∧
      createAt name attr now ent off numericTrail disk₁ dir₁ =
        some (.stream fcb offset dots, disk', dir') := by
  unfold create at h
  split at h
  · cases h
  rename_i hdir
  split at h
  · cases h
  · cases h
  · rename_i name hname
    split at h
    · cases h
    · cases h
    · cases h
    · rename_i off numericTrail disk₁ dir₁ hslot
      split at h
      · cases h
      · rename_i hoff
        exact ⟨by simpa using hdir, name, off, numericTrail, disk₁, dir₁, _, hname, hslot,
          Nat.not_le.mp hoff, h⟩

theorem ofStream_of_apart (fcb : Fcb) (grown : Bool) (f : FatStream) {i : Nat} (hi : i < 20) :
    fcb.ofStream grown f i = fcb i := by
  unfold Fcb.ofStream
  split
  · simp only [DIR_FstClusLO, DIR_FstClusHI, DIR_FileSize]
    rw [Disk.xdword_of_ne (by omega), Disk.xword_of_ne (by omega), Disk.xword_of_ne (by omega)]
  · rfl

theorem setFstClus_of_apart (fcb : Fcb) (clus : Nat) {i : Nat} (hi : i < 20) :
    fcb.setFstClus clus i = fcb i := by
  unfold Fcb.setFstClus
  simp only [DIR_FstClusLO, DIR_FstClusHI]
  rw [Disk.xword_of_ne (by omega), Disk.xword_of_ne (by omega)]

/-- The entry of a new directory has the first bytes that it had. -/
theorem writeDots_name {parent : FatStream} {fcb ent fcb' dot dotdot : Fcb}
    (h : writeDots disk parent fcb ent = some (.ok (fcb', dot, dotdot), disk')) {i : Nat}
    (hi : i < 20) : fcb' i = fcb i := by
  unfold writeDots at h
  simp only at h
  split at h
  · cases h
  · cases h
  · split at h
    · cases h
    · cases h
    · cases h
      rw [ofStream_of_apart _ _ _ hi, ofStream_of_apart _ _ _ hi]

/-- What `create` writes, and where. -/
theorem createAt_stream {name : NewName} {attr off numericTrail offset : Nat} {now : DateTime}
    {ent fcb : Fcb} {dots : Option (Fcb × Fcb)}
    (h : createAt name attr now ent off numericTrail disk dir =
      some (.stream fcb offset dots, disk', dir')) :
    offset = off + name.required - 32 ∧ dir' = dir.write off (newEntries name fcb) ∧
      ∃ oem, newFcb name attr numericTrail = some oem ∧ ∀ i < 13, fcb i = oem i := by
  unfold createAt at h
  split at h
  · cases h
  rename_i oem hoem
  have hname : ∀ (clus : Nat), ∀ i < 13, (oem.setFstClus clus).setTimes now i = oem i :=
    fun clus i hi => by rw [setTimes_of_apart _ _ (.inl hi), setFstClus_of_apart _ _ (by omega)]
  split at h
  · cases h
    exact ⟨rfl, rfl, oem, hoem, hname 0⟩
  · split at h
    · cases h
    · rename_i clus s halloc
      simp only at h
      split at h
      · cases h
      · cases h
      · rename_i hdots
        cases h
        refine ⟨rfl, rfl, oem, hoem, fun i hi => ?_⟩
        rw [writeDots_name hdots (by omega), hname clus i hi]

end Write

end EsOs.Fat
