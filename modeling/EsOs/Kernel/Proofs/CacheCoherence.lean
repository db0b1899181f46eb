import Mathlib
import EsOs.Kernel.Proofs.Interference
import EsOs.Kernel.Proofs.PageData

/-!
# Coherence of a cache

Between the operations of a cache each byte that is defined is in the backing stream or in a marked
sector of a changed page, and a filled page agrees with it. The operations keep this, whatever
others do while the cache waits for a page.
-/

namespace EsOs.Kernel

open PageTable

namespace CacheState

variable {hash : HashCode} {managed : List Nat} {s : CacheState} {p : Nat}
  {content : Int → Option UInt8}

/-- A page of the cache that the page table finds. -/
def Own (hash : HashCode) (s : CacheState) (p : Nat) : Prop :=
  s.table.Registered hash p ∧ (s.table.pages p).cache = some s.number

/-- A byte in a marked sector of a changed page. -/
def Dirty (hash : HashCode) (s : CacheState) (p : Nat) (x : Int) : Prop :=
  s.Own hash p ∧ (s.table.pages p).changed = true ∧
    ∃ i : Nat, i < 4096 ∧ x = (s.table.pages p).offset + i ∧
      (s.table.pages p).map.testBit (i / 512) = true

/-- The bytes that are defined are where they should be. -/
structure Coherent (hash : HashCode) (managed : List Nat) (s : CacheState)
    (content : Int → Option UInt8) : Prop where
  inv : s.table.PageInv hash managed []
  map_lt : ∀ q, (s.table.pages q).map < 2 ^ 8
  sector : ∃ shift groups, s.sectorSize = 512 * shift ∧ shift * groups = 8
  changed_nodup : s.changedList.Nodup
  mem_changed : ∀ q, q ∈ s.changedList ↔ s.Own hash q ∧ (s.table.pages q).changed = true
  filled : ∀ q, s.Own hash q → (s.table.pages q).changed = true →
    (s.table.pages q).filled = true
  aligned : ∀ q, s.Own hash q → pageTrunc (s.table.pages q).offset = (s.table.pages q).offset
  page : ∀ q, s.Own hash q → (s.table.pages q).filled = true → ∀ i : Nat, i < 4096 →
    ∀ b, content ((s.table.pages q).offset + i) = some b → (s.table.pages q).data i = b
  store : ∀ x b, content x = some b →
    s.backingStore.data x = b ∨ ∃ q, s.Dirty hash q x
  bound : ∀ x b, content x = some b → x < s.backingStore.size

/-- What the operations on pages leave alone. The stream may only get longer. -/
structure SameCache (s s' : CacheState) : Prop where
  number : s'.number = s.number
  pageSet : s'.pageSet = s.pageSet
  size : s'.size = s.size
  sectorSize : s'.sectorSize = s.sectorSize
  size_le : s.backingStore.size ≤ s'.backingStore.size

/-- The references to pages change by `δ`, and no page changes its set. -/
structure Refs (s s' : CacheState) (δ : Nat → Int) : Prop where
  ref : ∀ q, (s'.table.pages q).ref = (s.table.pages q).ref + δ q
  pageSet : ∀ q, (s'.table.pages q).pageSet = (s.table.pages q).pageSet
  parent : ∀ m, (s'.table.sets m).parent = (s.table.sets m).parent

/-- A page of the cache that an operation has a reference to. -/
structure Got (hash : HashCode) (s : CacheState) (p : Nat) : Prop where
  own : s.Own hash p
  ref_pos : 0 < (s.table.pages p).ref
  ref_of_changed : (s.table.pages p).changed = true → 1 < (s.table.pages p).ref

theorem SameCache.refl (s : CacheState) : s.SameCache s :=
  ⟨rfl, rfl, rfl, rfl, Int.le_refl _⟩

theorem SameCache.table (s : CacheState) (t : PageTable) : s.SameCache { s with table := t } :=
  ⟨rfl, rfl, rfl, rfl, Int.le_refl _⟩

theorem SameCache.trans {s' s'' : CacheState} (h : s.SameCache s') (h' : s'.SameCache s'') :
    s.SameCache s'' :=
  ⟨h'.number.trans h.number, h'.pageSet.trans h.pageSet, h'.size.trans h.size,
    h'.sectorSize.trans h.sectorSize, Int.le_trans h.size_le h'.size_le⟩

/-- A change to one page of the cache, and to the bytes of its place. -/
structure PageStep (hash : HashCode) (s s' : CacheState) (p : Nat)
    (content content' : Int → Option UInt8) : Prop where
  number : s'.number = s.number
  sectorSize : s'.sectorSize = s.sectorSize
  other : ∀ q, q ≠ p → s'.table.pages q = s.table.pages q
  registered : ∀ q, s'.table.Registered hash q ↔ s.table.Registered hash q
  cache : (s'.table.pages p).cache = (s.table.pages p).cache
  offset : (s'.table.pages p).offset = (s.table.pages p).offset
  map_lt : (s'.table.pages p).map < 2 ^ 8
  changed_nodup : s'.changedList.Nodup
  mem_changed : ∀ q, q ∈ s'.changedList ↔
    if q = p then (s'.table.pages p).changed = true else q ∈ s.changedList
  filled : (s'.table.pages p).changed = true → (s'.table.pages p).filled = true
  elsewhere : ∀ x, (∀ i : Nat, i < 4096 → x ≠ (s.table.pages p).offset + i) →
    content' x = content x ∧ s'.backingStore.data x = s.backingStore.data x
  page : (s'.table.pages p).filled = true → ∀ i : Nat, i < 4096 → ∀ b,
    content' ((s.table.pages p).offset + i) = some b → (s'.table.pages p).data i = b
  store : ∀ i : Nat, i < 4096 → ∀ b, content' ((s.table.pages p).offset + i) = some b →
    s'.backingStore.data ((s.table.pages p).offset + i) = b ∨
      (s'.table.pages p).changed = true ∧ (s'.table.pages p).map.testBit (i / 512) = true
  bound : ∀ x b, content' x = some b → x < s'.backingStore.size

theorem Refs.trans {s' s'' : CacheState} {δ δ' : Nat → Int} (h : s.Refs s' δ)
    (h' : s'.Refs s'' δ') : s.Refs s'' fun q => δ q + δ' q :=
  ⟨fun q => by rw [h'.ref, h.ref, Int.add_assoc], fun q => (h'.pageSet q).trans (h.pageSet q),
    fun m => (h'.parent m).trans (h.parent m)⟩

theorem Refs.release (hfree : (s.table.pages p).free = false) :
    s.Refs (s.release p) fun q => if q = p then -1 else 0 := by
  refine ⟨fun q => ?_, fun q => ?_, fun m => (release_alive _ p m).2⟩
  · simp only [CacheState.release, release_pages hfree]
    split
    · rename_i hq
      rw [hq]
      rfl
    · rw [Int.add_zero]
  · simp only [CacheState.release, release_pages hfree]
    split
    · rename_i hq
      rw [hq]
    · rfl

namespace Coherent

/-- Two pages of the cache that have a place in common are one. -/
theorem eq_of_place (h : s.Coherent hash managed content) {q i j : Nat} (hp : s.Own hash p)
    (hq : s.Own hash q) (hi : i < 4096) (hj : j < 4096)
    (heq : (s.table.pages p).offset + i = (s.table.pages q).offset + j) : p = q := by
  have hap := h.aligned p hp
  have haq := h.aligned q hq
  unfold pageTrunc at hap haq
  exact h.inv.unique p q hp.1 hq.1 (hp.2.trans hq.2.symm) (by omega)

/-- A change of the table that keeps the pages of the cache. -/
theorem table (h : s.Coherent hash managed content) {t : PageTable}
    (hinv : t.PageInv hash managed []) (hkeeps : s.table.Keeps hash s.number t) :
    ({ s with table := t } : CacheState).Coherent hash managed content := by
  have hold : ∀ q, ({ s with table := t } : CacheState).Own hash q →
      s.Own hash q ∧ (t.pages q).content = (s.table.pages q).content ∨ (t.pages q).Fresh := by
    intro q hq
    refine (hkeeps.old q hq.1 hq.2).imp (fun hsame => ⟨⟨hsame.1, ?_⟩, hsame.2⟩) id
    rw [← Page.content_cache hsame.2]
    exact hq.2
  have hchanged : ∀ q, s.Own hash q → (s.table.pages q).changed = true →
      ({ s with table := t } : CacheState).Own hash q ∧
        (t.pages q).content = (s.table.pages q).content := by
    intro q hq hc
    obtain ⟨hreg, hcontent⟩ := hkeeps.changed q hq.1 hq.2 hc
    exact ⟨⟨hreg, (Page.content_cache hcontent).trans hq.2⟩, hcontent⟩
  refine ⟨hinv, hkeeps.map_lt h.map_lt, h.sector, h.changed_nodup, fun q => ?_,
    fun q hq hc => ?_, fun q hq => ?_, fun q hq hf i hi b hb => ?_, fun x b hb => ?_, h.bound⟩
  · rw [h.mem_changed]
    constructor
    · rintro ⟨hq, hc⟩
      obtain ⟨hown, hcontent⟩ := hchanged q hq hc
      exact ⟨hown, (Page.content_changed hcontent).trans hc⟩
    · rintro ⟨hq, hc⟩
      rcases hold q hq with ⟨hown, hcontent⟩ | hfresh
      · exact ⟨hown, (Page.content_changed hcontent).symm.trans hc⟩
      · exact absurd hc (by simp [hfresh.2.1])
  · rcases hold q hq with ⟨hown, hcontent⟩ | hfresh
    · exact (Page.content_filled hcontent).trans
        (h.filled q hown ((Page.content_changed hcontent).symm.trans hc))
    · exact absurd hc (by simp [hfresh.2.1])
  · rcases hold q hq with ⟨hown, hcontent⟩ | hfresh
    · show pageTrunc (t.pages q).offset = (t.pages q).offset
      rw [Page.content_offset hcontent]
      exact h.aligned q hown
    · exact hfresh.2.2
  · rcases hold q hq with ⟨hown, hcontent⟩ | hfresh
    · show (t.pages q).data i = b
      rw [Page.content_data hcontent]
      refine h.page q hown ((Page.content_filled hcontent).symm.trans hf) i hi b ?_
      rw [← Page.content_offset hcontent]
      exact hb
    · exact absurd hf (by simp [hfresh.1])
  · refine (h.store x b hb).imp id ?_
    rintro ⟨q, hq, hc, i, hi, hx, hbit⟩
    obtain ⟨hown, hcontent⟩ := hchanged q hq hc
    refine ⟨q, hown, (Page.content_changed hcontent).trans hc, i, hi, ?_, ?_⟩
    · rw [hx, ← Page.content_offset hcontent]
    · show (t.pages q).map.testBit (i / 512) = true
      rw [Page.content_map hcontent]
      exact hbit

theorem release (h : s.Coherent hash managed content) (hgot : s.Got hash p) :
    (s.release p).Coherent hash managed content :=
  have hinv := h.inv.release (h.inv.mem_of_registered hgot.own.1) (by simp) hgot.ref_pos
    hgot.ref_of_changed
  h.table hinv (.of_same (sameContent_release (h.inv.free_of_registered hgot.own.1)))

/-- The bytes of another page are elsewhere. -/
theorem place_ne (h : s.Coherent hash managed content) {q i : Nat} (hp : s.Own hash p)
    (hq : s.Own hash q) (hne : q ≠ p) (hi : i < 4096) :
    ∀ j : Nat, j < 4096 → (s.table.pages q).offset + i ≠ (s.table.pages p).offset + j :=
  fun _ hj heq => hne (h.eq_of_place hq hp hi hj heq)

theorem step {s' : CacheState} {content' : Int → Option UInt8}
    (h : s.Coherent hash managed content) (hown : s.Own hash p)
    (hinv : s'.table.PageInv hash managed []) (hstep : PageStep hash s s' p content content') :
    s'.Coherent hash managed content' := by
  have hcache : ∀ q, (s'.table.pages q).cache = (s.table.pages q).cache := by
    intro q
    by_cases hq : q = p
    · rw [hq, hstep.cache]
    · rw [hstep.other q hq]
  have hiff : ∀ q, s'.Own hash q ↔ s.Own hash q := by
    intro q
    rw [Own, Own, hstep.registered, hcache, hstep.number]
  refine ⟨hinv, fun q => ?_, ?_, hstep.changed_nodup, fun q => ?_, fun q hq hc => ?_,
    fun q hq => ?_, fun q hq hf i hi b hb => ?_, fun x b hb => ?_, hstep.bound⟩
  · by_cases hq : q = p
    · rw [hq]
      exact hstep.map_lt
    · rw [hstep.other q hq]
      exact h.map_lt q
  · rw [hstep.sectorSize]
    exact h.sector
  · rw [hstep.mem_changed, hiff]
    split
    · rename_i hq
      rw [hq]
      exact ⟨fun hc => ⟨hown, hc⟩, fun hc => hc.2⟩
    · rename_i hq
      rw [hstep.other q hq]
      exact h.mem_changed q
  · rw [hiff] at hq
    by_cases hqp : q = p
    · subst hqp
      exact hstep.filled hc
    · rw [hstep.other q hqp] at hc ⊢
      exact h.filled q hq hc
  · rw [hiff] at hq
    by_cases hqp : q = p
    · rw [hqp, hstep.offset]
      exact h.aligned p hown
    · rw [hstep.other q hqp]
      exact h.aligned q hq
  · rw [hiff] at hq
    by_cases hqp : q = p
    · subst hqp
      rw [hstep.offset] at hb
      exact hstep.page hf i hi b hb
    · rw [hstep.other q hqp] at hf hb ⊢
      rw [(hstep.elsewhere _ (h.place_ne hown hq hqp hi)).1] at hb
      exact h.page q hq hf i hi b hb
  · by_cases hin : ∃ i : Nat, i < 4096 ∧ x = (s.table.pages p).offset + i
    · obtain ⟨i, hi, rfl⟩ := hin
      refine (hstep.store i hi b hb).imp id fun hdirty => ?_
      exact ⟨p, (hiff p).2 hown, hdirty.1, i, hi, by rw [hstep.offset], hdirty.2⟩
    · have hout : ∀ i : Nat, i < 4096 → x ≠ (s.table.pages p).offset + i :=
        fun i hi heq => hin ⟨i, hi, heq⟩
      obtain ⟨hcontent, hdata⟩ := hstep.elsewhere x hout
      rw [hdata]
      refine (h.store x b (hcontent ▸ hb)).imp id ?_
      rintro ⟨q, hq, hc, i, hi, hx, hbit⟩
      have hqp : q ≠ p := by
        rintro rfl
        exact hout i hi hx
      refine ⟨q, (hiff q).2 hq, ?_, i, hi, ?_, ?_⟩
      · rw [hstep.other q hqp]
        exact hc
      · rw [hstep.other q hqp]
        exact hx
      · rw [hstep.other q hqp]
        exact hbit

/-- A page is filled. -/
theorem fill (h : s.Coherent hash managed content) (hown : s.Own hash p) :
    (s.updPage p fun page => (page.fill s.backingStore).1).Coherent hash managed content := by
  by_cases hfilled : (s.table.pages p).filled = true
  · have hsame : s.updPage p (fun page => (page.fill s.backingStore).1) = s := by
      rw [CacheState.updPage, updPage_eq_self]
      exact Page.fill_of_filled hfilled
    rw [hsame]
    exact h
  have hclean : (s.table.pages p).changed = false := by
    by_contra hc
    exact hfilled (h.filled p hown (by simpa using hc))
  have hfill := Page.fill_eq (s.table.pages p) s.backingStore
  have hheader : SameHeader (s.table.pages p) ((s.table.pages p).fill s.backingStore).1 := by
    rw [hfill]
    exact ⟨rfl, rfl, rfl, rfl, rfl, rfl⟩
  have hpage : ((s.updPage p fun page => (page.fill s.backingStore).1).table.pages p) =
      ((s.table.pages p).fill s.backingStore).1 := by
    simp [CacheState.updPage]
  -- no other page holds the byte, so the stream does
  have hstored : ∀ i : Nat, i < 4096 → ∀ b,
      content ((s.table.pages p).offset + i) = some b →
        s.backingStore.data ((s.table.pages p).offset + i) = b := by
    intro i hi b hb
    rcases h.store _ b hb with hdata | ⟨q, hq, hc, j, hj, hplace, -⟩
    · exact hdata
    · rw [h.eq_of_place hown hq hi hj hplace, hc] at hclean
      cases hclean
  refine h.step hown (h.inv.updData (f := fun page => (page.fill s.backingStore).1) hheader)
    ⟨rfl, rfl, fun q hq => by simp [CacheState.updPage, hq], fun q => registered_updPage_of_place
      (f := fun page => (page.fill s.backingStore).1) hheader.cache hheader.offset, ?_, ?_, ?_,
    h.changed_nodup, fun q => ?_, fun _ => ?_, fun x _ => ⟨rfl, rfl⟩, fun _ i hi b hb => ?_,
    fun i hi b hb => .inl (hstored i hi b hb), h.bound⟩
  · rw [hpage, hheader.cache]
  · rw [hpage, hheader.offset]
  · rw [hpage, hfill]
    exact h.map_lt p
  · rw [hpage, hheader.changed]
    split
    · rename_i hq
      rw [hq]
      exact (h.mem_changed p).trans ⟨fun hc => hc.2, fun hc => ⟨hown, hc⟩⟩
    · rfl
  · rw [hpage, hfill]
  · rw [hpage, Page.fill_data (by simpa using hfilled) hi (h.bound _ b hb)]
    exact hstored i hi b hb

theorem got_fill (hgot : s.Got hash p) :
    (s.updPage p fun page => (page.fill s.backingStore).1).Got hash p ∧
      ((s.updPage p fun page => (page.fill s.backingStore).1).table.pages p).filled = true ∧
      ((s.updPage p fun page => (page.fill s.backingStore).1).table.pages p).offset =
        (s.table.pages p).offset := by
  have hfill := Page.fill_eq (s.table.pages p) s.backingStore
  have hpage : ((s.updPage p fun page => (page.fill s.backingStore).1).table.pages p) =
      { s.table.pages p with
        data := ((s.table.pages p).fill s.backingStore).1.data, filled := true } := by
    simpa [CacheState.updPage] using hfill
  refine ⟨⟨⟨?_, ?_⟩, ?_, ?_⟩, ?_, ?_⟩
  · exact (registered_updPage_of_place (f := fun page => (page.fill s.backingStore).1)
      (by rw [hfill]) (by rw [hfill])).2 hgot.own.1
  · rw [hpage]
    exact hgot.own.2
  · rw [hpage]
    exact hgot.ref_pos
  · rw [hpage]
    exact hgot.ref_of_changed
  · rw [hpage]
  · rw [hpage]

/-- Bytes are written to a page that is filled or overwritten as a whole, and the page is marked as
    changed. -/
theorem write (h : s.Coherent hash managed content) (hgot : s.Got hash p) {src : List UInt8}
    {start : Nat} (hend : start + src.length ≤ 4096)
    (hfilled : (s.table.pages p).filled = true ∨ start = 0 ∧ src.length = 4096)
    (hsize : (s.table.pages p).offset + start + src.length ≤ s.backingStore.size) :
    ((s.updPage p fun page => { page.write src start with filled := true }).change p).Coherent hash
        managed (File.overwrite content src ((s.table.pages p).offset + start)) ∧
      ((s.updPage p fun page => { page.write src start with filled := true }).change p).Got
        hash p := by
  obtain ⟨hown, hpos, hone⟩ := hgot
  have hp := h.inv.mem_of_registered hown.1
  have hfree := h.inv.free_of_registered hown.1
  generalize hf : (fun page : Page => { page.write src start with filled := true }) = f
  have hheader : SameHeader (s.table.pages p) (f (s.table.pages p)) := by
    rw [← hf]
    exact ⟨rfl, rfl, rfl, rfl, rfl, rfl⟩
  have hinv := (h.inv.updData hheader).change hp (by simp) (by simpa [hheader.ref] using hpos)
  have hchange := change_eq (t := s.table.updPage p f) (p := p) (by simp [hheader.free, hfree])
  have hlist : ((s.updPage p f).change p).changedList =
      if (s.table.pages p).changed then s.changedList else addLast s.changedList p := by
    simp only [CacheState.change, CacheState.updPage, hchange, updPage_pages, if_pos,
      hheader.changed]
    cases (s.table.pages p).changed <;> rfl
  have hmem := h.mem_changed p
  rw [hchange] at hinv
  have hpage : ((s.updPage p f).change p).table.pages p = { f (s.table.pages p) with
      ref := (s.table.pages p).ref + if (s.table.pages p).changed then 0 else 1
      changed := true } := by
    simp [CacheState.change, CacheState.updPage, hchange, hheader.ref, hheader.changed]
  have hreg : ∀ q, ((s.updPage p f).change p).table.Registered hash q ↔
      s.table.Registered hash q := by
    intro q
    simp only [CacheState.change, CacheState.updPage, hchange]
    rw [registered_updPage_of_place rfl rfl,
      registered_updPage_of_place hheader.cache hheader.offset]
  refine ⟨h.step hown (by simpa [CacheState.change, CacheState.updPage, hchange] using hinv)
    ⟨rfl, rfl, fun q hq => ?_, hreg, ?_, ?_, ?_, ?_, fun q => ?_, fun _ => ?_,
    fun x hx => ⟨if_neg ?_, rfl⟩, fun _ i hi b hb => ?_, fun i hi b hb => ?_, fun x b hb => ?_⟩,
    ⟨(hreg p).2 hown.1, ?_⟩, ?_, fun _ => ?_⟩
  · simp [CacheState.change, CacheState.updPage, hchange, hq]
  · rw [hpage]
    exact hheader.cache
  · rw [hpage]
    exact hheader.offset
  · rw [hpage, ← hf]
    exact Page.write_map_lt (h.map_lt p) hend
  · rw [hlist]
    split
    · exact h.changed_nodup
    · rename_i hc
      exact nodup_addLast h.changed_nodup fun hin => hc (hmem.1 hin).2
  · rw [hlist, hpage]
    split
    · rename_i hc
      split
      · rename_i hq
        rw [hq, hmem]
        exact iff_of_true ⟨hown, hc⟩ rfl
      · rfl
    · rename_i hc
      rw [addLast_of_not_mem fun hin => hc (hmem.1 hin).2, List.mem_append, List.mem_singleton]
      split
      · rename_i hq
        exact iff_of_true (.inr hq) rfl
      · rename_i hq
        simp [hq]
  · rw [hpage, ← hf]
  · rintro ⟨hle, hlt⟩
    exact hx (x - (s.table.pages p).offset).toNat (by omega) (by omega)
  · rw [hpage, ← hf]
    simp only [Page.write]
    unfold File.overwrite at hb
    split at hb
    · rename_i hin
      rw [show ((s.table.pages p).offset + i - ((s.table.pages p).offset + start)).toNat =
        i - start by omega] at hb
      rw [if_pos (by omega), List.getD_eq_getElem?_getD, hb]
      rfl
    · rename_i hout
      rw [if_neg (by omega)]
      exact h.page p hown (hfilled.resolve_right (by omega)) i hi b hb
  · rw [hpage, ← hf]
    unfold File.overwrite at hb
    split at hb
    · exact .inr ⟨rfl, Page.write_map_new (by omega) (by omega)⟩
    · refine (h.store _ b hb).imp id ?_
      rintro ⟨q, hq, -, j, hj, hplace, hbit⟩
      obtain rfl := h.eq_of_place hown hq hi hj hplace
      obtain rfl : i = j := by omega
      exact ⟨rfl, Page.write_map_old hbit⟩
  · unfold File.overwrite at hb
    split at hb
    · exact Int.lt_of_lt_of_le (by omega) hsize
    · exact h.bound x b hb
  · rw [hpage]
    exact hheader.cache.trans hown.2
  · rw [hpage]
    dsimp only
    split <;> omega
  · rw [hpage]
    dsimp only
    split
    · rename_i hc
      exact Int.lt_of_lt_of_le (hone hc) (by omega)
    · omega

/-- A changed page is written back. -/
theorem sync (h : s.Coherent hash managed content) (hgot : s.Got hash p)
    (hchanged : (s.table.pages p).changed = true) :
    (s.sync p).1.Coherent hash managed content ∧ s.SameCache (s.sync p).1 ∧
      (s.sync p).1.Got hash p ∧ (s.sync p).1.changedList = s.changedList.erase p ∧
      s.Refs (s.sync p).1 fun q => if q = p then -1 else 0 := by
  obtain ⟨hown, hpos, hone⟩ := hgot
  have hp := h.inv.mem_of_registered hown.1
  obtain ⟨shift, groups, hsector, hgroups⟩ := h.sector
  have hclean : s.table.clean p = (s.table.updPage p fun page =>
      { page with ref := page.ref - 1, changed := false }, true) := by
    refine Prod.ext ?_ (by simp [PageTable.clean, hchanged])
    rw [clean_eq hone, if_pos hchanged]
  have hinv := h.inv.clean hp (by simp) hone
  rw [hclean] at hinv
  have hinv' := hinv.updData (p := p) (f := fun page => { page with map := 0 })
    ⟨rfl, rfl, rfl, rfl, rfl, rfl⟩
  rw [updPage_updPage] at hinv'
  generalize hf : (fun page : Page => { page with
    ref := page.ref - 1, changed := false, map := 0 }) = f at hinv'
  have hpage : f (s.table.pages p) = { s.table.pages p with
    ref := (s.table.pages p).ref - 1, changed := false, map := 0 } := by rw [← hf]
  have hback := Page.syncLoop_spec (f (s.table.pages p)) 64 hgroups 0 s.backingStore (h.map_lt p)
    (by simp) (by omega)
  have hsync : (s.sync p).1 = { s with
      table := s.table.updPage p f
      changedList := s.changedList.erase p
      backingStore := ((f (s.table.pages p)).syncLoop (512 * shift) shift 64 (s.table.pages p).map
        (Page.maskOf shift 0) (0 * (512 * shift)) s.backingStore).1 } := by
    simp only [CacheState.sync, CacheState.clean, hclean, CacheState.updPage, updPage_updPage, hf,
      updPage_pages, if_pos, hsector]
    simp [Page.maskOf]
  have hpages : ∀ q, q ≠ p → (s.table.updPage p f).pages q = s.table.pages q :=
    fun q hq => by simp [hq]
  have hself : (s.table.updPage p f).pages p = f (s.table.pages p) := by simp
  have hreg : ∀ q, (s.table.updPage p f).Registered hash q ↔ s.table.Registered hash q :=
    fun q => registered_updPage_of_place (by rw [hpage]) (by rw [hpage])
  rw [hsync]
  refine ⟨h.step hown hinv' ⟨rfl, rfl, hpages, hreg, ?_, ?_, ?_, h.changed_nodup.erase p,
      fun q => ?_, fun hc => ?_, fun x hx => ⟨rfl, ?_⟩, fun hfilled i hi b hb => ?_,
      fun i hi b hb => .inl ?_, fun x b hb => ?_⟩,
    ⟨rfl, rfl, rfl, rfl, hback.size_le⟩, ⟨⟨(hreg p).2 hown.1, ?_⟩, ?_, fun hc => ?_⟩, rfl,
    fun q => ?_, fun q => ?_, fun _ => rfl⟩
  · rw [hself, hpage]
  · rw [hself, hpage]
  · rw [hself, hpage]
    exact Nat.two_pow_pos 8
  · rw [hself, hpage, h.changed_nodup.mem_erase_iff]
    split
    · rename_i hq
      simp [hq]
    · rename_i hq
      simp [hq]
  · rw [hself, hpage] at hc
    cases hc
  · refine hback.other x fun i hi _ => ?_
    rw [hpage]
    exact hx i hi
  · rw [hself, hpage] at hfilled ⊢
    exact h.page p hown hfilled i hi b hb
  · have hdata := h.page p hown (h.filled p hown hchanged) i hi b hb
    by_cases hm : Page.Marked shift (s.table.pages p).map (i / (512 * shift))
    · have hwritten := hback.written i hm hi
      rw [hpage] at hwritten ⊢
      exact hwritten.trans hdata
    · rw [hback.other]
      · refine (h.store _ b hb).resolve_right ?_
        rintro ⟨q, hq, -, j, hj, hplace, hbit⟩
        obtain rfl := h.eq_of_place hown hq hi hj hplace
        obtain rfl : i = j := by omega
        have hshift : 0 < shift := Nat.pos_of_ne_zero fun hz => by simp [hz] at hgroups
        have hmarked := Page.marked_of_testBit hshift hbit
        rw [Nat.div_div_eq_div_mul] at hmarked
        exact hm hmarked
      · intro k _ hk heq
        rw [hpage] at heq
        obtain rfl : i = k := by dsimp only at heq; omega
        exact hm hk
  · exact Int.lt_of_lt_of_le (h.bound x b hb) hback.size_le
  · rw [hself, hpage]
    exact hown.2
  · rw [hself, hpage]
    have := hone hchanged
    dsimp only
    omega
  · rw [hself, hpage] at hc
    cases hc
  · rw [updPage_pages, hpage]
    split
    · rename_i hq
      rw [hq]
      rfl
    · rw [Int.add_zero]
  · rw [updPage_pages, hpage]
    split
    · rename_i hq
      rw [hq]
    · rfl

/-- One turn of a flush. -/
theorem syncPage (h : s.Coherent hash managed content) (hmem : p ∈ s.changedList) :
    (s.syncPage p).Coherent hash managed content ∧ s.SameCache (s.syncPage p) ∧
      (s.syncPage p).changedList = s.changedList.erase p ∧
      s.Refs (s.syncPage p) fun q => if q = p then -1 else 0 := by
  obtain ⟨hown, hchanged⟩ := (h.mem_changed p).1 hmem
  have hp := h.inv.mem_of_registered hown.1
  have hpos := h.inv.changed p hp (by simp) hchanged
  have hsame := sameContent_addRef s.table p
  have hadd := h.table (h.inv.addRef hp (by simp) hpos) (.of_same hsame)
  have hgot : ({ s with table := s.table.addRef p } : CacheState).Got hash p := by
    refine ⟨⟨(hsame.registered p).2 hown.1, (hsame.cache p).trans hown.2⟩, ?_, fun _ => ?_⟩
    · show 0 < ((s.table.addRef p).pages p).ref
      rw [PageTable.addRef, updPage_pages, if_pos rfl]
      dsimp only
      omega
    · show 1 < ((s.table.addRef p).pages p).ref
      rw [PageTable.addRef, updPage_pages, if_pos rfl]
      dsimp only
      omega
  obtain ⟨hsync, hcache, hgot', hlist, hrefs⟩ := hadd.sync hgot ((hsame.changed p).trans hchanged)
  have hall := (SameCache.table s (s.table.addRef p)).trans hcache
  have hplus : s.Refs { s with table := s.table.addRef p } fun q => if q = p then 1 else 0 := by
    refine ⟨fun q => ?_, fun q => Page.content_pageSet (hsame.content q), fun _ => rfl⟩
    show ((s.table.addRef p).pages q).ref = _
    rw [PageTable.addRef, updPage_pages]
    split
    · rename_i hq
      rw [hq]
    · rw [Int.add_zero]
  have hminus := (hplus.trans hrefs).trans
    (Refs.release (hsync.inv.free_of_registered hgot'.own.1))
  refine ⟨hsync.release hgot', hall.trans (.table _ _), hlist, fun q => ?_, hminus.pageSet,
    hminus.parent⟩
  rw [show s.syncPage p = ((({ s with table := s.table.addRef p } : CacheState).sync p).1.release p)
    from rfl, hminus.ref]
  by_cases hq : q = p <;> simp [hq]

theorem flushLoop {fuel : Nat} : ∀ {s : CacheState}, s.Coherent hash managed content →
    s.changedList.length ≤ fuel →
    (s.flushLoop fuel).Coherent hash managed content ∧ s.SameCache (s.flushLoop fuel) ∧
      (s.flushLoop fuel).changedList = [] ∧
      s.Refs (s.flushLoop fuel) fun q => if q ∈ s.changedList then -1 else 0 := by
  have hrefl : ∀ s : CacheState, s.changedList = [] →
      s.Refs s fun q => if q ∈ s.changedList then -1 else 0 :=
    fun s hnil => ⟨fun q => by simp [hnil], fun _ => rfl, fun _ => rfl⟩
  induction fuel with
  | zero =>
    intro s h hlen
    have hnil := List.length_eq_zero_iff.1 (Nat.le_zero.1 hlen)
    exact ⟨h, .refl s, hnil, hrefl s hnil⟩
  | succ fuel ih =>
    intro s h hlen
    simp only [CacheState.flushLoop]
    rcases hlist : s.changedList with _ | ⟨p, rest⟩
    · exact ⟨h, .refl s, hlist, by simpa only [hlist] using hrefl s hlist⟩
    · have hmem : p ∈ s.changedList := by
        rw [hlist]
        exact List.mem_cons_self
      obtain ⟨hsync, hsame, hlist', hrefs⟩ := h.syncPage hmem
      obtain ⟨hflush, hsame', hnil, hrefs'⟩ := ih hsync (by
        rw [hlist', List.length_erase_of_mem hmem]
        omega)
      have hall := hrefs.trans hrefs'
      refine ⟨hflush, hsame.trans hsame', hnil, fun q => ?_, hall.pageSet, hall.parent⟩
      rw [hall.ref, ← hlist, hlist']
      by_cases hq : q = p <;> simp [hq, hmem, h.changed_nodup.mem_erase_iff]

/-- A flush writes every changed page back. -/
theorem flush (h : s.Coherent hash managed content) :
    s.flush.Coherent hash managed content ∧ s.SameCache s.flush ∧ s.flush.changedList = [] ∧
      s.Refs s.flush fun q => if q ∈ s.changedList then -1 else 0 :=
  h.flushLoop (Nat.le_refl _)

/-- Without changed pages the stream has all the bytes. -/
theorem stored (h : s.Coherent hash managed content) (hnil : s.changedList = []) {x : Int}
    {b : UInt8} (hb : content x = some b) :
    s.backingStore.data x = b ∧ x < s.backingStore.size := by
  refine ⟨(h.store x b hb).resolve_right ?_, h.bound x b hb⟩
  rintro ⟨q, hq, hc, -⟩
  have hmem := (h.mem_changed q).2 ⟨hq, hc⟩
  rw [hnil] at hmem
  cases hmem

theorem clean_changedList (s : CacheState) (p : Nat) : (s.clean p).1.changedList =
    if (s.table.pages p).changed then s.changedList.erase p else s.changedList := by
  simp only [CacheState.clean, PageTable.clean]
  split <;> simp_all

/-- A page without defined bytes is freed. -/
theorem freePage (h : s.Coherent hash managed content) (hgot : s.Got hash p)
    (hnone : ∀ i : Nat, i < 4096 → content ((s.table.pages p).offset + i) = none) :
    (s.freePage hash p).Coherent hash managed content ∧ s.SameCache (s.freePage hash p) := by
  obtain ⟨hown, hpos, hone⟩ := hgot
  have hinv := h.inv.freePage (h.inv.mem_of_registered hown.1) (by simp) hpos hone
  obtain ⟨hother, hreg, hmap⟩ := freePage_spec hone hinv
  have htable : (s.freePage hash p).table = s.table.freePage hash p := rfl
  have hlist : (s.freePage hash p).changedList =
      if (s.table.pages p).changed then s.changedList.erase p else s.changedList := by
    simp only [CacheState.freePage, CacheState.release, clean_changedList]
    simp [CacheState.updPage, PageTable.remove]
  have hiff : ∀ q, (s.freePage hash p).Own hash q ↔ s.Own hash q ∧ q ≠ p := by
    intro q
    rw [Own, Own, htable, hreg]
    by_cases hq : q = p
    · simp [hq]
    · rw [hother q hq]
      exact ⟨fun h => ⟨⟨h.1.1, h.2⟩, hq⟩, fun h => ⟨⟨h.1.1, hq⟩, h.1.2⟩⟩
  have hmem := h.mem_changed p
  refine ⟨⟨hinv, fun q => ?_, h.sector, ?_, fun q => ?_, fun q hq hc => ?_, fun q hq => ?_,
    fun q hq hf i hi b hb => ?_, fun x b hb => ?_, h.bound⟩, rfl, rfl, rfl, rfl, Int.le_refl _⟩
  · rw [htable]
    by_cases hq : q = p
    · rw [hq, hmap]
      exact h.map_lt p
    · rw [hother q hq]
      exact h.map_lt q
  · rw [hlist]
    split
    · exact h.changed_nodup.erase p
    · exact h.changed_nodup
  · rw [hiff, hlist, htable]
    by_cases hq : q = p
    · subst hq
      rw [iff_false_intro (show ¬((s.Own hash q ∧ q ≠ q) ∧ _) from fun hc => hc.1.2 rfl), iff_false]
      split
      · rw [h.changed_nodup.mem_erase_iff]
        exact fun hc => hc.1 rfl
      · rename_i hc
        exact fun hin => hc (hmem.1 hin).2
    · rw [hother q hq, and_assoc, and_left_comm, ← h.mem_changed q]
      split
      · rw [h.changed_nodup.mem_erase_iff]
      · simp [hq]
  · rw [hiff] at hq
    rw [htable, hother q hq.2] at hc ⊢
    exact h.filled q hq.1 hc
  · rw [hiff] at hq
    rw [htable, hother q hq.2]
    exact h.aligned q hq.1
  · rw [hiff] at hq
    rw [htable, hother q hq.2] at hf hb ⊢
    exact h.page q hq.1 hf i hi b hb
  · refine (h.store x b hb).imp id ?_
    rintro ⟨q, hq, hc, i, hi, hx, hbit⟩
    have hqp : q ≠ p := by
      rintro rfl
      rw [hx, hnone i hi] at hb
      cases hb
    refine ⟨q, (hiff q).2 ⟨hq, hqp⟩, ?_, i, hi, ?_, ?_⟩
    · rw [htable, hother q hqp]
      exact hc
    · rw [htable, hother q hqp]
      exact hx
    · rw [htable, hother q hqp]
      exact hbit

end Coherent

end CacheState

end EsOs.Kernel
