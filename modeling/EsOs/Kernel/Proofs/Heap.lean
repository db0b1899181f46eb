import Mathlib.Data.List.Nodup
import EsOs.Kernel.Heap
import EsOs.Kernel.Proofs.Arena

/-!
# What the heap guarantees

The invariant says what the pages and the large cells hold: every cell of a page is free or the
cell of a live block, and every block the heap took from the arena is reached from its lists.
-/

namespace EsOs.Kernel

open EsOs.Lib EsOs.Lib.Extent

/-! ## The arena below -/

namespace ArenaState.Sound

variable {space : Extent} {a a' : Arena} {live live' : List Block} {size align place : Nat}

/-- The order of the blocks does not matter. -/
theorem perm (h : ArenaState.Sound space ⟨a, live⟩) (hp : live.Perm live') :
    ArenaState.Sound space ⟨a, live'⟩ := by
  have hmem : ∀ b, b ∈ live' → b ∈ live := fun b hb => hp.mem_iff.mpr hb
  refine ⟨h.separated, h.cells, fun b hb => h.blocks b (hmem b hb),
    fun b hb => h.sizes b (hmem b hb), (hp.pairwise_iff fun h => Apart.symm h).mp h.disjoint,
    fun b hb => h.apart b (hmem b hb), ?_, fun b hb => h.aligned b (hmem b hb), h.cellUnits,
    fun b hb => h.blockUnits b (hmem b hb)⟩
  have htotal := h.total
  rwa [← (Gathered.perm (hp.map Block.extent)).total] at htotal

/-- The padding of a request stays below its alignment. -/
theorem padding_lt (h : ArenaState.Sound space ⟨a, live⟩) (hspace : Region space) {k : Nat}
    (hk : k < 32) (halign : align = 2 ^ k) {cell : Extent} (hcell : cell ∈ a.unused) :
    align ∣ cell.left + Arena.padding align cell ∧ Arena.padding align cell < align := by
  have hin := h.cells cell hcell
  have hpos := h.separated.pos cell hcell
  have hend := hspace.2.2.2.2
  subst halign
  exact Arena.padding_spec hk (by unfold Within Extent.right at *; omega)

/-- A block whose alignment is the granule of the arena needs no padding. -/
theorem padding_eq_zero (h : ArenaState.Sound space ⟨a, live⟩) (hspace : Region space)
    {cell : Extent} (hcell : cell ∈ a.unused) : Arena.padding Arena.ALIGN cell = 0 := by
  obtain ⟨hdvd, hlt⟩ := h.padding_lt hspace (k := 5) (by decide) rfl hcell
  exact Nat.eq_zero_of_dvd_of_lt ((Nat.dvd_add_right (h.cellUnits cell hcell).1).mp hdvd) hlt

theorem alloc_meets (h : ArenaState.Sound space ⟨a, live⟩) (hspace : Region space)
    (hsize : size < 4294967296) :
    ArenaState.Meets ⟨a, live⟩ (.alloc false size Arena.ALIGN) := by
  refine ⟨⟨5, rfl⟩, fun cell hcell _ => ?_⟩
  rw [h.padding_eq_zero hspace hcell, Nat.zero_add]
  exact hsize

theorem allocPage_meets (h : ArenaState.Sound space ⟨a, live⟩) (hspace : Region space) :
    ArenaState.Meets ⟨a, live⟩ (.alloc true Heap.PAGE_SIZE Heap.PAGE_SIZE) := by
  refine ⟨⟨12, rfl⟩, fun cell hcell _ => ?_⟩
  have hlt := (h.padding_lt hspace (k := 12) (by decide) rfl hcell).2
  have hsmall : Heap.PAGE_SIZE + Heap.PAGE_SIZE < 4294967296 := by decide
  exact Nat.lt_trans (Nat.add_lt_add_right hlt _) hsmall

/-- A block at the granule of the arena. -/
theorem alloc (h : ArenaState.Sound space ⟨a, live⟩) (hspace : Region space)
    (hpos : 0 < size) (hunit : size % Arena.ALIGN = 0) (hsize : size < 4294967296)
    (ha : a.alloc size Arena.ALIGN = some (place, a')) :
    ArenaState.Sound space ⟨a', ⟨place, size, Arena.ALIGN⟩ :: live⟩ := by
  have hacc : accepted size Arena.ALIGN = true := by
    rw [accepted, decide_eq_true_eq]
    exact ⟨by decide, hpos, hunit, hsize, by decide⟩
  refine h.step hspace (h.alloc_meets hspace hsize) ?_
  simp only [ArenaState.step, hacc, if_true, Bool.false_eq_true, if_false, ha]

/-- A page from the end of the arena. -/
theorem allocPage (h : ArenaState.Sound space ⟨a, live⟩) (hspace : Region space)
    (ha : a.allocLast Heap.PAGE_SIZE Heap.PAGE_SIZE = some (place, a')) :
    ArenaState.Sound space ⟨a', Heap.pageBlock place :: live⟩ := by
  have hacc : accepted Heap.PAGE_SIZE Heap.PAGE_SIZE = true := by decide
  refine h.step hspace (h.allocPage_meets hspace) ?_
  simp only [ArenaState.step, hacc, if_true, ha, Heap.pageBlock]

theorem nodup (h : ArenaState.Sound space ⟨a, live⟩) : live.Nodup := by
  refine List.Pairwise.imp_of_mem (fun {x y} hx _ hxy heq => ?_) h.disjoint
  subst heq
  have := h.sizes x hx
  unfold Apart Extent.right Block.extent at hxy
  dsimp only at hxy
  omega

/-- Different blocks lie apart. -/
theorem apart_of_ne (h : ArenaState.Sound space ⟨a, live⟩) {x y : Block} (hx : x ∈ live)
    (hy : y ∈ live) (hne : x ≠ y) : Apart x.extent y.extent := by
  have : Std.Symm fun x y : Block => Apart x.extent y.extent := ⟨fun _ _ h => Apart.symm h⟩
  exact h.disjoint.forall hx hy hne

end ArenaState.Sound

namespace Heap

/-! ## Sizes and cells -/

/-- The block sizes that the constructor computes. -/
theorem initBuckets_eq :
    initBuckets BUCKET_SIZE 0 = ([32, 64, 128, 256, 544, 1312, 1984, 0, 0], 1984) := by
  decide

/-- The heap has the block sizes of the constructor. -/
structure Sized (h : Heap) : Prop where
  bucketSizes : h.bucketSizes = (initBuckets BUCKET_SIZE 0).1
  thresh : h.thresh = 1984

variable {h : Heap} {j m c n : Nat}

theorem Sized.size_eq (hs : h.Sized) (j : Nat) :
    h.size j = [32, 64, 128, 256, 544, 1312, 1984, 0, 0].getD j 0 := by
  rw [size, hs.bucketSizes, initBuckets_eq]

theorem Sized.size_le (hs : h.Sized) (j : Nat) : h.size j ≤ 1984 := by
  rw [hs.size_eq]
  rcases Nat.lt_or_ge j 9 with hj | hj
  · have hall : ∀ i < 9, [32, 64, 128, 256, 544, 1312, 1984, 0, 0].getD i 0 ≤ 1984 := by decide
    exact hall j hj
  · rw [List.getD_eq_default _ _ hj]
    exact Nat.zero_le _

theorem ffs_spec (hpos : 0 < n) (hn : n < 4294967296) :
    ∃ i, ffs n = i + 1 ∧ 2 ^ i ≤ n := by
  unfold ffs
  cases hfind : (List.range 32).find? fun i => n.testBit i with
  | some i =>
    have hbit : n.testBit i = true := List.find?_some (p := fun i => n.testBit i) hfind
    exact ⟨i, rfl, Nat.ge_two_pow_of_testBit hbit⟩
  | none =>
    refine absurd ?_ (Nat.ne_of_gt hpos)
    refine Nat.eq_of_testBit_eq fun i => ?_
    rw [Nat.zero_testBit]
    rcases Nat.lt_or_ge i 32 with hi | hi
    · simpa using List.find?_eq_none.mp hfind i (List.mem_range.mpr hi)
    · have hpow : 2 ^ 32 ≤ 2 ^ i := Nat.pow_le_pow_right (by decide) hi
      exact Nat.testBit_lt_two_pow (Nat.lt_of_lt_of_le hn hpow)

/-- For every size up to the threshold `getBucket` finds a bucket whose blocks are large enough. -/
theorem getBucket_spec (hs : h.Sized) (hpos : 0 < n) (hn : n ≤ h.thresh) :
    ∃ bucket, h.getBucket n = some bucket ∧ bucket < 7 ∧ n ≤ h.size bucket := by
  rw [hs.thresh] at hn
  obtain ⟨i, hi, hle⟩ := ffs_spec hpos (by omega)
  have hi10 : i ≤ 10 := by
    refine Nat.le_of_not_lt fun h11 => ?_
    have hpow : 2 ^ 11 ≤ 2 ^ i := Nat.pow_le_pow_right (by decide) h11
    omega
  unfold getBucket
  rw [hi]
  simp only [Nat.succ_ne_zero, if_false]
  generalize hstart : (if i + 1 ≤ SHIFT then 0 else i + 1 - (SHIFT + 1)) = start
  have hle6 : start ≤ 6 := by
    have hshift : SHIFT = 5 := rfl
    rw [← hstart, hshift]
    split <;> omega
  have hlast : h.size 6 = 1984 := by rw [hs.size_eq]; rfl
  have hmem : 6 ∈ (List.range BUCKET_SIZE).drop start := by
    refine List.mem_iff_getElem.mpr ⟨6 - start, ?_, ?_⟩
    · rw [List.length_drop, List.length_range, BUCKET_SIZE]
      omega
    · simp only [List.getElem_drop, List.getElem_range]
      omega
  cases hfind : ((List.range BUCKET_SIZE).drop start).find? fun bucket =>
      decide (n ≤ h.size bucket) with
  | none =>
    have := List.find?_eq_none.mp hfind 6 hmem
    rw [hlast, decide_eq_true_eq] at this
    omega
  | some bucket =>
    have hfit := List.find?_some (p := fun bucket => decide (n ≤ h.size bucket)) hfind
    rw [decide_eq_true_eq] at hfit
    refine ⟨bucket, rfl, Nat.lt_of_not_le fun h7 => ?_, hfit⟩
    have hzero : h.size bucket = 0 := by
      rw [hs.size_eq]
      match bucket, h7 with
      | 7, _ => rfl
      | 8, _ => rfl
      | b + 9, _ => rfl
    omega

/-- The cells of a page lie behind its mass, one behind the other. -/
theorem massLoop_spec (right size n place : Nat) :
    (∀ c ∈ massLoop right size n place, place ≤ c ∧ c + CELL_SIZE + size ≤ right) ∧
      (massLoop right size n place).Pairwise fun c d => c + CELL_SIZE + size ≤ d := by
  induction n generalizing place with
  | zero => exact ⟨by simp [massLoop], by simp [massLoop]⟩
  | succ n ih =>
    unfold massLoop
    split
    · rename_i hfit
      obtain ⟨hin, hgap⟩ := ih (place + CELL_SIZE + size)
      refine ⟨List.forall_mem_cons.mpr ⟨⟨Nat.le_refl _, hfit⟩, fun c hc => ?_⟩,
        List.pairwise_cons.mpr ⟨fun c hc => (hin c hc).1, hgap⟩⟩
      have := hin c hc
      omega
    · simp

/-- The bound on the rounds does not cut the loop short. -/
theorem massLoop_fuel {right size n place : Nat} (hn : right < place + n) :
    massLoop right size (n + 1) place = massLoop right size n place := by
  induction n generalizing place with
  | zero =>
    unfold massLoop
    rw [if_neg (by omega)]
  | succ n ih =>
    have hrest := @ih (place + CELL_SIZE + size) (by unfold CELL_SIZE; omega)
    show (if _ then place :: massLoop right size (n + 1) _ else []) = _
    rw [hrest]
    rfl

/-- A page of the arena. -/
structure PageAt (m : Nat) : Prop where
  aligned : PAGE_SIZE ∣ m
  fits : m + PAGE_SIZE ≤ 4294967296

theorem massCells_mem {s : Nat} (hm : PageAt m) (hc : c ∈ massCells m s) :
    m + MASS_SIZE ≤ c ∧ c + CELL_SIZE + s ≤ m + PAGE_SIZE := by
  obtain ⟨hleft, hright⟩ := (massLoop_spec _ _ _ _).1 c hc
  refine ⟨hleft, Nat.le_trans hright ?_⟩
  exact Nat.mod_le _ _

theorem massCells_apart (m s : Nat) :
    (massCells m s).Pairwise fun c d => c + CELL_SIZE + s ≤ d :=
  (massLoop_spec _ _ _ _).2

theorem massCells_nodup (m s : Nat) : (massCells m s).Nodup :=
  (massCells_apart m s).imp fun {c d} h heq => by
    have : 0 < CELL_SIZE := by decide
    omega

/-- `getMass` finds the page of each of its cells. -/
theorem getMass_eq {s : Nat} (hm : PageAt m) (hc : c ∈ massCells m s) : getMass c = m := by
  obtain ⟨hleft, hright⟩ := massCells_mem hm hc
  obtain ⟨q, rfl⟩ := hm.aligned
  have hfits := hm.fits
  simp only [PAGE_SIZE, CELL_SIZE, MASS_SIZE] at hleft hright hfits ⊢
  show c &&& wordNot (2 ^ 12 - 1) = _
  rw [and_wordNot_low (by decide) (by omega)]
  omega

/-! ## The invariant -/

/-- Putting an element into one of the lists of a table. -/
theorem flatMap_update {α : Type _} {f : Nat → List α} {n j : Nat} (hj : j < n) {x : α}
    {k : List α} (hk : (f j).Perm (x :: k)) :
    ((List.range n).flatMap f).Perm
      (x :: (List.range n).flatMap (Function.update f j k)) := by
  induction n with
  | zero => exact absurd hj (Nat.not_lt_zero _)
  | succ n ih =>
    rw [List.range_succ, List.flatMap_append, List.flatMap_append, List.flatMap_singleton,
      List.flatMap_singleton]
    by_cases hjn : j = n
    · subst hjn
      have hsame : (List.range j).flatMap (Function.update f j k) = (List.range j).flatMap f := by
        refine List.flatMap_congr fun i hi => ?_
        rw [Function.update_of_ne (Nat.ne_of_lt (List.mem_range.mp hi))]
      rw [hsame, Function.update_self]
      exact (hk.append_left _).trans List.perm_middle
    · rw [Function.update_of_ne (Ne.symm hjn)]
      exact (ih (by omega)).append_right _

@[simp] theorem setMass_size (h : Heap) (m : Nat) (mass : Mass) (j : Nat) :
    (h.setMass m mass).size j = h.size j := rfl

@[simp] theorem setMass_mass_self (h : Heap) (m : Nat) (mass : Mass) :
    (h.setMass m mass).mass m = mass := Function.update_self ..

theorem setMass_mass_ne (h : Heap) {m m' : Nat} (mass : Mass) (hne : m' ≠ m) :
    (h.setMass m mass).mass m' = h.mass m' := Function.update_of_ne hne ..

/-- What a page of the bucket `j` holds: each of its cells is free or the cell of a live block, and
    the mass counts the latter. -/
structure PageSound (h : Heap) (live : List HeapBlock) (j m : Nat) : Prop where
  bucket : (h.mass m).bucket = j
  headers : ∀ c ∈ massCells m (h.size j), h.cellSize c = h.size j
  nodup : (h.mass m).listCell.Nodup
  free : ∀ c, c ∈ (h.mass m).listCell ↔
    c ∈ massCells m (h.size j) ∧ ∀ b ∈ live, b.place ≠ c + CELL_SIZE
  used : (h.mass m).used = (massCells m (h.size j)).length - (h.mass m).listCell.length

/-- A page that a step leaves alone. -/
theorem PageSound.congr {h' : Heap} {live live' : List HeapBlock}
    (hp : h.PageSound live j m) (hsize : h'.size j = h.size j) (hmass : h'.mass m = h.mass m)
    (hhead : ∀ c ∈ massCells m (h.size j), h'.cellSize c = h.cellSize c)
    (hlive : ∀ c ∈ massCells m (h.size j), (∀ b ∈ live', b.place ≠ c + CELL_SIZE) ↔
      ∀ b ∈ live, b.place ≠ c + CELL_SIZE) : h'.PageSound live' j m := by
  refine ⟨?_, ?_, ?_, ?_, ?_⟩
  · rw [hmass]
    exact hp.bucket
  · rw [hsize]
    exact fun c hc => (hhead c hc).trans (hp.headers c hc)
  · rw [hmass]
    exact hp.nodup
  · intro c
    rw [hmass, hsize, hp.free c]
    exact and_congr_right fun hc => (hlive c hc).symm
  · rw [hmass, hsize]
    exact hp.used

/-- Where a live block lies. -/
def LiveAt (h : Heap) (b : HeapBlock) : Prop :=
  match b.bucket with
  | some j => ∃ m ∈ h.listMass j, ∃ c ∈ massCells m (h.size j),
      b.place = c + CELL_SIZE ∧ b.size ≤ h.size j
  | none => ∃ c ∈ h.listLargeCell, b.place = c + CELL_SIZE ∧ b.size ≤ h.cellSize c

/-- A block stays live where it is as long as its page or its cell does. -/
theorem LiveAt.mono {h' : Heap} {b : HeapBlock} (hb : h.LiveAt b)
    (hsize : ∀ i, h'.size i = h.size i)
    (hpages : ∀ j, b.bucket = some j → ∀ m ∈ h.listMass j, ∀ c ∈ massCells m (h.size j),
      b.place = c + CELL_SIZE → m ∈ h'.listMass j)
    (hlarge : b.bucket = none → ∀ c ∈ h.listLargeCell, b.place = c + CELL_SIZE →
      c ∈ h'.listLargeCell ∧ h'.cellSize c = h.cellSize c) : h'.LiveAt b := by
  unfold LiveAt at hb ⊢
  split at hb
  · rename_i j hj
    obtain ⟨m, hm, c, hc, hplace, hle⟩ := hb
    refine ⟨m, hpages j hj m hm c hc hplace, c, by rwa [hsize], hplace, by rwa [hsize]⟩
  · rename_i hnone
    obtain ⟨c, hc, hplace, hle⟩ := hb
    obtain ⟨hc', hsame⟩ := hlarge hnone c hc hplace
    exact ⟨c, hc', hplace, by rwa [hsame]⟩

/-- The invariant, but for the rule that no page of a list is unused. -/
structure Holds (space : Extent) (others : List Block) (h : Heap) (live : List HeapBlock) :
    Prop where
  sized : h.Sized
  arena : ArenaState.Sound space ⟨h.arena, h.taken ++ others⟩
  calls : ∃ l, outstanding h.calls = some l ∧ l.Perm (h.taken.map Block.extent)
  buckets : ∀ j m, m ∈ h.listMass j → j < 7
  pages : ∀ j m, m ∈ h.listMass j → h.PageSound live j m
  large : ∀ c ∈ h.listLargeCell, h.thresh < h.cellSize c ∧
    h.cellSize c + CELL_SIZE < 4294967296 ∧ ∃ b ∈ live, b.place = c + CELL_SIZE
  liveAt : ∀ b ∈ live, h.LiveAt b
  distinct : (live.map HeapBlock.place).Nodup

/-- The page has cells, and all of them are free. -/
def Unused (h : Heap) (j m : Nat) : Prop :=
  massCells m (h.size j) ≠ [] ∧ (h.mass m).used = 0

namespace Holds

variable {space : Extent} {others : List Block} {h : Heap} {live : List HeapBlock} {b : HeapBlock}
  {j j' m m' c c' n : Nat}

theorem page_mem (hh : h.Holds space others live) (hm : m ∈ h.listMass j) :
    pageBlock m ∈ h.taken := by
  have hj := hh.buckets j m hm
  refine List.mem_append_left _ (List.mem_map_of_mem (List.mem_flatMap.mpr ⟨j, ?_, hm⟩))
  exact List.mem_range.mpr (Nat.lt_trans hj (by decide))

theorem large_mem (hc : c ∈ h.listLargeCell) : h.largeBlock c ∈ h.taken :=
  List.mem_append_right _ (List.mem_map_of_mem hc)

theorem pageAt_of_mem (hspace : Region space) {a : Arena} {l : List Block}
    (ha : ArenaState.Sound space ⟨a, l⟩) (hm : pageBlock m ∈ l) : PageAt m := by
  have hin := ha.blocks _ hm
  have hend := hspace.2.2.2.2
  refine ⟨ha.aligned _ hm, ?_⟩
  exact Nat.le_trans hin.2 hend

theorem pageAt (hh : h.Holds space others live) (hspace : Region space)
    (hm : m ∈ h.listMass j) : PageAt m :=
  pageAt_of_mem hspace hh.arena (List.mem_append_left _ (hh.page_mem hm))

theorem bucket_eq (hh : h.Holds space others live) (hm : m ∈ h.listMass j)
    (hm' : m ∈ h.listMass j') : j = j' :=
  (hh.pages j m hm).bucket.symm.trans (hh.pages j' m hm').bucket

/-- The size of a large cell with its header. -/
theorem large_size (hh : h.Holds space others live) (hc : c ∈ h.listLargeCell) :
    word (h.cellSize c + CELL_SIZE) = h.cellSize c + CELL_SIZE :=
  word_of_lt (hh.large c hc).2.1

/-- A large cell is in no page. -/
theorem large_apart (hh : h.Holds space others live) (hc : c ∈ h.listLargeCell)
    (hm : m ∈ h.listMass j) : m + PAGE_SIZE ≤ c ∨ c + h.cellSize c + CELL_SIZE ≤ m := by
  have hne : h.largeBlock c ≠ pageBlock m := fun heq =>
    absurd (show Arena.ALIGN = PAGE_SIZE from congrArg Block.align heq) (by decide)
  have hapart := hh.arena.apart_of_ne (List.mem_append_left _ (large_mem hc))
    (List.mem_append_left _ (hh.page_mem hm)) hne
  have hsize := hh.large_size hc
  simp only [Apart, Extent.right, Block.extent, largeBlock, pageBlock, hsize] at hapart
  omega

/-- The block of the arena that a live block and its header are in. -/
theorem live_in (hh : h.Holds space others live) (hspace : Region space) (hb : b ∈ live) :
    ∃ t ∈ h.taken, ∃ c, b.place = c + CELL_SIZE ∧ t.place ≤ c ∧
      c + CELL_SIZE + h.cellSize c ≤ t.place + t.size := by
  have hlive := hh.liveAt b hb
  unfold LiveAt at hlive
  split at hlive
  · rename_i j hj
    obtain ⟨m, hm, c, hc, hplace, -⟩ := hlive
    obtain ⟨hleft, hright⟩ := massCells_mem (hh.pageAt hspace hm) hc
    refine ⟨_, hh.page_mem hm, c, hplace, ?_, ?_⟩
    · exact Nat.le_trans (Nat.le_add_right _ _) hleft
    · rw [(hh.pages j m hm).headers c hc]
      exact hright
  · obtain ⟨c, hc, hplace, -⟩ := hlive
    refine ⟨_, large_mem hc, c, hplace, Nat.le_refl _, ?_⟩
    simp only [largeBlock, hh.large_size hc]
    omega

/-- A block is not live at a cell that is free. -/
theorem fresh_of_free (hh : h.Holds space others live) (hm : m ∈ h.listMass j)
    (hc : c ∈ (h.mass m).listCell) : c + CELL_SIZE ∉ live.map HeapBlock.place := by
  intro hmem
  obtain ⟨b, hb, hplace⟩ := List.mem_map.mp hmem
  exact (((hh.pages j m hm).free c).mp hc).2 b hb hplace

/-- A new record of one mass, for other live blocks. -/
theorem setMass {mass : Mass} {live' : List HeapBlock} (hh : h.Holds space others live)
    (hpage : ∀ j, m ∈ h.listMass j → (h.setMass m mass).PageSound live' j m)
    (hothers : ∀ j' m', m' ∈ h.listMass j' → m' ≠ m → ∀ c ∈ massCells m' (h.size j'),
      (∀ b ∈ live', b.place ≠ c + CELL_SIZE) ↔ ∀ b ∈ live, b.place ≠ c + CELL_SIZE)
    (hlarge : ∀ c ∈ h.listLargeCell, ∃ b ∈ live', b.place = c + CELL_SIZE)
    (hlive : ∀ b ∈ live', h.LiveAt b) (hdistinct : (live'.map HeapBlock.place).Nodup) :
    (h.setMass m mass).Holds space others live' := by
  refine ⟨⟨hh.sized.1, hh.sized.2⟩, hh.arena, hh.calls, hh.buckets, fun j' m' hm' => ?_,
    fun c hc => ⟨(hh.large c hc).1, (hh.large c hc).2.1, hlarge c hc⟩, hlive, hdistinct⟩
  by_cases hmm : m' = m
  · subst hmm
    exact hpage j' hm'
  · exact (hh.pages j' m' hm').congr rfl (setMass_mass_ne h mass hmm) (fun _ _ => rfl)
      (hothers j' m' hm' hmm)

/-- A page in use has no more free cells than cells. -/
theorem listCell_length (hp : h.PageSound live j m) :
    (h.mass m).listCell.length ≤ (massCells m (h.size j)).length :=
  (List.subperm_of_subset hp.nodup fun x hx => ((hp.free x).mp hx).1).length_le

/-- Cells of two pages differ. -/
theorem cell_ne (hh : h.Holds space others live) (hspace : Region space)
    (hm : m ∈ h.listMass j) (hm' : m' ∈ h.listMass j') (hne : m' ≠ m)
    (hc : c ∈ massCells m (h.size j)) (hc' : c' ∈ massCells m' (h.size j')) : c' ≠ c := by
  rintro rfl
  exact hne ((getMass_eq (hh.pageAt hspace hm') hc').symm.trans
    (getMass_eq (hh.pageAt hspace hm) hc))

/-- A free cell of a page becomes a live block. -/
theorem getCell (hh : h.Holds space others live) (hspace : Region space)
    (hm : m ∈ h.listMass j) {rest : List Nat} (hcell : (h.mass m).listCell = c :: rest)
    (hn : n ≤ h.size j) :
    ∃ h', h.getCell m = (some c, h') ∧ h'.Holds space others (⟨c + CELL_SIZE, n, some j⟩ :: live) ∧
      h'.listMass = h.listMass ∧
      ∀ j' m', m' ∈ h.listMass j' → h'.Unused j' m' → m' ≠ m ∧ h.Unused j' m' := by
  have hp := hh.pages j m hm
  have hfree : c ∈ (h.mass m).listCell := by rw [hcell]; exact List.mem_cons_self
  obtain ⟨hin, hfresh⟩ := (hp.free c).mp hfree
  have hnodup := hp.nodup
  have hused := hp.used
  have hlen := listCell_length hp
  rw [hcell] at hnodup hused hlen
  rw [List.length_cons] at hused hlen
  obtain ⟨hnot, hrest⟩ := List.nodup_cons.mp hnodup
  have hget : h.getCell m =
      (some c, h.setMass m ⟨(h.mass m).used + 1, (h.mass m).bucket, rest⟩) := by
    rw [Heap.getCell, hcell]
  refine ⟨_, hget, hh.setMass ?_ ?_ ?_ ?_ ?_, rfl, ?_⟩
  · intro j' hm'
    obtain rfl := hh.bucket_eq hm hm'
    refine ⟨by simpa using hp.bucket, hp.headers, by simpa using hrest, fun x => ?_, ?_⟩
    · have hx := hp.free x
      rw [hcell, List.mem_cons] at hx
      simp only [setMass_mass_self, setMass_size, List.forall_mem_cons]
      by_cases hxc : x = c
      · subst hxc
        simp [hnot]
      · rw [or_iff_right hxc] at hx
        rw [hx]
        exact and_congr_right fun _ => (and_iff_right fun heq =>
          hxc (Nat.add_right_cancel heq).symm).symm
    · simp only [setMass_mass_self, setMass_size]
      omega
  · intro j' m' hm' hmm x hx
    rw [List.forall_mem_cons]
    exact and_iff_right fun heq =>
      hh.cell_ne hspace hm hm' hmm hin hx (Nat.add_right_cancel heq).symm
  · intro x hx
    obtain ⟨-, -, b, hb, hplace⟩ := hh.large x hx
    exact ⟨b, List.mem_cons_of_mem _ hb, hplace⟩
  · exact List.forall_mem_cons.mpr ⟨⟨m, hm, c, hin, rfl, hn⟩, hh.liveAt⟩
  · exact List.nodup_cons.mpr ⟨hh.fresh_of_free hm hfree, hh.distinct⟩
  · rintro j' m' hm' ⟨hcells, h0⟩
    by_cases hmm : m' = m
    · subst hmm
      rw [setMass_mass_self] at h0
      dsimp only at h0
      omega
    · exact ⟨hmm, hcells, by rwa [setMass_mass_ne h _ hmm] at h0⟩

/-- No live block has its cell in a block that the arena hands out now. -/
theorem live_not_in (hh : h.Holds space others live) (hspace : Region space) {t : Block}
    (hnew : ∀ t' ∈ h.taken, Apart t.extent t'.extent) (hb : b ∈ live)
    (hplace : b.place = c + CELL_SIZE) : ¬(t.place ≤ c ∧ c < t.place + t.size) := by
  obtain ⟨t', ht', c', hplace', hleft, hright⟩ := hh.live_in hspace hb
  have hapart := hnew t' ht'
  have hc : c' = c := Nat.add_right_cancel (hplace'.symm.trans hplace)
  subst hc
  have hcell : 0 < CELL_SIZE := by decide
  simp only [Apart, Extent.right, Block.extent] at hapart
  omega

/-- A new page for a bucket. All its cells are free. -/
theorem allocMass (hh : h.Holds space others live) (hspace : Region space) (hj : j < 7)
    {h' : Heap} (ha : h.allocMass j = some (m, h')) :
    h'.Holds space others live ∧ m ∈ h'.listMass j ∧
      (h'.mass m).listCell = massCells m (h'.size j) ∧ h'.bucketSizes = h.bucketSizes ∧
      ∀ j' m', m' ∈ h'.listMass j' → h'.Unused j' m' →
        m' = m ∨ m' ∈ h.listMass j' ∧ h.Unused j' m' := by
  unfold Heap.allocMass at ha
  split at ha
  · cases ha
  · rename_i place arena' halloc
    cases ha
    have hnew := hh.arena.allocPage hspace halloc
    have hpage : PageAt m := pageAt_of_mem hspace hnew List.mem_cons_self
    have hclear := (List.pairwise_cons.mp hnew.disjoint).1
    have hclearTaken : ∀ t ∈ h.taken, Apart (pageBlock m).extent t.extent :=
      fun t ht => hclear t (List.mem_append_left _ ht)
    have hfar : ∀ j' m', m' ∈ h.listMass j' → m' ≠ m := by
      rintro j' m' hm' rfl
      have hapart := hclearTaken _ (hh.page_mem hm')
      simp only [Apart, Extent.right, Block.extent, pageBlock, PAGE_SIZE] at hapart
      omega
    have hcells : ∀ c ∈ massCells m (h.size j), m ≤ c ∧ c < m + PAGE_SIZE := by
      intro c hc
      obtain ⟨hleft, hright⟩ := massCells_mem hpage hc
      have hsize : 0 < CELL_SIZE := by decide
      omega
    have hlargeFar : ∀ c ∈ h.listLargeCell, c ∉ massCells m (h.size j) := by
      intro c hc hin
      have hapart := hclearTaken _ (large_mem hc)
      have hsize := hh.large_size hc
      have := hcells c hin
      have hpos : 0 < CELL_SIZE := by decide
      simp only [Apart, Extent.right, Block.extent, pageBlock, largeBlock, hsize] at hapart
      omega
    have hpagesFar : ∀ j' m', m' ∈ h.listMass j' → ∀ c ∈ massCells m' (h.size j'),
        c ∉ massCells m (h.size j) := by
      intro j' m' hm' c hc hin
      exact hfar j' m' hm' ((getMass_eq (hh.pageAt hspace hm') hc).symm.trans (getMass_eq hpage hin))
    have hlist : ∀ j' m', m' ∈ Function.update h.listMass j (m :: h.listMass j) j' →
        m' = m ∧ j' = j ∨ m' ∈ h.listMass j' := by
      intro j' m' hm'
      by_cases hjj : j' = j
      · subst hjj
        rw [Function.update_self, List.mem_cons] at hm'
        exact hm'.imp_left fun heq => ⟨heq, rfl⟩
      · rw [Function.update_of_ne hjj] at hm'
        exact .inr hm'
    have hsub : ∀ j' m', m' ∈ h.listMass j' →
        m' ∈ Function.update h.listMass j (m :: h.listMass j) j' := by
      intro j' m' hm'
      by_cases hjj : j' = j
      · subst hjj
        rw [Function.update_self]
        exact List.mem_cons_of_mem _ hm'
      · rwa [Function.update_of_ne hjj]
    generalize hgrown : { ({ h with arena := arena' } : Heap).newMass j m with
        listMass := Function.update h.listMass j (m :: h.listMass j)
        calls := ArenaCall.took m PAGE_SIZE :: h.calls } = h'
    have hmass : h'.mass = Function.update h.mass m ⟨0, j, massCells m (h.size j)⟩ := by
      rw [← hgrown]; rfl
    have hheader : ∀ c, h'.cellSize c =
        if c ∈ massCells m (h.size j) then h.size j else h.cellSize c := by
      rw [← hgrown]; exact fun c => rfl
    have hlists : h'.listMass = Function.update h.listMass j (m :: h.listMass j) := by
      rw [← hgrown]
    have hlarges : h'.listLargeCell = h.listLargeCell := by rw [← hgrown]; rfl
    have hsizes : ∀ i, h'.size i = h.size i := by rw [← hgrown]; exact fun i => rfl
    have hcalls : h'.calls = .took m PAGE_SIZE :: h.calls := by rw [← hgrown]
    have hperm : h'.taken.Perm (pageBlock m :: h.taken) := by
      have hj9 : j < BUCKET_SIZE := Nat.lt_trans hj (by decide)
      have hpages := flatMap_update (f := Function.update h.listMass j (m :: h.listMass j)) hj9
        (x := m) (k := h.listMass j) (by rw [Function.update_self])
      rw [Function.update_idem, Function.update_eq_self] at hpages
      have hlarge : h.listLargeCell.map h'.largeBlock = h.listLargeCell.map h.largeBlock := by
        refine List.map_congr_left fun c hc => ?_
        rw [largeBlock, largeBlock, hheader, if_neg (hlargeFar c hc)]
      unfold taken
      rw [hlists, hlarges, hlarge]
      exact (hpages.map pageBlock).append_right _
    have hnewPage : h'.PageSound live j m := by
      refine ⟨by rw [hmass, Function.update_self], ?_, ?_, ?_, ?_⟩
      · intro c hc
        rw [hsizes] at hc ⊢
        rw [hheader, if_pos hc]
      · rw [hmass, Function.update_self]
        exact massCells_nodup _ _
      · intro c
        rw [hmass, Function.update_self, hsizes]
        refine (and_iff_left_of_imp fun hc b hb hplace => ?_).symm
        exact hh.live_not_in hspace hclearTaken hb hplace (hcells c hc)
      · rw [hmass, Function.update_self, hsizes]
        simp
    refine ⟨⟨⟨?_, ?_⟩, ?_, ?_, ?_, ?_, ?_, ?_, hh.distinct⟩, ?_, ?_, ?_, ?_⟩
    · rw [← hgrown]
      exact hh.sized.1
    · rw [← hgrown]
      exact hh.sized.2
    · have harena : h'.arena = arena' := by rw [← hgrown]; rfl
      rw [harena]
      exact hnew.perm (hperm.symm.append_right others)
    · obtain ⟨l, hl, hlp⟩ := hh.calls
      refine ⟨⟨m, PAGE_SIZE⟩ :: l, by rw [hcalls, outstanding, hl]; rfl, ?_⟩
      exact (hlp.cons _).trans (hperm.map Block.extent).symm
    · intro j' m' hm'
      rw [hlists] at hm'
      rcases hlist j' m' hm' with ⟨-, rfl⟩ | hm'
      · exact hj
      · exact hh.buckets j' m' hm'
    · intro j' m' hm'
      rw [hlists] at hm'
      rcases hlist j' m' hm' with ⟨rfl, rfl⟩ | hm'
      · exact hnewPage
      · refine (hh.pages j' m' hm').congr (hsizes _) ?_ (fun c hc => ?_) fun _ _ => Iff.rfl
        · rw [hmass, Function.update_of_ne (hfar j' m' hm')]
        · rw [hheader, if_neg (hpagesFar j' m' hm' c hc)]
    · intro c hc
      rw [hlarges] at hc
      have hthresh : h'.thresh = h.thresh := by rw [← hgrown]; rfl
      rw [hheader, if_neg (hlargeFar c hc), hthresh]
      exact hh.large c hc
    · intro b hb
      refine (hh.liveAt b hb).mono hsizes (fun i _ m' hm' _ _ _ => ?_) fun _ c hc _ => ⟨?_, ?_⟩
      · rw [hlists]
        exact hsub i m' hm'
      · rwa [hlarges]
      · rw [hheader, if_neg (hlargeFar c hc)]
    · rw [hlists, Function.update_self]
      exact List.mem_cons_self
    · rw [hmass, Function.update_self, hsizes]
    · rw [← hgrown]
      rfl
    · rintro j' m' hm' ⟨hne, h0⟩
      rw [hlists] at hm'
      rcases hlist j' m' hm' with ⟨rfl, -⟩ | hm'
      · exact .inl rfl
      · rw [hmass, Function.update_of_ne (hfar j' m' hm')] at h0
        exact .inr ⟨hm', by rwa [hsizes] at hne, h0⟩

/-- A request that is rounded up and has its header without leaving the words. -/
theorem roundSize_spec (hn : n ≤ 4294967232) :
    n ≤ roundSize n ∧ roundSize n + CELL_SIZE < 4294967296 ∧
      (roundSize n + CELL_SIZE) % Arena.ALIGN = 0 := by
  have hword : wordSub (word (n + Arena.ALIGN)) 1 = n + 31 := by
    unfold Arena.ALIGN
    rw [word_of_lt (by omega), wordSub_of_le (by omega)]
    omega
  have hround : roundSize n = (n + 31) / 2 ^ 5 * 2 ^ 5 := by
    unfold roundSize
    rw [hword]
    exact and_wordNot_low (k := 5) (by decide) (by omega)
  simp only [hround, CELL_SIZE, Arena.ALIGN]
  omega

/-- A large block. -/
theorem allocLarge (hh : h.Holds space others live) (hspace : Region space)
    (hlarge : h.isLargeCell n = true) (hn : n ≤ 4294967232) {h' : Heap}
    (ha : h.allocLarge n = (some c, h')) :
    h'.Holds space others (⟨c + CELL_SIZE, n, none⟩ :: live) ∧ h'.listMass = h.listMass ∧
      ∀ j' m', m' ∈ h.listMass j' → h'.Unused j' m' → h.Unused j' m' := by
  obtain ⟨hle, hfit, hunit⟩ := roundSize_spec hn
  have hthresh : h.thresh < n := of_decide_eq_true hlarge
  have hcell : 0 < CELL_SIZE := by decide
  unfold Heap.allocLarge at ha
  simp only [word_of_lt hfit] at ha
  split at ha
  · cases ha
  · rename_i place arena' halloc
    cases ha
    have hnew := hh.arena.alloc hspace (by omega) hunit hfit halloc
    have hclear := (List.pairwise_cons.mp hnew.disjoint).1
    have hfar : ∀ t ∈ h.taken, Apart ⟨c, roundSize n + CELL_SIZE⟩ t.extent :=
      fun t ht => hclear t (List.mem_append_left _ ht)
    have hpages : ∀ j m, m ∈ h.listMass j → ∀ x ∈ massCells m (h.size j), x ≠ c := by
      rintro j m hm x hx rfl
      have hapart := hfar _ (hh.page_mem hm)
      obtain ⟨hleft, hright⟩ := massCells_mem (hh.pageAt hspace hm) hx
      simp only [Apart, Extent.right, Block.extent, pageBlock] at hapart
      omega
    have hlarges : ∀ x ∈ h.listLargeCell, x ≠ c := by
      rintro x hx rfl
      have hapart := hfar _ (large_mem hx)
      simp only [Apart, Extent.right, Block.extent, largeBlock, hh.large_size hx] at hapart
      omega
    have hfresh : c + CELL_SIZE ∉ live.map HeapBlock.place := by
      intro hmem
      obtain ⟨b, hb, hplace⟩ := List.mem_map.mp hmem
      refine hh.live_not_in hspace (t := ⟨c, roundSize n + CELL_SIZE, 0⟩) hfar hb hplace
        ⟨Nat.le_refl _, ?_⟩
      dsimp only
      omega
    generalize hgrown : ({ h with
      arena := arena'
      cellSize := Function.update h.cellSize c (roundSize n)
      listLargeCell := h.listLargeCell ++ [c]
      calls := ArenaCall.took c (roundSize n + CELL_SIZE) :: h.calls } : Heap) = h'
    have hheader : ∀ x, x ≠ c → h'.cellSize x = h.cellSize x := by
      rw [← hgrown]; exact fun x hx => Function.update_of_ne hx ..
    have hown : h'.cellSize c = roundSize n := by
      rw [← hgrown]; exact Function.update_self ..
    have hlists : h'.listMass = h.listMass := by rw [← hgrown]
    have hlargeList : h'.listLargeCell = h.listLargeCell ++ [c] := by rw [← hgrown]
    have hmass : h'.mass = h.mass := by rw [← hgrown]
    have hsizes : ∀ i, h'.size i = h.size i := by rw [← hgrown]; exact fun i => rfl
    have hthresh' : h'.thresh = h.thresh := by rw [← hgrown]
    have hperm : h'.taken.Perm (⟨c, roundSize n + CELL_SIZE, Arena.ALIGN⟩ :: h.taken) := by
      have hold : h.listLargeCell.map h'.largeBlock = h.listLargeCell.map h.largeBlock :=
        List.map_congr_left fun x hx => by
          rw [largeBlock, largeBlock, hheader x (hlarges x hx)]
      have hblock : h'.largeBlock c = ⟨c, roundSize n + CELL_SIZE, Arena.ALIGN⟩ := by
        rw [largeBlock, hown, word_of_lt hfit]
      unfold taken
      rw [hlists, hlargeList, List.map_append, hold, List.map_singleton, hblock,
        ← List.append_assoc]
      exact List.perm_append_singleton _ _
    refine ⟨⟨⟨?_, hthresh'.trans hh.sized.2⟩, ?_, ?_, ?_, ?_, ?_, ?_, ?_⟩, hlists, ?_⟩
    · rw [← hgrown]
      exact hh.sized.1
    · have harena : h'.arena = arena' := by rw [← hgrown]
      rw [harena]
      exact hnew.perm (hperm.symm.append_right others)
    · obtain ⟨l, hl, hlp⟩ := hh.calls
      have hcalls : h'.calls = .took c (roundSize n + CELL_SIZE) :: h.calls := by rw [← hgrown]
      refine ⟨⟨c, roundSize n + CELL_SIZE⟩ :: l, by rw [hcalls, outstanding, hl]; rfl, ?_⟩
      exact (hlp.cons _).trans (hperm.map Block.extent).symm
    · rw [hlists]
      exact hh.buckets
    · rw [hlists]
      intro j m hm
      refine (hh.pages j m hm).congr (hsizes j) (by rw [hmass])
        (fun x hx => hheader x (hpages j m hm x hx)) fun x hx => ?_
      rw [List.forall_mem_cons]
      exact and_iff_right fun heq => hpages j m hm x hx (Nat.add_right_cancel heq).symm
    · intro x hx
      rw [hlargeList, List.mem_append, List.mem_singleton] at hx
      rcases hx with hx | rfl
      · obtain ⟨h1, h2, b, hb, hplace⟩ := hh.large x hx
        rw [hheader x (hlarges x hx), hthresh']
        exact ⟨h1, h2, b, List.mem_cons_of_mem _ hb, hplace⟩
      · rw [hown, hthresh']
        exact ⟨Nat.lt_of_lt_of_le hthresh hle, hfit, _, List.mem_cons_self, rfl⟩
    · refine List.forall_mem_cons.mpr ⟨⟨c, by simp [hlargeList], rfl, by rwa [hown]⟩,
        fun b hb => (hh.liveAt b hb).mono hsizes (fun i _ m hm _ _ _ => by rwa [hlists])
          fun _ x hx _ => ⟨by simp [hlargeList, hx], hheader x (hlarges x hx)⟩⟩
    · exact List.nodup_cons.mpr ⟨hfresh, hh.distinct⟩
    · rintro j' m' - ⟨hne, h0⟩
      rw [hsizes] at hne
      rw [hmass] at h0
      exact ⟨hne, h0⟩

/-- The block of a live block in the lists of the heap goes back to the arena. -/
theorem outstanding_gave {calls : List ArenaCall} {t : Block} {l l' : List Block}
    (hc : ∃ k, outstanding calls = some k ∧ k.Perm (l.map Block.extent))
    (hl : l.Perm (t :: l')) :
    ∃ k, outstanding (.gave t.place t.size :: calls) = some k ∧
      k.Perm (l'.map Block.extent) := by
  obtain ⟨k, hk, hp⟩ := hc
  have hmem : t.extent ∈ k := by
    rw [hp.mem_iff]
    exact List.mem_map_of_mem (hl.mem_iff.mpr List.mem_cons_self)
  refine ⟨k.erase t.extent, ?_, ?_⟩
  · rw [outstanding, hk]
    exact if_pos hmem
  · have h1 := hp.trans (hl.map Block.extent)
    exact (List.perm_cons_erase hmem).symm.trans h1 |>.cons_inv

/-- A freed block only frees its own place. -/
theorem erase_free_iff (hb : b ∈ live) {x : Nat} (hx : b.place ≠ x) :
    (∀ b' ∈ live.erase b, b'.place ≠ x) ↔ ∀ b' ∈ live, b'.place ≠ x := by
  refine ⟨fun hall b' hb' => ?_, fun hall b' hb' => hall b' (List.mem_of_mem_erase hb')⟩
  rcases List.mem_cons.mp ((List.perm_cons_erase hb).mem_iff.mp hb') with rfl | hb'
  · exact hx
  · exact hall b' hb'

/-- The live blocks without one have other places. -/
theorem distinct_erase (hd : (live.map HeapBlock.place).Nodup) (hb : b ∈ live) :
    ((live.erase b).map HeapBlock.place).Nodup ∧ ∀ b' ∈ live.erase b, b'.place ≠ b.place := by
  have hperm := ((List.perm_cons_erase hb).map HeapBlock.place).nodup_iff.mp hd
  obtain ⟨hnot, hrest⟩ := List.nodup_cons.mp hperm
  exact ⟨hrest, fun b' hb' heq => hnot (heq ▸ List.mem_map_of_mem hb')⟩

/-- The live block at a place is another one than the freed block. -/
theorem mem_erase_of_place {b' : HeapBlock} (hb' : b' ∈ live) (hne : b'.place ≠ b.place) :
    b' ∈ live.erase b :=
  (List.mem_erase_of_ne fun heq => hne (by rw [heq])).mpr hb'

/-- A large block that is given back. -/
theorem freeLarge (hh : h.Holds space others live) (hspace : Region space) (hb : b ∈ live)
    (hc : c ∈ h.listLargeCell) (hplace : b.place = c + CELL_SIZE) :
    (h.freeLarge c).Holds space others (live.erase b) := by
  have hperm : h.taken.Perm (h.largeBlock c :: (h.freeLarge c).taken) :=
    (((List.perm_cons_erase hc).map h.largeBlock).append_left _).trans List.perm_middle
  have hmem : h.largeBlock c ∈ h.taken ++ others := List.mem_append_left _ (large_mem hc)
  have hfree := hh.arena.free hspace hmem
  have hrest : ((h.taken ++ others).erase (h.largeBlock c)).Perm
      ((h.freeLarge c).taken ++ others) :=
    ((List.perm_cons_erase hmem).symm.trans (hperm.append_right others)).cons_inv
  have hnodup : h.listLargeCell.Nodup := by
    have hall := (List.nodup_append.mp (List.nodup_append.mp hh.arena.nodup).1).2.1
    exact List.Nodup.of_map _ hall
  have hcell : 0 < CELL_SIZE := by decide
  obtain ⟨hdistinct, hother⟩ := distinct_erase hh.distinct hb
  refine ⟨⟨hh.sized.1, hh.sized.2⟩, hfree.perm hrest, outstanding_gave hh.calls hperm, hh.buckets,
    ?_, ?_, ?_, hdistinct⟩
  · intro j m hm
    refine (hh.pages j m hm).congr rfl rfl (fun _ _ => rfl) fun x hx => ?_
    refine erase_free_iff hb fun heq => ?_
    obtain rfl : c = x := Nat.add_right_cancel (hplace.symm.trans heq)
    obtain ⟨hleft, hright⟩ := massCells_mem (hh.pageAt hspace hm) hx
    have := hh.large_apart hc hm
    omega
  · intro x hx
    obtain ⟨hne, hx⟩ := hnodup.mem_erase_iff.mp hx
    obtain ⟨h1, h2, b', hb', hplace'⟩ := hh.large x hx
    refine ⟨h1, h2, b', mem_erase_of_place hb' fun heq => hne ?_, hplace'⟩
    exact Nat.add_right_cancel (hplace'.symm.trans (heq.trans hplace))
  · intro b' hb'
    refine (hh.liveAt b' (List.mem_of_mem_erase hb')).mono (fun _ => rfl)
      (fun _ _ _ hm _ _ _ => hm) fun _ x hx hplace' => ⟨?_, rfl⟩
    refine hnodup.mem_erase_iff.mpr ⟨fun heq => hother b' hb' ?_, hx⟩
    rw [hplace', hplace, heq]

/-- A small block that is given back, when its page stays. -/
theorem putCell (hh : h.Holds space others live) (hspace : Region space) (hb : b ∈ live)
    (hm : m ∈ h.listMass j) (hc : c ∈ massCells m (h.size j))
    (hplace : b.place = c + CELL_SIZE) :
    (h.setMass m ⟨(h.mass m).used - 1, (h.mass m).bucket, c :: (h.mass m).listCell⟩).Holds
      space others (live.erase b) := by
  have hp := hh.pages j m hm
  have hnot : c ∉ (h.mass m).listCell := fun hin => ((hp.free c).mp hin).2 b hb hplace
  obtain ⟨hdistinct, hother⟩ := distinct_erase hh.distinct hb
  refine hh.setMass ?_ ?_ ?_ ?_ hdistinct
  · intro j' hm'
    obtain rfl := hh.bucket_eq hm hm'
    refine ⟨by simpa using hp.bucket, hp.headers, ?_, fun x => ?_, ?_⟩
    · rw [setMass_mass_self]
      exact List.nodup_cons.mpr ⟨hnot, hp.nodup⟩
    · rw [setMass_mass_self, setMass_size, List.mem_cons, hp.free x]
      by_cases hxc : x = c
      · subst hxc
        refine ⟨fun _ => ⟨hc, fun b' hb' => ?_⟩, fun _ => .inl rfl⟩
        rw [← hplace]
        exact hother b' hb'
      · rw [or_iff_right hxc]
        refine and_congr_right fun _ => (erase_free_iff hb fun heq => hxc ?_).symm
        exact Nat.add_right_cancel (heq.symm.trans hplace)
    · have hused := hp.used
      simp only [setMass_mass_self, setMass_size, List.length_cons]
      omega
  · intro j' m' hm' hmm x hx
    refine erase_free_iff hb fun heq => ?_
    exact hh.cell_ne hspace hm hm' hmm hc hx (Nat.add_right_cancel (heq.symm.trans hplace))
  · intro x hx
    obtain ⟨h1, -, b', hb', hplace'⟩ := hh.large x hx
    refine ⟨b', mem_erase_of_place hb' fun heq => ?_, hplace'⟩
    obtain rfl : x = c := Nat.add_right_cancel (hplace'.symm.trans (heq.trans hplace))
    obtain ⟨hleft, hright⟩ := massCells_mem (hh.pageAt hspace hm) hc
    have := hh.large_apart hx hm
    have hcell : 0 < CELL_SIZE := by decide
    omega
  · exact fun b' hb' => hh.liveAt b' (List.mem_of_mem_erase hb')

/-- A page all of whose cells are free goes back to the arena. -/
theorem freeMass (hh : h.Holds space others live) (hspace : Region space)
    (hm : m ∈ h.listMass j) (hcells : massCells m (h.size j) ≠ []) (hused : (h.mass m).used = 0) :
    (Heap.freeMass { h with
      listMass := Function.update h.listMass j ((h.listMass j).erase m) } m).Holds
        space others live ∧
      ∀ i, m ∉ Function.update h.listMass j ((h.listMass j).erase m) i := by
  have hp := hh.pages j m hm
  have hfree : ∀ c ∈ massCells m (h.size j), c ∈ (h.mass m).listCell := by
    intro c hc
    refine Classical.byContradiction fun hnot => ?_
    have hle := (List.subperm_of_subset (List.nodup_cons.mpr ⟨hnot, hp.nodup⟩)
      (List.cons_subset.mpr ⟨hc, fun x hx => ((hp.free x).mp hx).1⟩)).length_le
    have := hp.used
    rw [List.length_cons] at hle
    omega
  have hj9 : j < BUCKET_SIZE := Nat.lt_trans (hh.buckets j m hm) (by decide)
  have hperm : h.taken.Perm (pageBlock m :: (Heap.freeMass { h with
      listMass := Function.update h.listMass j ((h.listMass j).erase m) } m).taken) :=
    ((flatMap_update hj9 (List.perm_cons_erase hm)).map pageBlock).append_right _
  have hmem : pageBlock m ∈ h.taken ++ others := List.mem_append_left _ (hh.page_mem hm)
  have harena := hh.arena.free hspace hmem
  have hrest := ((List.perm_cons_erase hmem).symm.trans (hperm.append_right others)).cons_inv
  have hsub : ∀ i x, x ∈ Function.update h.listMass j ((h.listMass j).erase m) i →
      x ∈ h.listMass i := by
    intro i x hx
    by_cases hij : i = j
    · subst hij
      rw [Function.update_self] at hx
      exact List.mem_of_mem_erase hx
    · rwa [Function.update_of_ne hij] at hx
  refine ⟨⟨⟨hh.sized.1, hh.sized.2⟩, harena.perm hrest, outstanding_gave hh.calls hperm,
    fun i x hx => hh.buckets i x (hsub i x hx), fun i x hx => ?_, hh.large, fun b hb => ?_,
    hh.distinct⟩, fun i hi => ?_⟩
  · have hx' := hh.pages i x (hsub i x hx)
    exact ⟨hx'.bucket, hx'.headers, hx'.nodup, hx'.free, hx'.used⟩
  · refine (hh.liveAt b hb).mono (fun _ => rfl) (fun i _ x hx c hc hplace => ?_)
      fun _ c hc _ => ⟨hc, rfl⟩
    show x ∈ Function.update h.listMass j ((h.listMass j).erase m) i
    by_cases hij : i = j
    · subst hij
      rw [Function.update_self]
      refine (List.mem_erase_of_ne fun heq => ?_).mpr hx
      subst heq
      exact ((hp.free c).mp (hfree c hc)).2 b hb hplace
    · rwa [Function.update_of_ne hij]
  · have hnodup := hperm.nodup_iff.mp (List.nodup_append.mp hh.arena.nodup).1
    refine (List.nodup_cons.mp hnodup).1 (List.mem_append_left _ (List.mem_map_of_mem ?_))
    refine List.mem_flatMap.mpr ⟨i, List.mem_range.mpr ?_, hi⟩
    exact Nat.lt_trans (hh.buckets i m (hsub i m hi)) (by decide)

end Holds

/-! ## Calls -/

/-- The invariant: no page is left without a live block. -/
structure Sound (space : Extent) (others : List Block) (h : Heap) (live : List HeapBlock) :
    Prop extends Holds space others h live where
  busy : ∀ j m, m ∈ h.listMass j → ¬h.Unused j m

namespace Sound

variable {space : Extent} {others : List Block} {h : Heap} {live : List HeapBlock} {b : HeapBlock}
  {j m c n : Nat}

theorem new {a : ArenaState} (ha : a.Sound space) : Sound space a.live (.new a.arena) [] := by
  refine ⟨⟨⟨rfl, by rw [Heap.new, initBuckets_eq]⟩, ?_, ⟨[], rfl, ?_⟩, ?_, ?_, ?_, ?_, ?_⟩, ?_⟩
  · have htaken : (Heap.new a.arena).taken = [] := by
      simp [taken, Heap.new]
    rw [htaken]
    exact ha
  all_goals simp [taken, Heap.new]

/-- A small block from the bucket that `getBucket` chose. -/
theorem bucketAlloc (hh : h.Sound space others live) (hspace : Region space) (hj : j < 7)
    (hn : n ≤ h.size j) :
    match h.bucketAlloc j with
    | (none, h') => h'.Sound space others live
    | (some c, h') => h'.Sound space others (⟨c + CELL_SIZE, n, some j⟩ :: live) := by
  unfold Heap.bucketAlloc
  cases hfind : (h.listMass j).find? fun m => !(h.mass m).listCell.isEmpty with
  | some m =>
    have hm := List.mem_of_find?_eq_some hfind
    have hsome := List.find?_some (p := fun m => !(h.mass m).listCell.isEmpty) hfind
    cases hcell : (h.mass m).listCell with
    | nil => simp [hcell] at hsome
    | cons c rest =>
      obtain ⟨h', hget, hholds, hlist, hunused⟩ := hh.toHolds.getCell hspace hm hcell hn
      simp only [hget]
      refine ⟨hholds, fun j' m' hm' hun => ?_⟩
      rw [hlist] at hm'
      exact hh.busy j' m' hm' (hunused j' m' hm' hun).2
  | none =>
    cases hmass : h.allocMass j with
    | none => exact hh
    | some r =>
      obtain ⟨m, h₁⟩ := r
      obtain ⟨hholds, hm, hcells, hsizes, hunused⟩ := hh.toHolds.allocMass hspace hj hmass
      have hsize : h₁.size j = h.size j := by rw [size, size, hsizes]
      simp only
      cases hcell : (h₁.mass m).listCell with
      | nil =>
        rw [Heap.getCell, hcell]
        refine ⟨hholds, fun j' m' hm' hun => ?_⟩
        rcases hunused j' m' hm' hun with rfl | ⟨hm', hun⟩
        · obtain rfl := hholds.bucket_eq hm hm'
          exact hun.1 (hcells.symm.trans hcell)
        · exact hh.busy j' m' hm' hun
      | cons c rest =>
        obtain ⟨h', hget, hholds', hlist, hunused'⟩ :=
          hholds.getCell hspace hm hcell (n := n) (by rwa [hsize])
        rw [hget]
        refine ⟨hholds', fun j' m' hm' hun => ?_⟩
        rw [hlist] at hm'
        obtain ⟨hne, hun⟩ := hunused' j' m' hm' hun
        rcases hunused j' m' hm' hun with rfl | ⟨hm', hun⟩
        · exact hne rfl
        · exact hh.busy j' m' hm' hun

theorem alloc (hh : h.Sound space others live) (hspace : Region space) (hpos : 0 < n)
    (hok : n ≤ 4294967232 ∨ h.arena.unused = []) :
    match h.alloc n with
    | (none, h') => h'.Sound space others live
    | (some place, h') => h'.Sound space others
        (⟨place, n, if h.isLargeCell n then none else h.getBucket n⟩ :: live) := by
  unfold Heap.alloc
  by_cases hlarge : h.isLargeCell n = true
  · simp only [hlarge, if_true]
    rcases hok with hn | hempty
    · cases halloc : h.allocLarge n with
      | mk cell h' =>
        cases cell with
        | none =>
          have hsame : h' = h := by
            unfold Heap.allocLarge at halloc
            simp only at halloc
            split at halloc <;> cases halloc
            rfl
          exact hsame ▸ hh
        | some c =>
          obtain ⟨hholds, hlist, hunused⟩ := hh.toHolds.allocLarge hspace hlarge hn halloc
          refine ⟨hholds, fun j' m' hm' hun => ?_⟩
          rw [hlist] at hm'
          exact hh.busy j' m' hm' (hunused j' m' hm' hun)
    · have halloc : h.allocLarge n = (none, h) := by
        unfold Heap.allocLarge Arena.alloc
        rw [hempty]
        rfl
      rw [halloc]
      exact hh
  · have hle : n ≤ h.thresh := Nat.le_of_not_lt fun hlt => hlarge (decide_eq_true hlt)
    obtain ⟨j, hbucket, hj, hn⟩ := getBucket_spec hh.sized hpos hle
    simp only [hlarge, hbucket, Bool.false_eq_true, if_false]
    have hspec := hh.bucketAlloc hspace hj hn
    cases halloc : h.bucketAlloc j with
    | mk cell h' =>
      rw [halloc] at hspec
      cases cell with
      | none => exact hspec
      | some c => exact hspec

/-- The header of a live block tells where it came from. -/
theorem home_eq (hh : h.Sound space others live) (hspace : Region space) (hb : b ∈ live) :
    h.home b.place = b.bucket ∧ b.size ≤ h.cellSize (b.place - CELL_SIZE) := by
  have hlive := hh.liveAt b hb
  unfold LiveAt at hlive
  split at hlive
  · rename_i j hj
    obtain ⟨m, hm, c, hc, hplace, hle⟩ := hlive
    have hhead := (hh.pages j m hm).headers c hc
    have hsmall : h.isLargeCell (h.size j) = false := by
      rw [isLargeCell, hh.sized.thresh, decide_eq_false_iff_not]
      exact Nat.not_lt.mpr (hh.sized.size_le j)
    rw [hplace, home, Nat.add_sub_cancel, hhead, hsmall, getMass_eq (hh.pageAt hspace hm) hc,
      (hh.pages j m hm).bucket, hj]
    exact ⟨rfl, hle⟩
  · rename_i hnone
    obtain ⟨c, hc, hplace, hle⟩ := hlive
    have hlarge : h.isLargeCell (h.cellSize c) = true := decide_eq_true (hh.large c hc).1
    rw [hplace, home, Nat.add_sub_cancel, hlarge, hnone]
    exact ⟨rfl, hle⟩

theorem free (hh : h.Sound space others live) (hspace : Region space) (hb : b ∈ live) :
    (h.free b.place).Sound space others (live.erase b) := by
  have hhome := (hh.home_eq hspace hb).1
  have hlive := hh.liveAt b hb
  unfold Heap.free
  unfold home at hhome
  unfold LiveAt at hlive
  split at hlive
  · rename_i j hj
    obtain ⟨m, hm, c, hc, hplace, -⟩ := hlive
    rw [hj] at hhome
    split at hhome
    · cases hhome
    rename_i hsmall
    simp only [hsmall, Bool.false_eq_true, if_false]
    rw [hplace, Nat.add_sub_cancel, getMass_eq (hh.pageAt hspace hm) hc]
    have hput := hh.toHolds.putCell hspace hb hm hc hplace
    have hbucket := (hh.pages j m hm).bucket
    unfold Heap.bucketFree
    simp only
    split
    · rename_i h0
      obtain ⟨hfreed, hgone⟩ := hput.freeMass (j := j) (m := m) hspace hm (List.ne_nil_of_mem hc)
        (by rw [setMass_mass_self]; exact h0)
      rw [hbucket] at hfreed ⊢
      refine ⟨hfreed, fun j' m' hm' hun => ?_⟩
      have hne : m' ≠ m := fun heq => hgone j' (heq ▸ hm')
      have hm'' : m' ∈ h.listMass j' := by
        by_cases hjj : j' = j
        · subst hjj
          exact List.mem_of_mem_erase (by simpa [Heap.freeMass] using hm')
        · simpa [Heap.freeMass, Function.update_of_ne hjj] using hm'
      refine hh.busy j' m' hm'' ⟨hun.1, ?_⟩
      have h0' : ((h.setMass m ⟨_, _, c :: (h.mass m).listCell⟩).mass m').used = 0 := hun.2
      rwa [setMass_mass_ne h _ hne] at h0'
    · rename_i h0
      refine ⟨hput, fun j' m' hm' hun => ?_⟩
      by_cases hne : m' = m
      · subst hne
        have h0' := hun.2
        rw [setMass_mass_self] at h0'
        exact h0 h0'
      · refine hh.busy j' m' hm' ⟨hun.1, ?_⟩
        have h0' := hun.2
        rwa [setMass_mass_ne h _ hne] at h0'
  · rename_i hnone
    obtain ⟨c, hc, hplace, -⟩ := hlive
    rw [hnone] at hhome
    split at hhome
    · rename_i hlarge
      simp only [hlarge, if_true]
      rw [hplace, Nat.add_sub_cancel]
      exact ⟨hh.toHolds.freeLarge hspace hb hc hplace, hh.busy⟩
    · cases hhome

/-- The payloads of two live blocks share no byte. -/
theorem payload_apart (hh : h.Sound space others live) (hspace : Region space)
    {b' : HeapBlock} (hb : b ∈ live) (hb' : b' ∈ live) (hne : b.place ≠ b'.place) :
    Apart ((HeapState.mk h live).payload b) ((HeapState.mk h live).payload b') := by
  have hcell : 0 < CELL_SIZE := by decide
  have hlive := hh.liveAt b hb
  have hlive' := hh.liveAt b' hb'
  simp only [HeapState.payload, Apart, Extent.right]
  unfold LiveAt at hlive hlive'
  split at hlive <;> split at hlive'
  · rename_i j _ _ j' _
    obtain ⟨m, hm, c, hc, hplace, -⟩ := hlive
    obtain ⟨m', hm', c', hc', hplace', -⟩ := hlive'
    rw [hplace, hplace', Nat.add_sub_cancel, Nat.add_sub_cancel,
      (hh.pages j m hm).headers c hc, (hh.pages j' m' hm').headers c' hc']
    by_cases hmm : m = m'
    · -- two cells of one page
      subst hmm
      obtain rfl := hh.bucket_eq hm hm'
      have hcc : c ≠ c' := fun heq => hne (by rw [hplace, hplace', heq])
      have : Std.Symm fun x y : Nat =>
          x + CELL_SIZE + h.size j ≤ y ∨ y + CELL_SIZE + h.size j ≤ x := ⟨fun _ _ h => h.symm⟩
      have hall : (massCells m (h.size j)).Pairwise fun x y =>
          x + CELL_SIZE + h.size j ≤ y ∨ y + CELL_SIZE + h.size j ≤ x :=
        (massCells_apart m (h.size j)).imp .inl
      have hapart := hall.forall hc hc' hcc
      omega
    · have hblocks : pageBlock m ≠ pageBlock m' := fun heq => hmm (congrArg Block.place heq)
      have hapart := hh.arena.apart_of_ne (List.mem_append_left _ (hh.page_mem hm))
        (List.mem_append_left _ (hh.page_mem hm')) hblocks
      obtain ⟨hleft, hright⟩ := massCells_mem (hh.pageAt hspace hm) hc
      obtain ⟨hleft', hright'⟩ := massCells_mem (hh.pageAt hspace hm') hc'
      simp only [Apart, Extent.right, Block.extent, pageBlock] at hapart
      omega
  · rename_i j _ _ _
    obtain ⟨m, hm, c, hc, hplace, -⟩ := hlive
    obtain ⟨c', hc', hplace', -⟩ := hlive'
    rw [hplace, hplace', Nat.add_sub_cancel, Nat.add_sub_cancel,
      (hh.pages j m hm).headers c hc]
    obtain ⟨hleft, hright⟩ := massCells_mem (hh.pageAt hspace hm) hc
    have := hh.large_apart hc' hm
    omega
  · rename_i j _
    obtain ⟨c, hc, hplace, -⟩ := hlive
    obtain ⟨m', hm', c', hc', hplace', -⟩ := hlive'
    rw [hplace, hplace', Nat.add_sub_cancel, Nat.add_sub_cancel,
      (hh.pages j m' hm').headers c' hc']
    obtain ⟨hleft, hright⟩ := massCells_mem (hh.pageAt hspace hm') hc'
    have := hh.large_apart hc hm'
    omega
  · obtain ⟨c, hc, hplace, -⟩ := hlive
    obtain ⟨c', hc', hplace', -⟩ := hlive'
    have hcc : c ≠ c' := fun heq => hne (by rw [hplace, hplace', heq])
    have hblocks : h.largeBlock c ≠ h.largeBlock c' := fun heq => hcc (congrArg Block.place heq)
    have hapart := hh.arena.apart_of_ne (List.mem_append_left _ (Holds.large_mem hc))
      (List.mem_append_left _ (Holds.large_mem hc')) hblocks
    simp only [Apart, Extent.right, Block.extent, largeBlock, hh.large_size hc,
      hh.large_size hc'] at hapart
    rw [hplace, hplace', Nat.add_sub_cancel, Nat.add_sub_cancel]
    omega

/-- Giving back all the pages taken leaves nothing with the heap. -/
theorem outstanding_pages (pages : List Nat) (h : Heap)
    (hc : ∃ k, outstanding h.calls = some k ∧
      k.Perm ((pages.map pageBlock).map Block.extent)) :
    outstanding (pages.foldl freeMass h).calls = some [] := by
  induction pages generalizing h with
  | nil =>
    obtain ⟨k, hk, hp⟩ := hc
    rw [List.foldl_nil, hk, hp.eq_nil]
  | cons m pages ih =>
    rw [List.foldl_cons]
    exact ih _ (Holds.outstanding_gave (t := pageBlock m) hc (List.Perm.refl _))

/-- The destructor after the last block has been given back. -/
theorem destroy (hh : h.Sound space others []) : outstanding h.destroy.calls = some [] := by
  have hlarge : h.listLargeCell = [] := by
    refine List.eq_nil_iff_forall_not_mem.mpr fun c hc => ?_
    obtain ⟨-, -, b, hb, -⟩ := hh.large c hc
    cases hb
  have hcalls := hh.calls
  unfold taken at hcalls
  rw [hlarge, List.map_nil, List.append_nil] at hcalls
  unfold Heap.destroy
  rw [hlarge]
  exact outstanding_pages _ h hcalls

end Sound

end Heap

theorem HeapState.run {space : Extent} (hspace : Region space) {a : ArenaState}
    (ha : a.Sound space) {s : HeapState}
    (hrun : (heapSystem a.arena).RunWith HeapState.Meets s) :
    s.heap.Sound space a.live s.live := by
  refine hrun.invariant (fun s => s.heap.Sound space a.live s.live) (fun s hs => ?_)
    fun s op s' hh hok hstep => ?_
  · obtain rfl : s = _ := hs
    exact .new ha
  · cases op with
    | free b =>
      change (if b ∈ s.live then _ else _) = some s' at hstep
      split at hstep
      · cases hstep
        exact hh.free hspace ‹_›
      · cases hstep
    | alloc size =>
      change (if 0 < size ∧ size < 4294967296 then _ else _) = some s' at hstep
      split at hstep
      · rename_i hsize
        have hspec := hh.alloc hspace hsize.1 hok
        cases halloc : s.heap.alloc size with
        | mk place h' =>
          rw [halloc] at hspec hstep
          cases place with
          | none =>
            cases hstep
            exact hspec
          | some place =>
            cases hstep
            exact hspec
      · cases hstep

/-- In a run over an arena whose requests stay words with their headers, the payloads of the live
    blocks lie apart, in memory that the heap took from the arena, and hold what was asked for;
    `getBucket` finds a bucket large enough up to the threshold; `free` gives every block back to
    where it came from; and once all are freed the destructor has given the arena back what was
    taken, each piece as it was taken. -/
theorem heap_sound {space : Extent} (hspace : Region space) {a : ArenaState} (ha : a.Sound space)
    {s : HeapState} (hrun : (heapSystem a.arena).RunWith HeapState.Meets s) :
    s.live.Pairwise (fun b b' => Apart (s.payload b) (s.payload b')) ∧
      (∀ b ∈ s.live, b.size ≤ (s.payload b).size ∧
        ∃ t ∈ s.heap.taken, Within (s.payload b) t.extent) ∧
      (∀ n, 0 < n → n ≤ s.heap.thresh →
        ∃ bucket, s.heap.getBucket n = some bucket ∧ n ≤ s.heap.size bucket) ∧
      (∀ b ∈ s.live, s.heap.home b.place = b.bucket) ∧
      (s.live = [] → outstanding s.heap.destroy.calls = some []) := by
  have hh := HeapState.run hspace ha hrun
  refine ⟨?_, fun b hb => ⟨(hh.home_eq hspace hb).2, ?_⟩, fun n hpos hn => ?_,
    fun b hb => (hh.home_eq hspace hb).1, fun hlive => ?_⟩
  · exact (List.pairwise_map.mp hh.distinct).imp_of_mem
      fun hb hb' hne => hh.payload_apart hspace hb hb' hne
  · obtain ⟨t, ht, c, hplace, hleft, hright⟩ := hh.live_in hspace hb
    refine ⟨t, ht, ?_⟩
    simp only [HeapState.payload, Within, Extent.right, Block.extent, hplace, Nat.add_sub_cancel]
    omega
  · obtain ⟨bucket, hbucket, -, hle⟩ := Heap.getBucket_spec hh.sized hpos hn
    exact ⟨bucket, hbucket, hle⟩
  · rw [hlive] at hh
    exact hh.destroy

/-- An arena of four pages that nobody has used. -/
def fourPages : Extent := ⟨0x80100000, 16384⟩

/-- The state after the calls given, on a heap over four pages. -/
def heapAfter (ops : List HeapOp) : HeapState :=
  (ops.foldlM HeapState.step ⟨.new (.new fourPages.left fourPages.size), []⟩).getD
    ⟨.new ⟨[]⟩, []⟩

/-- A small and a large block live side by side. -/
theorem heap_sound_mixed :
    ∃ s, (heapSystem (Arena.new fourPages.left fourPages.size)).RunWith HeapState.Meets s ∧
      s.live = [⟨0x80101020, 3000, none⟩, ⟨0x80100040, 5, some 0⟩] ∧
      s.live.Pairwise (fun b b' => Apart (s.payload b) (s.payload b')) := by
  have hspace : Region fourPages := by decide
  have h0 : (heapSystem (Arena.new fourPages.left fourPages.size)).RunWith HeapState.Meets
      (heapAfter []) := .start rfl
  have h1 : (heapSystem (Arena.new fourPages.left fourPages.size)).RunWith HeapState.Meets
      (heapAfter [.alloc 5]) := h0.next (l := .alloc 5) (.inl (by decide)) rfl
  have h2 : (heapSystem (Arena.new fourPages.left fourPages.size)).RunWith HeapState.Meets
      (heapAfter [.alloc 5, .alloc 3000]) := h1.next (l := .alloc 3000) (.inl (by decide)) rfl
  exact ⟨_, h2, by decide, (heap_sound hspace (ArenaState.Sound.new hspace) h2).1⟩

/-- A request that wraps around when it is rounded up gets a block without payload. -/
theorem heap_wraps :
    ∃ s, (heapSystem (Arena.new fourPages.left fourPages.size)).Reachable s ∧
      ∃ b ∈ s.live, (s.payload b).size < b.size := by
  have h0 : (heapSystem (Arena.new fourPages.left fourPages.size)).Reachable (heapAfter []) :=
    .start rfl
  have h1 : (heapSystem (Arena.new fourPages.left fourPages.size)).Reachable
      (heapAfter [.alloc 0xffffffe1]) := h0.next (l := .alloc 0xffffffe1) trivial rfl
  exact ⟨_, h1, by decide⟩

end EsOs.Kernel
