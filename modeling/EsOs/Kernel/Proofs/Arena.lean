import Mathlib.Data.List.TakeWhile
import EsOs.Kernel.Arena

/-!
# What an arena guarantees

A search takes one cell out of the list, and what is left of it goes back in its place; a block
that is freed comes between the cells around it and is joined with those it touches. The invariant
says that the cells and the blocks handed out share the region.
-/

namespace EsOs.Kernel

open EsOs.Lib EsOs.Lib.Extent

namespace Arena

variable {size align place : Nat} {cell : Extent} {cells before after unused : List Extent}

/-! ## Alignment -/

/-- `round` by a power of two. -/
theorem round_eq {k : Nat} (hk : k < 32) {ptr : Nat} :
    round ptr (2 ^ k) = wordSub (word (ptr + 2 ^ k)) 1 / 2 ^ k * 2 ^ k := by
  have hpos : 0 < 2 ^ k := Nat.two_pow_pos k
  unfold round
  rw [wordSub_of_le hpos, and_wordNot_low (Nat.le_of_lt hk)]
  have := word_lt (ptr + 2 ^ k)
  unfold wordSub
  split <;> omega

/-- The padding leads to the next multiple of the alignment. -/
theorem padding_spec {k : Nat} (hk : k < 32) (hcell : cell.left < 4294967296) :
    2 ^ k ∣ cell.left + padding (2 ^ k) cell ∧ padding (2 ^ k) cell < 2 ^ k := by
  have hpos : 0 < 2 ^ k := Nat.two_pow_pos k
  have hlt : 2 ^ k ≤ 2 ^ 31 := Nat.pow_le_pow_right (by decide) (by omega)
  have hword : 2 ^ k ∣ 4294967296 := Nat.pow_dvd_pow 2 (show k ≤ 32 by omega)
  unfold padding
  rw [round_eq hk]
  generalize hp : 2 ^ k = p at *
  by_cases hwrap : cell.left + p ≤ 4294967296
  · -- the sum less one is a word
    have hsum : wordSub (word (cell.left + p)) 1 = cell.left + p - 1 := by
      rcases Nat.lt_or_eq_of_le hwrap with h | h
      · rw [word_of_lt h, wordSub_of_le (by omega)]
      · rw [h]
        rfl
    rw [hsum]
    have hmod := Nat.div_add_mod' (cell.left + p - 1) p
    have hrest := Nat.mod_lt (cell.left + p - 1) hpos
    have hdvd : p ∣ (cell.left + p - 1) / p * p := Nat.dvd_mul_left _ _
    generalize (cell.left + p - 1) / p * p = q at *
    rw [wordSub_of_le (by omega)]
    exact ⟨by rwa [Nat.add_sub_cancel' (by omega)], by omega⟩
  · -- the aligned address is the end of the address space
    have hsum : word (cell.left + p) = cell.left + p - 4294967296 := by
      unfold word
      rw [Nat.mod_eq_sub_mod (by omega), Nat.mod_eq_of_lt (by omega)]
    have hlow : wordSub (cell.left + p - 4294967296) 1 = cell.left + p - 4294967296 - 1 :=
      wordSub_of_le (by omega)
    have hback : wordSub 0 cell.left = 4294967296 - cell.left := by
      unfold wordSub
      rw [if_neg (by omega), Nat.sub_zero]
    rw [hsum, hlow, Nat.div_eq_of_lt (by omega), Nat.zero_mul, hback,
      Nat.add_sub_cancel' (by omega)]
    exact ⟨hword, by omega⟩

/-! ## Allocation -/

theorem search_spec {p : Extent → Bool} (h : search p unused = some (before, cell, after)) :
    unused = before ++ cell :: after ∧ p cell = true := by
  induction unused generalizing before with
  | nil => cases h
  | cons c cells ih =>
    unfold search at h
    split at h
    · cases h
      exact ⟨rfl, ‹_›⟩
    · obtain ⟨⟨before, r⟩, hs, hr⟩ := Option.map_eq_some_iff.mp h
      cases hr
      obtain ⟨heq, hp⟩ := ih hs
      exact ⟨by rw [heq]; rfl, hp⟩

theorem searchLast_spec {p : Extent → Bool} (h : searchLast p unused = some (before, cell, after)) :
    unused = before ++ cell :: after ∧ p cell = true := by
  obtain ⟨⟨back, c, front⟩, hs, hr⟩ := Option.map_eq_some_iff.mp h
  cases hr
  obtain ⟨heq, hp⟩ := search_spec hs
  have hrev := congrArg List.reverse heq
  exact ⟨by simpa using hrev, hp⟩

/-- The block and the cells that one cell is cut into. -/
structure Carved (cell block : Extent) (cells : List Extent) : Prop where
  inside : Within block cell
  within : ∀ x ∈ cells, Within x cell
  apart : ∀ x ∈ cells, Apart block x
  separated : Separated cells
  total : total cells + block.size = cell.size
  aligned : ∀ n, n ∣ cell.left → n ∣ cell.size → n ∣ block.left → n ∣ block.size →
    ∀ x ∈ cells, n ∣ x.left ∧ n ∣ x.size

/-- Cutting a block out of a cell leaves what is in front of it and what is behind it. -/
theorem carved {pad : Nat} (hsize : 0 < size) (hroom : pad + size ≤ cell.size) :
    Carved cell ⟨cell.left + pad, size⟩
      ([(⟨cell.left, pad⟩ : Extent), ⟨cell.left + pad + size, cell.size - size - pad⟩].filter
        fun e => decide (0 < e.size)) := by
  refine ⟨?_, ?_, ?_, ⟨?_, ?_⟩, ?_, ?_⟩
  · simp only [Within, Extent.right]
    omega
  · simp only [List.mem_filter, List.mem_cons, List.not_mem_nil, or_false]
    rintro x ⟨rfl | rfl, -⟩ <;> simp only [Within, Extent.right] <;> omega
  · simp only [List.mem_filter, List.mem_cons, List.not_mem_nil, or_false]
    rintro x ⟨rfl | rfl, -⟩ <;> simp only [Apart, Extent.right] <;> omega
  · simp
  · refine List.Pairwise.filter _ ?_
    simp only [List.pairwise_cons, List.mem_singleton, forall_eq, List.not_mem_nil, false_implies,
      implies_true, List.Pairwise.nil, and_true, Extent.right]
    omega
  · rw [total_filter]
    simp only [total_cons, total_nil]
    omega
  · intro n hleft hsize' hblock hbsize
    have hpad : n ∣ pad := (Nat.dvd_add_right hleft).mp hblock
    simp only [List.mem_filter, List.mem_cons, List.not_mem_nil, or_false]
    rintro x ⟨rfl | rfl, -⟩
    · exact ⟨hleft, hpad⟩
    · exact ⟨Nat.dvd_add hblock hbsize, Nat.dvd_sub (Nat.dvd_sub hsize' hbsize) hpad⟩

theorem carve_spec (hsize : 0 < size) (hright : cell.right ≤ 4294967296)
    (hroom : padding align cell + size ≤ cell.size) :
    ∃ cells, carve size align cell = (cell.left + padding align cell, cells) ∧
      Carved cell ⟨cell.left + padding align cell, size⟩ cells := by
  refine ⟨_, ?_, carved hsize hroom⟩
  unfold carve
  generalize padding align cell = pad at *
  unfold Extent.right at hright
  have hplace : word (cell.left + pad) = cell.left + pad := word_of_lt (by omega)
  rw [wordSub_of_le (by omega)]
  simp only [hplace, wordSub_of_le (show pad ≤ cell.size - size by omega)]
  rw [List.filter_cons, List.filter_cons, List.filter_nil]
  by_cases h0 : pad = 0
  · subst h0
    by_cases hrest : 0 < cell.size - size
    · simp [hrest, word_of_lt (show cell.left + size < 4294967296 by omega)]
    · simp [hrest]
  · have hpos : 0 < pad := Nat.pos_of_ne_zero h0
    by_cases hrest : 0 < cell.size - size - pad
    · simp [h0, hpos, hrest, word_of_lt (show cell.left + pad + size < 4294967296 by omega)]
    · simp [h0, hpos, hrest]

/-! ## Freeing -/

theorem right_eq {cell : Extent} (h : cell.right < 4294967296) : right cell = cell.right :=
  word_of_lt h

/-- Whether two cells in order touch, as the code tests it. -/
theorem right_eq_iff {a b : Extent} (hab : a.right ≤ b.left)
    (hb : b.left < 4294967296) : right a = b.left ↔ a.right = b.left := by
  rw [right_eq (by omega)]

/-- Two cells that touch, joined as the code joins them. -/
theorem gathered_touching {space a b : Extent} (hspace : space.size < 4294967296)
    (ha : Within a space) (hb : Within b space) (h : a.right = b.left) :
    Gathered [a, b] [⟨a.left, word (a.size + b.size)⟩] := by
  have hsize : a.size + b.size < 4294967296 := by
    unfold Within Extent.right at *
    omega
  rw [word_of_lt hsize]
  exact .join h

/-- A cell joined with what it touches behind it. -/
theorem joinNext_spec {space : Extent} (hspace : Region space)
    (hcell : 0 < cell.size) (hin : Within cell space) (hinAfter : ∀ a ∈ after, Within a space)
    (hsep : Separated (before ++ after)) (hafter : ∀ a ∈ after, cell.right ≤ a.left) :
    ∃ c rest, joinNext cell after = (c, rest) ∧ 0 < c.size ∧ c.left = cell.left ∧
      Gathered (cell :: after) (c :: rest) ∧ Separated (before ++ rest) ∧
      ∀ a ∈ rest, c.right < a.left := by
  obtain ⟨-, -, -, hsize, hend⟩ := hspace
  cases after with
  | nil => exact ⟨cell, [], rfl, hcell, rfl, .refl _, hsep, by simp⟩
  | cons next after =>
    have hle := hafter next List.mem_cons_self
    have hnext := hinAfter next List.mem_cons_self
    obtain ⟨hpos, -, hgap⟩ := hsep.mid
    have htest : right cell = next.left ↔ cell.right = next.left :=
      right_eq_iff hle (by unfold Within Extent.right at *; omega)
    by_cases htouch : cell.right = next.left
    · have hjoin := gathered_touching hsize hin hnext htouch
      have hright : word (cell.size + next.size) = cell.size + next.size :=
        word_of_lt (by unfold Within Extent.right at *; omega)
      refine ⟨⟨cell.left, word (cell.size + next.size)⟩, after, if_pos (htest.mpr htouch), ?_, rfl,
        hjoin.append (.refl after), hsep.sublist (by simp), fun a ha => ?_⟩
      · show 0 < word _
        omega
      · have := hgap a ha
        rw [hright]
        unfold Extent.right at *
        dsimp only
        omega
    · refine ⟨cell, next :: after, if_neg (mt htest.mp htouch), hcell, rfl, .refl _, hsep,
        fun a ha => ?_⟩
      rcases List.mem_cons.mp ha with rfl | ha
      · omega
      · have := hgap a ha
        unfold Extent.right at *
        omega

/-- A cell joined with what it touches before it. -/
theorem joinPrev_spec {space : Extent} (hspace : Region space)
    (hcell : 0 < cell.size) (hin : Within cell space) (hinBefore : ∀ a ∈ before, Within a space)
    (hsep : Separated (before ++ after)) (hbefore : ∀ a ∈ before, a.right ≤ cell.left)
    (hafter : ∀ a ∈ after, cell.right < a.left) :
    Gathered (before ++ [cell]) (joinPrev before cell) ∧
      Separated (joinPrev before cell ++ after) := by
  obtain ⟨-, -, -, hsize, hend⟩ := hspace
  have hone : Separated [cell] := ⟨by simpa using hcell, by simp⟩
  unfold joinPrev
  rcases List.eq_nil_or_concat before with rfl | ⟨front, prev, rfl⟩
  · refine ⟨.refl _, ?_⟩
    exact (Separated.refill (l := []) hsep hone (by simp) fun a ha x hx => by
      rw [List.mem_singleton.mp hx]
      exact hafter a ha)
  · simp only [List.concat_eq_append] at *
    have hle := hbefore prev (by simp)
    have hprev := hinBefore prev (by simp)
    rw [List.append_assoc] at hsep
    obtain ⟨hpos, hfront, hgap⟩ := hsep.mid
    have htest : right prev = cell.left ↔ prev.right = cell.left :=
      right_eq_iff hle (by unfold Within Extent.right at *; omega)
    simp only [List.getLast?_append, List.getLast?_singleton,
      Option.some_or, List.dropLast_append_cons, List.dropLast_singleton, List.append_nil, htest]
    by_cases htouch : prev.right = cell.left
    · rw [if_pos htouch, List.append_assoc front]
      have hright : word (prev.size + cell.size) = prev.size + cell.size :=
        word_of_lt (by unfold Within Extent.right at *; omega)
      refine ⟨(Gathered.refl front).append (gathered_touching hsize hprev hin htouch), ?_⟩
      refine (hsep.sublist (by simp)).refill ⟨?_, by simp⟩ (fun a ha x hx => ?_) fun a ha x hx => ?_
      · simp only [List.mem_singleton, forall_eq]
        omega
      · rw [List.mem_singleton.mp hx]
        exact hfront a ha
      · rw [List.mem_singleton.mp hx, hright]
        have := hafter a ha
        unfold Extent.right at *
        dsimp only
        omega
    · rw [if_neg htouch]
      refine ⟨.refl _, ?_⟩
      refine Separated.refill (by rwa [List.append_assoc]) hone (fun a ha x hx => ?_)
        fun a ha x hx => ?_
      · rw [List.mem_singleton.mp hx]
        rcases List.mem_append.mp ha with ha | ha
        · have := hfront a ha
          unfold Extent.right at *
          omega
        · rw [List.mem_singleton.mp ha]
          omega
      · rw [List.mem_singleton.mp hx]
        exact hafter a ha

/-- A block that is given back comes into its place among the cells. -/
theorem free_spec {space : Extent} {a : Arena} (hspace : Region space)
    (hsep : Separated a.unused) (hcells : ∀ c ∈ a.unused, Within c space)
    {b : Extent} (hsize : 0 < b.size) (hin : Within b space)
    (hapart : ∀ c ∈ a.unused, Apart b c) :
    Separated (a.free b.left b.size).unused ∧
      Gathered (b :: a.unused) (a.free b.left b.size).unused := by
  unfold free
  simp only
  have hlist := List.takeWhile_append_dropWhile (p := fun next => !decide (b.left ≤ next.left))
    (l := a.unused)
  have hlow : ∀ c ∈ a.unused.takeWhile (fun next => !decide (b.left ≤ next.left)),
      c.left < b.left := by
    intro c hc
    have := List.mem_takeWhile_imp hc
    simpa using this
  have hhead := List.head?_dropWhile_not (fun next => !decide (b.left ≤ next.left)) a.unused
  generalize a.unused.takeWhile (fun next => !decide (b.left ≤ next.left)) = before at *
  generalize a.unused.dropWhile (fun next => !decide (b.left ≤ next.left)) = after at *
  rw [← hlist] at hsep hcells hapart ⊢
  have hhigh : ∀ c ∈ after, b.left ≤ c.left := by
    cases after with
    | nil => simp
    | cons next after =>
      have hnext : b.left ≤ next.left := by simpa using hhead
      obtain ⟨-, -, hgap⟩ := hsep.mid
      intro c hc
      rcases List.mem_cons.mp hc with rfl | hc
      · exact hnext
      · have := hgap c hc
        unfold Extent.right at this
        omega
  simp only [List.forall_mem_append] at hcells hapart
  have hbefore : ∀ c ∈ before, c.right ≤ b.left := by
    intro c hc
    have := hlow c hc
    rcases hapart.1 c hc with h | h
    · unfold Extent.right at *
      omega
    · exact h
  have hafter := Separated.before_of_apart (hsep.sublist (by simp)) hsize hapart.2 hhigh
  obtain ⟨c, rest, hjoin, hcpos, hleft, hgather, hsep', hgap⟩ :=
    joinNext_spec hspace hsize hin hcells.2 hsep hafter
  rw [hjoin]
  have hcin : Within c space :=
    hgather.within space (by simpa using ⟨hin, hcells.2⟩) c List.mem_cons_self
  obtain ⟨hgather', hsep''⟩ := joinPrev_spec hspace hcpos hcin hcells.1 hsep'
    (fun x hx => by rw [hleft]; exact hbefore x hx) hgap
  refine ⟨hsep'', ?_⟩
  have hperm : Gathered (b :: (before ++ after)) (before ++ b :: after) :=
    .perm List.perm_middle.symm
  have hmid : Gathered (before ++ b :: after) (before ++ c :: rest) :=
    (Gathered.refl before).append hgather
  have hlast : Gathered (before ++ [c] ++ rest) (joinPrev before c ++ rest) :=
    hgather'.append (.refl rest)
  rw [List.append_assoc] at hlast
  exact hperm.trans (hmid.trans hlast)

/-- `size` adds up the cells. -/
theorem size_eq {space : Extent} (hspace : Region space) {a : Arena} (hsep : Separated a.unused)
    (hcells : ∀ c ∈ a.unused, Within c space) : a.size = total a.unused := by
  obtain ⟨-, -, -, hsize, -⟩ := hspace
  have hle := hsep.total_le hcells
  have hfold : ∀ (l : List Extent) (n : Nat), n + total l < 4294967296 →
      l.foldl (fun n cell => word (n + cell.size)) n = n + total l := by
    intro l
    induction l with
    | nil => exact fun n _ => rfl
    | cons c l ih =>
      intro n hn
      rw [total_cons] at hn ⊢
      rw [List.foldl_cons, word_of_lt (by omega), ih _ (by omega), Nat.add_assoc]
  rw [Arena.size, hfold _ _ (by omega), Nat.zero_add]

end Arena

/-! ## Runs -/

/-- The cells and the blocks handed out share the region. -/
structure ArenaState.Sound (space : Extent) (s : ArenaState) : Prop where
  separated : Separated s.arena.unused
  cells : ∀ c ∈ s.arena.unused, Within c space
  blocks : ∀ b ∈ s.live, Within b.extent space
  sizes : ∀ b ∈ s.live, 0 < b.size
  disjoint : s.live.Pairwise fun a b => Apart a.extent b.extent
  apart : ∀ b ∈ s.live, ∀ c ∈ s.arena.unused, Apart b.extent c
  total : total s.arena.unused + total (s.live.map Block.extent) = space.size
  aligned : ∀ b ∈ s.live, b.align ∣ b.place
  cellUnits : ∀ c ∈ s.arena.unused, Arena.ALIGN ∣ c.left ∧ Arena.ALIGN ∣ c.size
  blockUnits : ∀ b ∈ s.live, Arena.ALIGN ∣ b.place ∧ Arena.ALIGN ∣ b.size

namespace ArenaState.Sound

variable {space : Extent} {s s' : ArenaState}

theorem new (hspace : Region space) :
    ArenaState.Sound space ⟨.new space.left space.size, []⟩ := by
  obtain ⟨hleft, hpos, hsize, -⟩ := hspace
  refine ⟨⟨?_, ?_⟩, ?_, ?_, ?_, ?_, ?_, ?_, ?_, ?_, ?_⟩
  all_goals simp [Arena.new, Arena.free, Arena.joinNext, Arena.joinPrev, hpos, Within.refl,
    Nat.dvd_iff_mod_eq_zero, hleft, hsize]

/-- A block cut out of one of the cells. -/
theorem take (h : s.Sound space) (hspace : Region space) {size align place : Nat}
    {before after cells : List Extent} {cell : Extent}
    (hfound : s.arena.unused = before ++ cell :: after)
    (hc : Arena.Carved cell ⟨place, size⟩ cells) (hsize : 0 < size) (halign : align ∣ place)
    (hunit : Arena.ALIGN ∣ place ∧ Arena.ALIGN ∣ size) :
    ArenaState.Sound space ⟨⟨before ++ cells ++ after⟩, ⟨place, size, align⟩ :: s.live⟩ := by
  have hcell : cell ∈ s.arena.unused := by simp [hfound]
  have hkept : ∀ c ∈ before ++ after, c ∈ s.arena.unused := by
    intro c hc
    rw [hfound]
    simp only [List.mem_append, List.mem_cons] at hc ⊢
    exact hc.imp_right .inr
  have hcut : ∀ c ∈ before ++ cells ++ after, c ∈ cells ∨ c ∈ before ++ after := by
    intro c hc
    simp only [List.mem_append] at hc ⊢
    tauto
  have hsep := h.separated
  have htotal := h.total
  have hsum := hc.total
  rw [hfound] at hsep htotal
  obtain ⟨-, hbefore, hafter⟩ := hsep.mid
  have hnew : Within ⟨place, size⟩ space := hc.inside.trans (h.cells cell hcell)
  refine ⟨hsep.cut hc.separated hc.within, fun c hx => ?_, ?_, ?_, ?_, ?_, ?_, ?_, fun c hx => ?_,
    ?_⟩
  · rcases hcut c hx with hx | hx
    · exact (hc.within c hx).trans (h.cells cell hcell)
    · exact h.cells c (hkept c hx)
  · exact List.forall_mem_cons.mpr ⟨hnew, h.blocks⟩
  · exact List.forall_mem_cons.mpr ⟨hsize, h.sizes⟩
  · exact List.pairwise_cons.mpr ⟨fun b hb => ((h.apart b hb cell hcell).symm.mono hc.inside),
      h.disjoint⟩
  · refine List.forall_mem_cons.mpr ⟨fun c hx => ?_, fun b hb c hx => ?_⟩
    · rcases hcut c hx with hx | hx
      · exact hc.apart c hx
      · have hclear : Apart cell c := by
          rcases List.mem_append.mp hx with hx | hx
          · exact .inr (Nat.le_of_lt (hbefore c hx))
          · exact .inl (Nat.le_of_lt (hafter c hx))
        exact hclear.mono hc.inside
    · rcases hcut c hx with hx | hx
      · exact ((h.apart b hb cell hcell).symm.mono (hc.within c hx)).symm
      · exact h.apart b hb c (hkept c hx)
  · simp only [List.map_cons, total_cons, total_append, Block.extent] at htotal hsum ⊢
    omega
  · exact List.forall_mem_cons.mpr ⟨halign, h.aligned⟩
  · rcases hcut c hx with hx | hx
    · exact hc.aligned _ (h.cellUnits cell hcell).1 (h.cellUnits cell hcell).2 hunit.1 hunit.2 c hx
    · exact h.cellUnits c (hkept c hx)
  · exact List.forall_mem_cons.mpr ⟨hunit, h.blockUnits⟩

/-- A block given back. -/
theorem free (h : s.Sound space) (hspace : Region space) {b : Block} (hb : b ∈ s.live) :
    ArenaState.Sound space ⟨s.arena.free b.place b.size, s.live.erase b⟩ := by
  obtain ⟨hsep, hgather⟩ := Arena.free_spec hspace h.separated h.cells (b := b.extent)
    (h.sizes b hb) (h.blocks b hb) (h.apart b hb)
  have hmem : ∀ x ∈ s.live.erase b, x ∈ s.live := fun x hx => List.mem_of_mem_erase hx
  have hperm := List.perm_cons_erase hb
  have hdisjoint := (hperm.pairwise_iff fun h => Apart.symm h).mp h.disjoint
  obtain ⟨hapart, hrest⟩ := List.pairwise_cons.mp hdisjoint
  refine ⟨hsep, hgather.within space ?_, fun x hx => h.blocks x (hmem x hx),
    fun x hx => h.sizes x (hmem x hx), hrest, fun x hx => ?_, ?_,
    fun x hx => h.aligned x (hmem x hx), hgather.aligned _ ?_,
    fun x hx => h.blockUnits x (hmem x hx)⟩
  · exact List.forall_mem_cons.mpr ⟨h.blocks b hb, h.cells⟩
  · refine hgather.apart x.extent (h.sizes x (hmem x hx)) ?_
    exact List.forall_mem_cons.mpr ⟨(hapart x hx).symm, h.apart x (hmem x hx)⟩
  · have htotal := h.total
    have hsum := (Gathered.perm (hperm.map Block.extent)).total
    have hg := hgather.total
    simp only [List.map_cons, total_cons, Block.extent] at hsum hg ⊢
    omega
  · exact List.forall_mem_cons.mpr ⟨h.blockUnits b hb, h.cellUnits⟩

/-- Every call whose arithmetic holds keeps the invariant. -/
theorem step (h : s.Sound space) (hspace : Region space) {op : ArenaOp} (hok : s.Meets op)
    (hstep : s.step op = some s') : s'.Sound space := by
  cases op with
  | free b =>
    simp only [ArenaState.step] at hstep
    split at hstep
    · cases hstep
      exact h.free hspace ‹_›
    · cases hstep
  | alloc last size align =>
    obtain ⟨⟨k, rfl⟩, hroom⟩ := hok
    simp only [ArenaState.step] at hstep
    split at hstep
    · rename_i hacc
      simp only [accepted, decide_eq_true_eq] at hacc
      obtain ⟨halign, hpos, hsize, hlt, hword⟩ := hacc
      have hk : k < 32 := (Nat.pow_lt_pow_iff_right (by decide)).mp (show 2 ^ k < 2 ^ 32 from hword)
      have hsearch : ∃ found, (if last then s.arena.allocLast size (2 ^ k)
          else s.arena.alloc size (2 ^ k)) = Arena.take size (2 ^ k) found ∧
          ∀ before cell after, found = some (before, cell, after) →
            s.arena.unused = before ++ cell :: after ∧ Arena.fits size (2 ^ k) cell = true := by
        cases last with
        | true => exact ⟨_, rfl, fun _ _ _ hs => Arena.searchLast_spec hs⟩
        | false => exact ⟨_, rfl, fun _ _ _ hs => Arena.search_spec hs⟩
      obtain ⟨found, htake, hfound⟩ := hsearch
      rw [htake] at hstep
      cases found with
      | none =>
        cases hstep
        exact h
      | some r =>
        obtain ⟨before, cell, after⟩ := r
        obtain ⟨hlist, hfits⟩ := hfound _ _ _ rfl
        have hcell : cell ∈ s.arena.unused := by simp [hlist]
        have hin := h.cells cell hcell
        have hright : cell.right ≤ 4294967296 := Nat.le_trans hin.2 hspace.2.2.2.2
        have hcellPos := h.separated.pos cell hcell
        have hleft : cell.left < 4294967296 := by
          unfold Extent.right at hright
          omega
        obtain ⟨hdvd, -⟩ := Arena.padding_spec hk hleft
        have hle : Arena.padding (2 ^ k) cell + size ≤ cell.size := by
          have := hroom cell hcell hfits
          simp only [Arena.fits, decide_eq_true_eq] at hfits
          rwa [word_of_lt this] at hfits
        obtain ⟨cells, hcarve, hcarved⟩ := Arena.carve_spec hpos hright hle
        rw [Arena.take, hcarve] at hstep
        cases hstep
        exact h.take hspace hlist hcarved hpos hdvd
          ⟨Nat.dvd_trans (Nat.dvd_of_mod_eq_zero halign) hdvd, Nat.dvd_of_mod_eq_zero hsize⟩
    · cases hstep

theorem run (hspace : Region space) (hrun : (arenaSystem space).RunWith ArenaState.Meets s) :
    s.Sound space :=
  hrun.invariant (ArenaState.Sound space)
    (fun s hs => by
      obtain rfl : s = _ := hs
      exact .new hspace)
    fun _ _ _ h hok hstep => h.step hspace hok hstep

end ArenaState.Sound

/-- In a run whose requests keep to the arithmetic of the search, the blocks handed out lie apart
    in the region at their alignment, the free list is in order with a gap between any two cells,
    free and live bytes make up the region, and without live blocks the list is one cell. -/
theorem arena_sound {space : Extent} (hspace : Region space) {s : ArenaState}
    (hrun : (arenaSystem space).RunWith ArenaState.Meets s) :
    s.live.Pairwise (fun a b => Apart a.extent b.extent) ∧
      (∀ b ∈ s.live, b.align ∣ b.place ∧ Within b.extent space) ∧
      Separated s.arena.unused ∧
      (∀ c ∈ s.arena.unused, Within c space ∧ ∀ b ∈ s.live, Apart b.extent c) ∧
      s.arena.size + total (s.live.map Block.extent) = space.size ∧
      (s.live = [] → s.arena.unused = [space]) := by
  have h := ArenaState.Sound.run hspace hrun
  refine ⟨h.disjoint, fun b hb => ⟨h.aligned b hb, h.blocks b hb⟩, h.separated,
    fun c hc => ⟨h.cells c hc, fun b hb => h.apart b hb c hc⟩, ?_, fun hlive => ?_⟩
  · rw [Arena.size_eq hspace h.separated h.cells]
    exact h.total
  · have htotal := h.total
    rw [hlive, List.map_nil, total_nil, Nat.add_zero] at htotal
    exact h.separated.eq_singleton h.cells hspace.2.1 htotal

/-- The region of the test suite's size with one block taken. -/
def smallRegion : Extent := ⟨0x80100000, 4096⟩

/-- The state after the calls given, on the small region. -/
def arenaAfter (ops : List ArenaOp) : ArenaState :=
  (ops.foldlM ArenaState.step ⟨.new smallRegion.left smallRegion.size, []⟩).getD ⟨⟨[]⟩, []⟩

/-- A block of half the region at an address that its alignment makes it pad to. -/
theorem arena_sound_padded :
    ∃ s, (arenaSystem smallRegion).RunWith ArenaState.Meets s ∧
      s.live = [⟨0x80100800, 2048, 2048⟩, ⟨0x80100000, 32, 32⟩] ∧
      s.arena.unused = [⟨0x80100020, 2016⟩] ∧
      s.arena.size + total (s.live.map Block.extent) = smallRegion.size := by
  have h0 : (arenaSystem smallRegion).RunWith ArenaState.Meets (arenaAfter []) := .start rfl
  have h1 : (arenaSystem smallRegion).RunWith ArenaState.Meets
      (arenaAfter [.alloc false 32 32]) :=
    h0.next (l := .alloc false 32 32) ⟨⟨5, rfl⟩, by decide⟩ rfl
  have h2 : (arenaSystem smallRegion).RunWith ArenaState.Meets
      (arenaAfter [.alloc false 32 32, .alloc true 2048 2048]) :=
    h1.next (l := .alloc true 2048 2048) ⟨⟨11, rfl⟩, by decide⟩ rfl
  exact ⟨_, h2, rfl, rfl, (arena_sound (by decide) h2).2.2.2.2.1⟩

/-- A request whose padded size wraps around to nothing gets a block that leaves the region, and
    one whose alignment is no power of two gets a block off its alignment. -/
theorem arena_wraps :
    (∃ s, (arenaSystem smallRegion).Reachable s ∧ ∃ b ∈ s.live, ¬Within b.extent smallRegion) ∧
      ∃ s, (arenaSystem smallRegion).Reachable s ∧ ∃ b ∈ s.live, ¬b.align ∣ b.place := by
  have h0 : (arenaSystem smallRegion).Reachable (arenaAfter []) := .start rfl
  have h1 : (arenaSystem smallRegion).Reachable (arenaAfter [.alloc false 32 32]) :=
    h0.next (l := .alloc false 32 32) trivial rfl
  have hwrap : (arenaSystem smallRegion).Reachable
      (arenaAfter [.alloc false 32 32, .alloc false 0xffffffe0 64]) :=
    h1.next (l := .alloc false 0xffffffe0 64) trivial rfl
  have hoff : (arenaSystem smallRegion).Reachable (arenaAfter [.alloc false 32 160]) :=
    h0.next (l := .alloc false 32 160) trivial rfl
  exact ⟨⟨_, hwrap, by decide⟩, ⟨_, hoff, by decide⟩⟩

end EsOs.Kernel
