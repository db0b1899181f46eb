import EsOs.Lib.Intervals
import EsOs.Lib.System
import EsOs.Kernel.Mmu
import Mathlib.Tactic.Common

/-!
# The invariant of the map list

Every operation on the address space but one keeps the map list sorted, disjoint, page aligned and
inside the user range. `setBreak` may move the end of a map down to its start or below, which
leaves an empty entry behind; `BreakStaysAbove` is the exact condition under which it does not.
-/

namespace EsOs.Kernel

open EsOs.Lib

variable {P : Type _}

/-! ## Page arithmetic -/

namespace Page

theorem round_mod (ptr : Nat) : round ptr % 4096 = 0 := by
  simp only [round]; omega

theorem trunc_mod (ptr : Nat) : trunc ptr % 4096 = 0 := by
  simp only [trunc]; omega

theorem le_round {ptr : Nat} (h : ptr ≤ USER_MAX) : ptr ≤ round ptr := by
  simp only [round, USER_MAX] at *; omega

/-- Rounding up does not pass a page boundary at or above the pointer. -/
theorem round_le {ptr bound : Nat} (h : ptr ≤ bound) (hb : bound % 4096 = 0)
    (hmax : ptr ≤ USER_MAX) : round ptr ≤ bound := by
  simp only [round, USER_MAX] at *; omega

theorem round_le_max {ptr : Nat} (h : ptr ≤ USER_MAX) : round ptr ≤ USER_MAX :=
  round_le h (by decide) h

theorem round_le_start {ptr start : Nat} (h : ptr ≤ start) (hs : start % 4096 = 0)
    (hmax : start ≤ USER_MAX) : round ptr ≤ start :=
  round_le h hs (h.trans hmax)

end Page

/-! ## The invariant -/

/-- What holds of one entry: its bounds are page aligned and inside the user range. -/
structure Map.Aligned (m : Map P) : Prop where
  start_mod : m.start % 4096 = 0
  end_mod : m.end_ % 4096 = 0
  min_le : USER_MIN ≤ m.start
  le_max : m.end_ ≤ USER_MAX

/-- The invariant of `mapList`: aligned entries inside the user range, none of them empty, in
    ascending order and pairwise disjoint. -/
structure MapListInv (l : List (Map P)) : Prop where
  aligned : ∀ m ∈ l, m.Aligned
  ordered : OrderedIntervals Map.start Map.end_ l

namespace MapListInv

variable {l : List (Map P)} {m : Map P}

theorem tail (h : MapListInv (m :: l)) : MapListInv l :=
  ⟨fun x hx => h.aligned x (List.mem_cons_of_mem _ hx), h.ordered.tail⟩

theorem insert {before after : List (Map P)} (h : MapListInv (before ++ after))
    (ha : m.Aligned) (hm : m.start < m.end_) (hbefore : ∀ y ∈ before, y.end_ ≤ m.start)
    (hafter : ∀ y ∈ after, m.end_ ≤ y.start) : MapListInv (before ++ m :: after) := by
  refine ⟨?_, h.ordered.insert hm hbefore hafter⟩
  intro x hx
  rcases List.mem_append.mp hx with hx | hx
  · exact h.aligned x (List.mem_append_left _ hx)
  · rcases List.mem_cons.mp hx with rfl | hx
    · exact ha
    · exact h.aligned x (List.mem_append_right _ hx)

end MapListInv

/-! ## `Process::map` -/

namespace Process

/-- The place found for a fixed map: all maps before it end at its start, all maps behind it
    start at its end. -/
theorem fixedPlace_spec {start end_ : Nat} {l before after : List (Map P)}
    (hinv : OrderedIntervals Map.start Map.end_ l)
    (h : fixedPlace start end_ l = some (before, after)) :
    l = before ++ after ∧ (∀ m ∈ before, m.end_ ≤ start) ∧ ∀ m ∈ after, end_ ≤ m.start := by
  induction l generalizing before after with
  | nil =>
    simp only [fixedPlace, Option.some.injEq, Prod.mk.injEq] at h
    obtain ⟨rfl, rfl⟩ := h
    simp
  | cons m ms ih =>
    simp only [fixedPlace] at h
    split at h
    · rename_i hstop
      simp only [Option.some.injEq, Prod.mk.injEq] at h
      obtain ⟨rfl, rfl⟩ := h
      exact ⟨rfl, by simp, fun x hx => hinv.le_lo_of_le_head hstop hx⟩
    · split at h
      · cases h
      · rename_i hclear
        simp only [Option.map_eq_some_iff, Prod.mk.injEq, Prod.exists] at h
        obtain ⟨b, a, hrec, rfl, rfl⟩ := h
        obtain ⟨rfl, hb, ha⟩ := ih hinv.tail hrec
        refine ⟨rfl, ?_, ha⟩
        intro x hx
        rcases List.mem_cons.mp hx with rfl | hx
        · omega
        · exact hb x hx

/-- The place found for a free map. The candidate only ever moves up, to the end of some map. -/
theorem freePlace_spec {length : Int} {start end_ s e : Nat} {l before after : List (Map P)}
    (hinv : MapListInv l) (hstart : start % 4096 = 0)
    (h : freePlace length start end_ l = (s, e, before, after)) :
    l = before ++ after ∧ start ≤ s ∧ s % 4096 = 0 ∧ (∀ m ∈ before, m.end_ ≤ s) ∧
      ∀ m ∈ after, e ≤ m.start := by
  induction l generalizing start end_ s e before after with
  | nil =>
    simp only [freePlace, Prod.mk.injEq] at h
    obtain ⟨rfl, rfl, rfl, rfl⟩ := h
    simp [hstart]
  | cons m ms ih =>
    simp only [freePlace] at h
    split at h
    · rename_i hstop
      simp only [Prod.mk.injEq] at h
      obtain ⟨rfl, rfl, rfl, rfl⟩ := h
      exact ⟨rfl, le_rfl, hstart, by simp, fun x hx => hinv.ordered.le_lo_of_le_head hstop hx⟩
    · -- the candidate in front of the rest of the list starts at or behind the end of `m`
      rename_i hgo
      have hm := hinv.aligned m List.mem_cons_self
      generalize hc : (if start < m.end_ then m.end_ else start) = c at h
      generalize hd : (if start < m.end_ then addPtr m.end_ length else end_) = d at h
      have hmc : m.end_ ≤ c := by split at hc <;> omega
      have hsc : start ≤ c := by split at hc <;> omega
      have hcmod : c % 4096 = 0 := by have := hm.end_mod; split at hc <;> omega
      rcases hrec : freePlace length c d ms with ⟨s', e', b, a⟩
      simp only [hrec, Prod.mk.injEq] at h
      obtain ⟨rfl, rfl, rfl, rfl⟩ := h
      obtain ⟨rfl, hcs, hs, hb, ha⟩ := ih hinv.tail hcmod hrec
      refine ⟨rfl, hsc.trans hcs, hs, ?_, ha⟩
      intro x hx
      rcases List.mem_cons.mp hx with rfl | hx
      · exact hmc.trans hcs
      · exact hb x hx

/-- The bounds found for a new map: page aligned at the start, inside `[min, max]`, not empty, and
    clear of the maps on both sides. -/
theorem findPlace_spec {flags start min max s e : Nat} {length : Int}
    {l before after : List (Map P)} (hinv : MapListInv l) (hstart : start % 4096 = 0)
    (hmin : min % 4096 = 0)
    (h : findPlace flags start length min max l = some (s, e, before, after)) :
    l = before ++ after ∧ s % 4096 = 0 ∧ min ≤ s ∧ s < e ∧ e ≤ max ∧
      (∀ m ∈ before, m.end_ ≤ s) ∧ ∀ m ∈ after, e ≤ m.start := by
  simp only [findPlace] at h
  split at h
  · split at h
    · cases h
    · rename_i hbounds
      simp only [Option.map_eq_some_iff, Prod.mk.injEq, Prod.exists] at h
      obtain ⟨b, a, hplace, rfl, rfl, rfl, rfl⟩ := h
      obtain ⟨hl, hb, ha⟩ := fixedPlace_spec hinv.ordered hplace
      exact ⟨hl, hstart, by omega, by omega, by omega, hb, ha⟩
  · generalize hc : (if start < min then min else start) = c at h
    have hmc : min ≤ c := by split at hc <;> omega
    have hcmod : c % 4096 = 0 := by split at hc <;> omega
    rcases hplace : freePlace length c (addPtr c length) l with ⟨s', e', b, a⟩
    simp only [hplace, Option.ite_none_left_eq_some, Option.some.injEq, Prod.mk.injEq] at h
    obtain ⟨hbounds, rfl, rfl, rfl, rfl⟩ := h
    obtain ⟨hl, hcs, hs, hb, ha⟩ := freePlace_spec hinv hcmod hplace
    exact ⟨hl, hs, by omega, by omega, by omega, hb, ha⟩

/-- `Process::map` with any arguments keeps the invariant. -/
theorem mapSized_inv {p p' : Process P} {start : Nat} {length : Int} {prot flags : Nat}
    {pageable : Option P} {offset size : Int} {alloc : Bool} {r : Nat}
    (hinv : MapListInv p.mapList)
    (h : p.mapSized start length prot flags pageable offset size USER_MIN USER_MAX alloc =
      some (r, p')) : MapListInv p'.mapList := by
  simp only [mapSized] at h
  split at h
  · cases h; exact hinv
  · split at h
    · cases h; exact hinv
    · rename_i s e before after hplace
      obtain ⟨hl, hs, hmin, hse, hmax, hb, ha⟩ :=
        findPlace_spec hinv (Page.trunc_mod start) (by decide) hplace
      rw [hl] at hinv
      have hround := Page.le_round hmax
      have hadd : ∀ m : Map P, m.start = s → m.end_ = Page.round e →
          MapListInv (before ++ m :: after) := by
        intro m hms hme
        refine hinv.insert ⟨by omega, by rw [hme]; exact Page.round_mod e, by omega, ?_⟩
          (by omega) (fun x hx => hms ▸ hb x hx) fun x hx => ?_
        · rw [hme]
          exact Page.round_le_max hmax
        · rw [hme]
          exact Page.round_le (ha x hx)
            (hinv.aligned x (List.mem_append_right _ hx)).start_mod hmax
      split at h
      · cases h
        exact hadd _ (by split <;> rfl) (by split <;> rfl)
      · cases h

theorem map_inv {getSize : P → Option Int} {p p' : Process P} {start : Nat} {length : Int}
    {prot flags : Nat} {pageable : Option P} {offset : Int} {alloc : Bool} {r : Nat}
    (hinv : MapListInv p.mapList)
    (h : p.map getSize start length prot flags pageable offset alloc = some (r, p')) :
    MapListInv p'.mapList := by
  simp only [map] at h
  split at h
  · exact mapSized_inv hinv h
  · split at h
    · cases h
    · exact mapSized_inv hinv h

/-! ## `Process::unmap` -/

/-- What is left of a map that reaches over the range on one side or both. -/
theorem trimMap_within {start end_ : Nat} {m : Map P} (hse : start < end_)
    (hm : m.start < m.end_) (hover : start < m.end_) (_ : ¬(start ≤ m.start ∧ m.end_ ≤ end_))
    (hfar : m.start < end_) :
    m.start ≤ (trimMap start end_ m).1.start ∧
      (trimMap start end_ m).1.start < (trimMap start end_ m).1.end_ ∧
      (trimMap start end_ m).1.end_ ≤ m.end_ ∧
      ((trimMap start end_ m).1.start = m.start ∨ (trimMap start end_ m).1.start = end_) ∧
      ((trimMap start end_ m).1.end_ = m.end_ ∨ (trimMap start end_ m).1.end_ = start) := by
  by_cases h1 : m.start < start <;> by_cases h2 : end_ < m.end_ <;>
    by_cases h3 : end_ < start <;> simp [trimMap, h1, h2, h3] <;> omega

/-- The loop of `unmap` drops maps and shrinks others. -/
theorem unmapFrom_shrinks {start end_ : Nat} (hse : start < end_) {l : List (Map P)}
    (hinv : OrderedIntervals Map.start Map.end_ l) :
    Shrinks Map.start Map.end_ l (unmapFrom start end_ l).1 := by
  induction l with
  | nil => exact .nil
  | cons m ms ih =>
    have hm := hinv.nonempty m List.mem_cons_self
    have hrest := ih hinv.tail
    simp only [unmapFrom]
    split
    · exact Shrinks.refl hinv.nonempty
    · split
      · exact .keep le_rfl hm le_rfl hrest
      · split
        · exact .drop hrest
        · obtain ⟨hlo, hne, hhi, -, -⟩ :=
            trimMap_within (m := m) hse hm (by omega) (by assumption) (by omega)
          exact .keep hlo hne hhi hrest

/-- The ends of what is left are old ends or the ends of the range, all of them page aligned. -/
theorem unmapFrom_aligned {start end_ : Nat} (hse : start < end_) (hs : start % 4096 = 0)
    (he : end_ % 4096 = 0) {l : List (Map P)} (hinv : MapListInv l) :
    ∀ m ∈ (unmapFrom start end_ l).1, m.Aligned := by
  induction l with
  | nil => simp [unmapFrom]
  | cons m ms ih =>
    have hm := hinv.aligned m List.mem_cons_self
    have hrest := ih hinv.tail
    simp only [unmapFrom]
    split
    · exact hinv.aligned
    · split
      · exact List.forall_mem_cons.mpr ⟨hm, hrest⟩
      · split
        · exact hrest
        · obtain ⟨hlo, hne, hhi, hstart, hend⟩ := trimMap_within (m := m) hse
            (hinv.ordered.nonempty m List.mem_cons_self) (by omega) (by assumption) (by omega)
          obtain ⟨hm1, hm2, hm3, hm4⟩ := hm
          exact List.forall_mem_cons.mpr ⟨⟨by omega, by omega, by omega, by omega⟩, hrest⟩

theorem unmap?_inv {p p' : Process P} {start : Nat} {length : Int} {unsets : List (Unset P)}
    (hinv : MapListInv p.mapList) (h : p.unmap? start length = some (p', unsets)) :
    MapListInv p'.mapList := by
  simp only [unmap?] at h
  split at h
  · cases h
  · rename_i hrange
    cases h
    exact ⟨unmapFrom_aligned (by omega) (Page.trunc_mod _) (Page.round_mod _) hinv,
      (unmapFrom_shrinks (by omega) hinv.ordered).ordered hinv.ordered⟩

/-- `Process::unmap` with any arguments keeps the invariant. -/
theorem unmap_inv {p : Process P} {start : Nat} {length : Int} (hinv : MapListInv p.mapList) :
    MapListInv (p.unmap start length).mapList := by
  unfold unmap
  cases h : p.unmap? start length with
  | none => exact hinv
  | some result =>
    obtain ⟨p', unsets⟩ := result
    exact unmap?_inv hinv h

/-! ## `Process::setBreak` -/

/-- The map that `setBreak` adjusts: the first one that ends at the break or behind it, when it
    does not start behind the break. -/
def breakMap (p : Process P) : Option (Map P) :=
  (p.mapList.find? fun m => p.end_ ≤ m.end_).filter fun m => m.start ≤ p.end_

/-- A call of `setBreak` that leaves the map of the break non-empty: the new break lies above the
    start of this map, or one of the guards of `setBreak` refuses the call (a sum that wraps, or
    a shrink below the part of the map backed by its file). -/
def BreakStaysAbove (p : Process P) (increment : Int) : Prop :=
  increment = 0 ∨ ∀ m ∈ p.breakMap, m.start < addPtr p.end_ increment ∨
    (0 < increment ∧ addPtr p.end_ increment < p.end_) ∨
    (increment < 0 ∧ (p.end_ < addPtr p.end_ increment ∨
      addPtr p.end_ increment < addPtr m.start m.length))

theorem breakPlace_spec {brk : Nat} {l before after : List (Map P)} {m : Map P}
    (h : breakPlace brk l = some (before, m, after)) :
    l = before ++ m :: after ∧ brk ≤ m.end_ ∧ l.find? (fun m => brk ≤ m.end_) = some m := by
  induction l generalizing before after with
  | nil => simp [breakPlace] at h
  | cons x xs ih =>
    simp only [breakPlace] at h
    split at h
    · rename_i hx
      simp only [Option.map_eq_some_iff, Prod.mk.injEq, Prod.exists] at h
      obtain ⟨b, y, a, hrec, rfl, rfl, rfl⟩ := h
      obtain ⟨rfl, hbrk, hfind⟩ := ih hrec
      refine ⟨rfl, hbrk, ?_⟩
      rw [List.find?_cons_of_neg (by simpa using hx), hfind]
    · rename_i hx
      simp only [Option.some.injEq, Prod.mk.injEq] at h
      obtain ⟨rfl, rfl, rfl⟩ := h
      have hbrk : brk ≤ x.end_ := by omega
      exact ⟨rfl, hbrk, by simp [hbrk]⟩

/-- What a returning call of `setBreak` does: nothing, or it moves the end of the map of the break
    to the page boundary at or above the new break. -/
theorem setBreak_cases {p p' : Process P} {increment : Int} {r : Nat}
    (h : p.setBreak increment = some (r, p')) :
    p' = p ∨ ∃ before m after, p.mapList = before ++ m :: after ∧ m ∈ p.breakMap ∧
      m.start ≤ p.end_ ∧ p.end_ ≤ m.end_ ∧
      increment ≠ 0 ∧
      ¬(0 < increment ∧ (addPtr p.end_ increment < p.end_ ∨ USER_MAX < addPtr p.end_ increment ∨
          ∃ next ∈ after.head?, next.start ≤ addPtr p.end_ increment)) ∧
      ¬(increment < 0 ∧ (p.end_ < addPtr p.end_ increment ∨
          addPtr p.end_ increment < addPtr m.start m.length)) ∧
      p' = { mapList := before ++ { m with end_ := Page.round (addPtr p.end_ increment) } :: after
             end_ := addPtr p.end_ increment } := by
  simp only [setBreak] at h
  split at h
  · cases h; exact .inl rfl
  · rename_i hne
    split at h
    · split at h
      · cases h; exact .inl rfl
      · split at h
        · cases h; exact .inl rfl
        · cases h
    · rename_i before m after hplace
      obtain ⟨hl, hbrk, hfind⟩ := breakPlace_spec hplace
      split at h
      · cases h; exact .inl rfl
      · rename_i hstart
        have hmap : m ∈ p.breakMap := by
          simp only [breakMap, hfind, Option.mem_def]
          rw [Option.filter_some_pos (by simpa using hstart)]
        split at h
        · cases h; exact .inl rfl
        · rename_i hgrow
          split at h
          · cases h; exact .inl rfl
          · rename_i hshrink
            cases h
            exact .inr ⟨before, m, after, hl, hmap, by omega, hbrk, hne, hgrow, hshrink, rfl⟩

/-- `setBreak` keeps the invariant when the break stays above the start of its map. -/
theorem setBreak_inv {p p' : Process P} {increment : Int} {r : Nat}
    (hinv : MapListInv p.mapList) (h : p.setBreak increment = some (r, p'))
    (habove : p.BreakStaysAbove increment) : MapListInv p'.mapList := by
  rcases setBreak_cases h with rfl | ⟨before, m, after, hl, hmap, hstart, hbrk, hne, hgrow,
    hshrink, rfl⟩
  · exact hinv
  have hm : m.start < addPtr p.end_ increment := by
    rcases habove with h0 | habove
    · exact absurd h0 hne
    · rcases habove m hmap with h | h | h
      · exact h
      · exact absurd ⟨h.1, .inl h.2⟩ hgrow
      · exact absurd h hshrink
  rw [hl] at hinv
  have hma := hinv.aligned m (by simp)
  generalize addPtr p.end_ increment = newend at *
  have hmax : newend ≤ USER_MAX := by
    have := hma.le_max
    by_cases hpos : 0 < increment
    · simp only [hpos, true_and] at hgrow
      omega
    · have hneg : increment < 0 := by omega
      simp only [hneg, true_and] at hshrink
      omega
  have hround := Page.le_round hmax
  refine ⟨?_, hinv.ordered.replace (by simp only; omega) le_rfl ?_⟩
  · intro x hx
    rcases List.mem_append.mp hx with hx | hx
    · exact hinv.aligned x (List.mem_append_left _ hx)
    · rcases List.mem_cons.mp hx with rfl | hx
      · exact ⟨hma.start_mod, Page.round_mod _, hma.min_le, Page.round_le_max hmax⟩
      · exact hinv.aligned x (List.mem_append_right _ (List.mem_cons_of_mem _ hx))
  · intro y hy
    have hrest : OrderedIntervals Map.start Map.end_ (m :: after) :=
      ⟨fun z hz => hinv.ordered.nonempty z (List.mem_append_right _ hz),
        (List.pairwise_append.mp hinv.ordered.disjoint).2.1⟩
    have hya := hinv.aligned y (List.mem_append_right _ (List.mem_cons_of_mem _ hy))
    -- either the new end is at or below the old one, or it is below the next map
    by_cases hpos : 0 < increment
    · simp only [hpos, true_and] at hgrow
      cases after with
      | nil => cases hy
      | cons next rest =>
        have hnext : newend < next.start := by
          by_contra hcon
          exact hgrow (.inr (.inr ⟨next, rfl, by omega⟩))
        have : newend ≤ y.start := hrest.tail.le_lo_of_le_head hnext.le hy
        exact Page.round_le this hya.start_mod hmax
    · have hneg : increment < 0 := by omega
      simp only [hneg, true_and] at hshrink
      have hend := hrest.hi_le_of_mem_tail hy
      exact Page.round_le (by omega) hya.start_mod hmax

theorem breakPlace_of_breakMap {p : Process P} {m : Map P} (hm : m ∈ p.breakMap) :
    m.start ≤ p.end_ ∧ ∃ before after, breakPlace p.end_ p.mapList = some (before, m, after) := by
  simp only [breakMap, Option.mem_def, Option.filter_eq_some_iff, decide_eq_true_eq] at hm
  obtain ⟨hfind, hstart⟩ := hm
  refine ⟨hstart, ?_⟩
  generalize p.mapList = l at hfind
  induction l with
  | nil => simp at hfind
  | cons x xs ih =>
    by_cases hx : p.end_ ≤ x.end_
    · rw [List.find?_cons_of_pos (by simpa using hx)] at hfind
      cases hfind
      exact ⟨[], xs, by simp only [breakPlace]; rw [if_neg (by omega)]⟩
    · rw [List.find?_cons_of_neg (by simpa using hx)] at hfind
      obtain ⟨b, a, hrec⟩ := ih hfind
      exact ⟨x :: b, a, by simp only [breakPlace]; rw [if_pos (by omega), hrec]; rfl⟩

/-- Otherwise the call goes through and leaves an entry that is empty or upside down. -/
theorem setBreak_not_inv {p p' : Process P} {increment : Int} {r : Nat}
    (hinv : MapListInv p.mapList) (h : p.setBreak increment = some (r, p'))
    (habove : ¬p.BreakStaysAbove increment) : ¬MapListInv p'.mapList := by
  simp only [BreakStaysAbove, not_or, not_forall] at habove
  obtain ⟨hne, m, hmap, hlow, hgrow, hshrink⟩ := habove
  obtain ⟨hstart, before, after, hplace⟩ := breakPlace_of_breakMap hmap
  obtain ⟨hl, hbrk, -⟩ := breakPlace_spec hplace
  rw [hl] at hinv
  have hma := hinv.aligned m (by simp)
  have hrest : OrderedIntervals Map.start Map.end_ (m :: after) :=
    ⟨fun z hz => hinv.ordered.nonempty z (List.mem_append_right _ hz),
      (List.pairwise_append.mp hinv.ordered.disjoint).2.1⟩
  have hmne := hrest.nonempty m List.mem_cons_self
  have hend := hma.le_max
  simp only [setBreak, hplace] at h
  generalize addPtr p.end_ increment = newend at *
  have hnext : ¬∃ next ∈ after.head?, next.start ≤ newend := by
    rintro ⟨next, hnext, hle⟩
    have := hrest.hi_le_of_mem_tail (List.mem_of_mem_head? hnext)
    omega
  have hnogrow : ¬(0 < increment ∧ (newend < p.end_ ∨ USER_MAX < newend ∨
      ∃ next ∈ after.head?, next.start ≤ newend)) := by
    rintro ⟨hpos, hwrap | hhigh | hbad⟩
    · exact hgrow ⟨hpos, hwrap⟩
    · omega
    · exact hnext hbad
  rw [if_neg hne, if_neg (by omega), if_neg hnogrow,
    if_neg hshrink] at h
  cases h
  intro hinv'
  have hbad := hinv'.ordered.nonempty { m with end_ := Page.round newend } (by simp)
  have hround : Page.round newend ≤ m.start :=
    Page.round_le (by omega) hma.start_mod (by omega)
  simp only at hbad
  omega

end Process

/-! ## Runs -/

/-- The operations on an address space. The `alloc` of a map tells whether the memory of the new
    record could be allocated. -/
inductive MapOp (P : Type _)
  | map (start : Nat) (length : Int) (prot flags : Nat) (pageable : Option P) (offset : Int)
      (alloc : Bool)
  | mapSized (start : Nat) (length : Int) (prot flags : Nat) (pageable : Option P)
      (offset size : Int) (alloc : Bool)
  | unmap (start : Nat) (length : Int)
  | setBreak (increment : Int)

/-- One operation. A call that throws leaves the process as it was; a `setBreak` that faults has
    no next state. -/
def Process.stepMap (getSize : P → Option Int) (p : Process P) : MapOp P → Option (Process P)
  | .map start length prot flags pageable offset alloc =>
      some (((p.map getSize start length prot flags pageable offset alloc).map Prod.snd).getD p)
  | .mapSized start length prot flags pageable offset size alloc =>
      some (((p.mapSized start length prot flags pageable offset size USER_MIN USER_MAX alloc).map
        Prod.snd).getD p)
  | .unmap start length => some (p.unmap start length)
  | .setBreak increment => (p.setBreak increment).map Prod.snd

/-- The runs of an address space from any map list that satisfies the invariant, with any break. -/
def addressSpace (getSize : P → Option Int) : System (Process P) (MapOp P) :=
  .ofStep (fun p => MapListInv p.mapList) (Process.stepMap getSize)

/-- The condition on a step: a `setBreak` keeps the break above the start of its map. -/
def MapOp.KeepsBreak (p : Process P) : MapOp P → Prop
  | .setBreak increment => p.BreakStaysAbove increment
  | _ => True

theorem Process.stepMap_inv {getSize : P → Option Int} {p p' : Process P} {op : MapOp P}
    (hinv : MapListInv p.mapList) (hop : op.KeepsBreak p) (h : p.stepMap getSize op = some p') :
    MapListInv p'.mapList := by
  cases op with
  | map start length prot flags pageable offset alloc =>
    simp only [stepMap, Option.some.injEq] at h
    subst h
    cases hmap : p.map getSize start length prot flags pageable offset alloc with
    | none => exact hinv
    | some result => exact map_inv (r := result.1) hinv hmap
  | mapSized start length prot flags pageable offset size alloc =>
    simp only [stepMap, Option.some.injEq] at h
    subst h
    cases hmap : p.mapSized start length prot flags pageable offset size USER_MIN USER_MAX alloc with
    | none => exact hinv
    | some result => exact mapSized_inv (r := result.1) hinv hmap
  | unmap start length =>
    simp only [stepMap, Option.some.injEq] at h
    subst h
    exact unmap_inv hinv
  | setBreak increment =>
    simp only [stepMap, Option.map_eq_some_iff, Prod.exists] at h
    obtain ⟨r, q, h, rfl⟩ := h
    exact setBreak_inv hinv h hop

/-- Along every run whose calls of `setBreak` keep the break above the start of its map, the map
    list stays sorted, disjoint, page aligned, free of empty entries and inside the user range; and
    a call of `setBreak` from such a state that returns breaks the invariant whenever it does not
    meet the condition. -/
theorem mapList_runs (getSize : P → Option Int) :
    (∀ p, (addressSpace getSize).RunWith (fun p op => op.KeepsBreak p) p →
      MapListInv p.mapList) ∧
    ∀ (p p' : Process P) (increment : Int) (r : Nat), MapListInv p.mapList →
      p.setBreak increment = some (r, p') →
      (MapListInv p'.mapList ↔ p.BreakStaysAbove increment) := by
  refine ⟨fun p hrun => ?_, fun p p' increment r hinv h => ⟨?_, Process.setBreak_inv hinv h⟩⟩
  · exact hrun.invariant (fun p => MapListInv p.mapList) (fun _ h => h)
      fun p op p' hinv hop h => Process.stepMap_inv hinv hop h
  · intro hinv'
    by_contra habove
    exact Process.setBreak_not_inv hinv h habove hinv'

/-- The list of a program with a writable segment of two pages at `0x10000`, none of them in the
    file, whose break `0x12000` was moved up by a page. -/
theorem mapList_runs_grown :
    MapListInv [(⟨0x10000, 0x13000, 0, 3, 0x12, some (), 0⟩ : Map Unit)] := by
  refine (mapList_runs fun _ : Unit => none).1 ⟨_, 0x13000⟩ ?_
  refine .next (s := ⟨[⟨0x10000, 0x12000, 0, 3, 0x12, some (), 0⟩], 0x12000⟩)
    (l := .setBreak 0x1000) ?_ ?_ (show Process.stepMap _ _ _ = some _ by decide +kernel)
  · exact .next (s := ⟨[], 0x12000⟩) (l := .mapSized 0x10000 0x2000 3 0x12 (some ()) 0 0 true)
      (.start ⟨by simp, by simp, .nil⟩) trivial
      (show Process.stepMap _ _ _ = some _ by decide +kernel)
  · refine .inr fun m hm => .inl ?_
    cases (show some _ = some m from hm)
    decide +kernel

/-- The same program moves its break down by the whole segment, which leaves an empty entry. -/
theorem mapList_runs_empty_entry : ∃ p, (addressSpace fun _ : Unit => none).Reachable p ∧
    ∃ m ∈ p.mapList, m.start = m.end_ ∧ ¬MapListInv p.mapList := by
  let segment : MapOp Unit := .mapSized 0x10000 0x2000 3 0x12 (some ()) 0 0 true
  let loaded : Map Unit := ⟨0x10000, 0x12000, 0, 3, 0x12, some (), 0⟩
  let emptied : Map Unit := ⟨0x10000, 0x10000, 0, 3, 0x12, some (), 0⟩
  have hinit : (addressSpace fun _ : Unit => none).Reachable ⟨[], 0x12000⟩ :=
    .start ⟨by simp, by simp, .nil⟩
  have hload : (addressSpace fun _ : Unit => none).Reachable ⟨[loaded], 0x12000⟩ :=
    hinit.next (l := segment) trivial
      (show Process.stepMap _ _ _ = some _ by decide +kernel)
  have hshrink : (addressSpace fun _ : Unit => none).Reachable ⟨[emptied], 0x10000⟩ :=
    hload.next (l := .setBreak (-0x2000)) trivial
      (show Process.stepMap _ _ _ = some _ by decide +kernel)
  refine ⟨_, hshrink, emptied, List.mem_singleton.mpr rfl, rfl, fun hinv => ?_⟩
  exact absurd (hinv.ordered.nonempty emptied (List.mem_singleton.mpr rfl)) (lt_irrefl _)

end EsOs.Kernel
