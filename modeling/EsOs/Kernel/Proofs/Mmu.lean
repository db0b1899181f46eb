import EsOs.Kernel.Mmu
import Mathlib.Data.List.Range
import Mathlib.Tactic.Common

/-!
# Unsetting a range of pages

The inner loop of `Mmu::unset` leaves out the last page of each table, and its address does not
get past that page: once there, the outer loop comes back to the same table until its count is
used up. `Reached` says which pages are cleared, and `unset_exact_iff` when this is what was asked
for.
-/

namespace EsOs.Kernel

/-- The `k`th page behind the page `p`. -/
def pageAt (p k : Nat) : Nat := (p + k) % 1048576

namespace Mmu

/-- The page has a table. -/
def Present (m : Mmu) (page : Nat) : Prop := m.directory (page / 1024) &&& Page.PTEVALID ≠ 0

instance (m : Mmu) (page : Nat) : Decidable (m.Present page) :=
  inferInstanceAs (Decidable (_ ≠ _))

/-- The entry of a page; a page without a table has none. -/
def entry (m : Mmu) (page : Nat) : Nat :=
  if m.Present page then m.table (page / 1024) (page % 1024) else 0

/-- The loops get to the `k`th of `n` pages from `p` on: the page behind it belongs to the `n`
    pages and to the same table, and this table is the first one there is. -/
def Reached (m : Mmu) (p n k : Nat) : Prop :=
  k + 1 < n ∧ pageAt p (k + 1) / 1024 = pageAt p k / 1024 ∧ m.Present (pageAt p k) ∧
    ∀ j < k, m.Present (pageAt p j) → pageAt p j / 1024 = pageAt p k / 1024

instance (m : Mmu) (p n k : Nat) : Decidable (m.Reached p n k) :=
  inferInstanceAs (Decidable (_ ∧ _))

/-! ## The loops -/

theorem clearLoop_spec (t n i : Nat) (s : Unsetting) (haddr : s.addr < 4294967296) :
    let s' := clearLoop t (n + 1) i s
    s'.mmu.directory = s.mmu.directory ∧
      (∀ u j, s'.mmu.table u j =
        if u = t ∧ i ≤ j ∧ j < i + n then 0 else s.mmu.table u j) ∧
      s'.addr = (s.addr + 4096 * n) % 4294967296 ∧
      s'.given = s.given ++ (List.range n).flatMap fun k : Nat =>
        giveBack (s.offset + 4096 * k) (s.mmu.table t (i + k)) := by
  induction n generalizing i s with
  | zero =>
    refine ⟨rfl, fun u j => ?_, (Nat.mod_eq_of_lt haddr).symm, by simp [clearLoop]⟩
    rw [if_neg (by omega)]
    rfl
  | succ n ih =>
    obtain ⟨hdir, htable, hto, hgiven⟩ := ih (i + 1) (s.clear t i) (Nat.mod_lt _ (by decide))
    rw [clearLoop, if_pos (Nat.succ_pos n)]
    refine ⟨hdir, fun u j => ?_, ?_, ?_⟩
    · rw [htable]
      simp only [Unsetting.clear]
      by_cases hu : u = t
      · subst hu
        rw [Function.update_self]
        by_cases hj : j = i
        · rw [hj, Function.update_self, ite_self, if_pos (by omega)]
        · rw [Function.update_of_ne hj]
          congr 1
          apply propext
          omega
      · rw [Function.update_of_ne hu, if_neg fun h => hu h.1, if_neg fun h => hu h.1]
    · rw [hto]
      simp only [Unsetting.clear]
      omega
    · rw [hgiven, List.range_succ_eq_map, List.flatMap_cons, List.flatMap_map, ← List.append_assoc]
      congr 1
      · simp [Unsetting.clear]
      · refine List.flatMap_congr fun k _ => ?_
        simp only [Unsetting.clear, Function.update_self, Nat.succ_eq_add_one]
        rw [Function.update_of_ne (by omega)]
        congr 1
        · omega
        · congr 1
          omega

/-- On the last page of a table that is there the outer loop does nothing more. -/
theorem unsetLoop_last (count : Nat) (s : Unsetting) (hlast : s.addr % 0x400000 / 4096 = 1023)
    (hpresent : s.mmu.directory (s.addr / 0x400000) &&& Page.PTEVALID ≠ 0) :
    unsetLoop count s = s := by
  induction count with
  | zero => rw [unsetLoop, if_neg (by decide)]
  | succ count ih =>
    have hone : (if count + 1 < 1024 - 1023 then count + 1 else 1024 - 1023) = 1 := by
      split <;> omega
    rw [unsetLoop, if_pos (Nat.succ_pos count), hlast, if_neg hpresent, hone,
      Nat.add_sub_cancel]
    exact ih

section Reached

variable {m : Mmu} {p n k : Nat}

/-- When the first page has a table, the pages reached are those of this table that have a further
    page behind them. -/
theorem reached_of_present (hp : p < 1048576) (hn : n ≤ 524288) (h : m.Present p) :
    m.Reached p n k ↔ k + 1 < n ∧ k + 1 < 1024 - p % 1024 := by
  have hzero : pageAt p 0 = p := by
    unfold pageAt
    omega
  constructor
  · rintro ⟨hk, hsame, -, hfirst⟩
    have htable : p / 1024 = pageAt p k / 1024 := by
      rcases Nat.eq_zero_or_pos k with rfl | hpos
      · rw [hzero]
      · have := hfirst 0 hpos (by rwa [hzero])
        rwa [hzero] at this
    unfold pageAt at *
    omega
  · rintro ⟨hk, hin⟩
    have htable : ∀ j ≤ k + 1, pageAt p j / 1024 = p / 1024 := by
      intro j hj
      unfold pageAt
      omega
    refine ⟨hk, ?_, ?_, fun j hj _ => ?_⟩
    · rw [htable _ le_rfl, htable _ (Nat.le_succ k)]
    · rwa [Present, htable _ (Nat.le_succ k)]
    · rw [htable _ (by omega), htable _ (Nat.le_succ k)]

/-- Pages without a table are passed over. -/
theorem reached_skip {c : Nat} (hp : p < 1048576) (hc : c ≤ 1024 - p % 1024) (hcn : c ≤ n)
    (h : ¬ m.Present p) :
    m.Reached p n k ↔ c ≤ k ∧ m.Reached (pageAt p c) (n - c) (k - c) := by
  have habsent : ∀ j < c, ¬ m.Present (pageAt p j) := by
    intro j hj
    have : pageAt p j / 1024 = p / 1024 := by
      unfold pageAt
      omega
    rwa [Present, this]
  have hshift : ∀ j, pageAt (pageAt p c) j = pageAt p (c + j) := by
    intro j
    unfold pageAt
    omega
  unfold Reached
  constructor
  · rintro ⟨hk, hsame, hpresent, hfirst⟩
    have hck : c ≤ k := by
      by_contra hlt
      exact habsent k (by omega) hpresent
    rw [hshift, hshift, show c + (k - c + 1) = k + 1 by omega, show c + (k - c) = k by omega]
    refine ⟨hck, by omega, hsame, hpresent, fun j hj hj' => ?_⟩
    rw [hshift] at hj' ⊢
    exact hfirst (c + j) (by omega) hj'
  · rintro ⟨hck, hk, hsame, hpresent, hfirst⟩
    rw [hshift, hshift, show c + (k - c + 1) = k + 1 by omega,
      show c + (k - c) = k by omega] at hsame
    rw [hshift, show c + (k - c) = k by omega] at hpresent
    refine ⟨by omega, hsame, hpresent, fun j hj hj' => ?_⟩
    have hcj : c ≤ j := by
      by_contra hlt
      exact habsent j (by omega) hj'
    have hsame' := hfirst (j - c) (by omega)
    rw [hshift, hshift, show c + (j - c) = j by omega, show c + (k - c) = k by omega] at hsame'
    exact hsame' hj'

end Reached

/-- What the loops do: the entries of the pages that are reached are cleared and given back. -/
structure Unset (n : Nat) (s s' : Unsetting) : Prop where
  directory : s'.mmu.directory = s.mmu.directory
  table : ∀ u j, s'.mmu.table u j =
    if ∃ k < n, s.mmu.Reached (s.addr / 4096) n k ∧ pageAt (s.addr / 4096) k / 1024 = u ∧
      pageAt (s.addr / 4096) k % 1024 = j then 0 else s.mmu.table u j
  given : s'.given = s.given ++ (List.range n).flatMap fun k : Nat =>
    if s.mmu.Reached (s.addr / 4096) n k then
      giveBack (s.offset + 4096 * k) (s.mmu.entry (pageAt (s.addr / 4096) k))
    else []

/-- A list of values that are empty from `c` on. -/
theorem flatMap_range_lt {α : Type _} {n c : Nat} (hc : c ≤ n) (f : Nat → List α) :
    ((List.range n).flatMap fun k => if k < c then f k else []) = (List.range c).flatMap f := by
  obtain ⟨d, rfl⟩ := Nat.exists_eq_add_of_le hc
  rw [List.range_add, List.flatMap_append, List.flatMap_map]
  have hfront : ((List.range c).flatMap fun k => if k < c then f k else [])
      = (List.range c).flatMap f :=
    List.flatMap_congr fun k hk => if_pos (List.mem_range.mp hk)
  rw [hfront, List.flatMap_eq_nil_iff.mpr fun k _ => if_neg (by omega), List.append_nil]

/-- A list of values that are empty up to `c`. -/
theorem flatMap_range_ge {α : Type _} {n c : Nat} (hc : c ≤ n) {f : Nat → List α}
    (h : ∀ k < c, f k = []) :
    (List.range n).flatMap f = (List.range (n - c)).flatMap fun k => f (c + k) := by
  obtain ⟨d, rfl⟩ := Nat.exists_eq_add_of_le hc
  rw [List.range_add, List.flatMap_append, List.flatMap_map, Nat.add_sub_cancel_left,
    List.flatMap_eq_nil_iff.mpr fun k hk => h k (List.mem_range.mp hk), List.nil_append]

section Unset

variable {n c d : Nat} {s s' : Unsetting}

/-- A table that is not there, and what the loops do behind it. -/
theorem Unset.skip (hp : s.addr / 4096 < 1048576) (hin : c ≤ 1024 - s.addr / 4096 % 1024)
    (hcn : c ≤ n) (habsent : ¬ s.mmu.Present (s.addr / 4096))
    (h : Unset (n - c) { s with
      addr := (s.addr + 4096 * c) % 4294967296
      offset := s.offset + 4096 * c } s') : Unset n s s' := by
  have hpage : (s.addr + 4096 * c) % 4294967296 / 4096 = pageAt (s.addr / 4096) c := by
    unfold pageAt
    omega
  have hshift : ∀ k, pageAt (pageAt (s.addr / 4096) c) k = pageAt (s.addr / 4096) (c + k) := by
    intro k
    unfold pageAt
    omega
  have hreached : ∀ k, s.mmu.Reached (s.addr / 4096) n k ↔
      c ≤ k ∧ s.mmu.Reached (pageAt (s.addr / 4096) c) (n - c) (k - c) :=
    fun k => reached_skip hp hin hcn habsent
  obtain ⟨hdir, htable, hgiven⟩ := h
  simp only [hpage, hshift] at htable hgiven
  refine ⟨hdir, fun u j => ?_, ?_⟩
  · rw [htable]
    congr 1
    apply propext
    constructor
    · rintro ⟨k, hk, hr, hplace⟩
      exact ⟨c + k, by omega, (hreached _).mpr ⟨by omega, by rwa [Nat.add_sub_cancel_left]⟩, hplace⟩
    · rintro ⟨k, hk, hr, hplace⟩
      obtain ⟨hck, hr⟩ := (hreached k).mp hr
      exact ⟨k - c, by omega, hr, by rwa [Nat.add_sub_cancel' hck]⟩
  · rw [hgiven, flatMap_range_ge hcn fun k hk => if_neg fun hr => ?_]
    · congr 1
      refine List.flatMap_congr fun k _ => ?_
      have hiff := hreached (c + k)
      simp only [Nat.add_sub_cancel_left, Nat.le_add_right, true_and] at hiff
      simp only [hiff]
      congr 2
      push_cast
      omega
    · have := ((hreached k).mp hr).1
      omega

/-- A table that is there: all but the last of its pages in the range. -/
theorem Unset.of_clearLoop (hp : s.addr / 4096 < 1048576) (hn : n ≤ 524288)
    (haddr : s.addr < 4294967296) (hdn : d + 1 ≤ n) (hin : d + 1 ≤ 1024 - s.addr / 4096 % 1024)
    (hor : d + 1 = n ∨ d + 1 = 1024 - s.addr / 4096 % 1024)
    (hpresent : s.mmu.Present (s.addr / 4096)) :
    Unset n s (clearLoop (s.addr / 4096 / 1024) (d + 1) (s.addr / 4096 % 1024) s) := by
  have hreached : ∀ k, s.mmu.Reached (s.addr / 4096) n k ↔ k < d := by
    intro k
    rw [reached_of_present hp hn hpresent]
    omega
  have hpage : ∀ k < d, pageAt (s.addr / 4096) k / 1024 = s.addr / 4096 / 1024 ∧
      pageAt (s.addr / 4096) k % 1024 = s.addr / 4096 % 1024 + k := by
    intro k hk
    unfold pageAt
    omega
  obtain ⟨hdir, htable, -, hgiven⟩ :=
    clearLoop_spec (s.addr / 4096 / 1024) d (s.addr / 4096 % 1024) s haddr
  refine ⟨hdir, fun u j => ?_, ?_⟩
  · rw [htable]
    congr 1
    apply propext
    constructor
    · rintro ⟨rfl, hlo, hhi⟩
      have hk := hpage (j - s.addr / 4096 % 1024) (by omega)
      exact ⟨_, by omega, (hreached _).mpr (by omega), hk.1, by omega⟩
    · rintro ⟨k, -, hr, hu, hj⟩
      have hk := hpage k ((hreached k).mp hr)
      have := (hreached k).mp hr
      exact ⟨by omega, by omega, by omega⟩
  · rw [hgiven]
    simp only [hreached]
    rw [flatMap_range_lt (show d ≤ n by omega)]
    congr 1
    refine List.flatMap_congr fun k hk => ?_
    obtain ⟨hu, hj⟩ := hpage k (List.mem_range.mp hk)
    have hthere : s.mmu.Present (pageAt (s.addr / 4096) k) := by rwa [Present, hu]
    rw [entry, if_pos hthere, hu, hj]

end Unset

theorem unsetLoop_spec (n : Nat) (s : Unsetting) (haddr : s.addr < 4294967296)
    (hn : n ≤ 524288) : Unset n s (unsetLoop n s) := by
  induction n using Nat.strong_induction_on generalizing s with
  | _ n ih =>
    rw [unsetLoop]
    split
    · rename_i hpos
      have hp : s.addr / 4096 < 1048576 := by omega
      have htable : s.addr / 0x400000 = s.addr / 4096 / 1024 := by omega
      have hindex : s.addr % 0x400000 / 4096 = s.addr / 4096 % 1024 := by omega
      simp only [hindex, htable]
      generalize hc : (if n < 1024 - s.addr / 4096 % 1024 then n
        else 1024 - s.addr / 4096 % 1024) = c
      have hcpos : 0 < c ∧ c ≤ n ∧ c ≤ 1024 - s.addr / 4096 % 1024 ∧
          (c = n ∨ c = 1024 - s.addr / 4096 % 1024) := by
        split at hc <;> omega
      obtain ⟨hc0, hcn, hcin, hcor⟩ := hcpos
      split
      · rename_i habsent
        have hrest := ih (n - c) (by omega)
          { s with
            addr := (s.addr + 4096 * c) % 4294967296
            offset := s.offset + 4096 * c } (Nat.mod_lt _ (by decide)) (by omega)
        exact hrest.skip hp hcin hcn fun h => h habsent
      · rename_i hpresent
        obtain ⟨d, rfl⟩ : ∃ d, c = d + 1 := ⟨c - 1, by omega⟩
        have hclear := Unset.of_clearLoop hp hn haddr hcn hcin hcor hpresent
        rcases hcor with rfl | hend
        · rwa [Nat.sub_self, unsetLoop, if_neg (by decide)]
        · have hto := (clearLoop_spec (s.addr / 4096 / 1024) d (s.addr / 4096 % 1024) s haddr).2.2.1
          rw [unsetLoop_last]
          · exact hclear
          · rw [hto]
            omega
          · rw [hclear.directory, hto]
            have : (s.addr + 4096 * d) % 4294967296 / 0x400000 = s.addr / 4096 / 1024 := by omega
            rwa [this]
    · rename_i hzero
      obtain rfl : n = 0 := by omega
      exact ⟨rfl, fun u j => by simp, by simp⟩

/-! ## What was asked for -/

/-- How many pages have an address in `[start, start + count)`. -/
def pagesIn (start : Nat) (count : Int) : Nat :=
  if count ≤ 0 then 0 else (start % 4096 + count.toNat + 4095) / 4096

/-- The pages of the range have lost their entries, no other page has, and what each entry stood
    for is given back once. -/
structure Exact (m : Mmu) (start : Nat) (count offset : Int) (r : Mmu × List GivenBack) :
    Prop where
  directory : r.1.directory = m.directory
  cleared : ∀ k < pagesIn start count, r.1.entry (pageAt (start / 4096) k) = 0
  kept : ∀ page, (∀ k < pagesIn start count, page ≠ pageAt (start / 4096) k) →
    r.1.entry page = m.entry page
  given : r.2 = (List.range (pagesIn start count)).flatMap fun k : Nat =>
    giveBack (offset + 4096 * k) (m.entry (pageAt (start / 4096) k))

theorem pagesIn_bounds (start : Nat) {count : Int} (hcount : count < 2147483648) :
    (count.tdiv 4096).toNat ≤ pagesIn start count ∧ pagesIn start count < 1048576 ∧
      (count.tdiv 4096).toNat ≤ 524288 := by
  unfold pagesIn
  split
  · rename_i hneg
    obtain ⟨n, rfl⟩ : ∃ n : Nat, count = -n := ⟨(-count).toNat, by omega⟩
    rw [Int.neg_tdiv, Int.tdiv_eq_ediv_of_nonneg (by omega)]
    omega
  · rename_i hpos
    rw [Int.tdiv_eq_ediv_of_nonneg (by omega)]
    omega

theorem pageAt_inj {p k j : Nat} (hk : k < 1048576) (hj : j < 1048576)
    (h : pageAt p k = pageAt p j) : k = j := by
  unfold pageAt at h
  omega

/-- The entries behind the loops. -/
theorem Unset.entry_eq {n : Nat} {s s' : Unsetting} (h : Unset n s s') (page : Nat) :
    s'.mmu.entry page =
      if ∃ k < n, s.mmu.Reached (s.addr / 4096) n k ∧ pageAt (s.addr / 4096) k = page then 0
      else s.mmu.entry page := by
  have hpresent : s'.mmu.Present page ↔ s.mmu.Present page := by
    rw [Present, Present, h.directory]
  have hplace : ∀ k, (pageAt (s.addr / 4096) k / 1024 = page / 1024 ∧
      pageAt (s.addr / 4096) k % 1024 = page % 1024) ↔ pageAt (s.addr / 4096) k = page := by
    intro k
    omega
  simp only [entry, hpresent, h.table, hplace]
  split
  · rfl
  · exact ite_self 0 |>.symm

theorem giveBack_zero (offset : Int) : giveBack offset 0 = [] := by
  simp [giveBack]

/-- `unset` clears exactly the entries of the pages in `[start, start + count)` and gives each of
    them back once if and only if every page of the range that the loops do not get to has no
    entry anyway. -/
theorem unset_exact_iff (m : Mmu) (start : Nat) (hstart : start < 4294967296) (count : Int)
    (hcount : count < 2147483648) (offset : Int) :
    Exact m start count offset (m.unset start count offset) ↔
      ∀ k < pagesIn start count, m.Reached (start / 4096) (count.tdiv 4096).toNat k ∨
        m.entry (pageAt (start / 4096) k) = 0 := by
  obtain ⟨hle, hlt, hn⟩ := pagesIn_bounds start hcount
  have hspec := unsetLoop_spec (count.tdiv 4096).toNat ⟨m, start, offset, []⟩ hstart hn
  have hentry := hspec.entry_eq
  have hgiven := hspec.given
  simp only [List.nil_append] at hentry hgiven
  constructor
  · intro h k hk
    refine or_iff_not_imp_left.mpr fun hr => ?_
    have hzero := h.cleared k hk
    rw [unset, hentry, if_neg] at hzero
    · exact hzero
    · rintro ⟨j, hj, hr', hsame⟩
      rw [pageAt_inj (by omega) (by omega) hsame] at hr'
      exact hr hr'
  · intro h
    refine ⟨hspec.directory, fun k hk => ?_, fun page hpage => ?_, ?_⟩
    · rw [unset, hentry]
      split
      · rfl
      · rename_i hnot
        exact (h k hk).resolve_left fun hr => hnot ⟨k, by have := hr.1; omega, hr, rfl⟩
    · rw [unset, hentry, if_neg]
      rintro ⟨k, hk, -, hsame⟩
      exact hpage k (by omega) hsame.symm
    · rw [unset, hgiven, ← flatMap_range_lt hle]
      refine List.flatMap_congr fun k hk => ?_
      rcases h k (List.mem_range.mp hk) with hr | hzero
      · have := hr.1
        rw [if_pos (by omega), if_pos hr]
      · rw [hzero, giveBack_zero]
        split
        · split <;> rfl
        · rfl

/-- A range of three pages in one table, the last of which has no entry: a page of the object and
    one of the swap file are given back. -/
def threePages : Mmu where
  directory := fun t => if t = 0 then 0x5007 else 0
  table := fun _ i => if i = 1 then 0x9005 else if i = 2 then 0xa203 else 0

theorem unset_exact_threePages :
    Exact threePages 0x1000 0x3000 0 (threePages.unset 0x1000 0x3000 0) := by
  refine (unset_exact_iff threePages 0x1000 (by decide) 0x3000 (by decide) 0).mpr ?_
  decide +kernel

/-- A single page is not cleared at all. -/
theorem unset_not_exact :
    threePages.entry 1 = 0x9005 ∧ (threePages.unset 0x1000 0x1000 0).1.entry 1 = 0x9005 ∧
      (threePages.unset 0x1000 0x1000 0).2 = [] ∧
      ¬ Exact threePages 0x1000 0x1000 0 (threePages.unset 0x1000 0x1000 0) := by
  have hkept : (threePages.unset 0x1000 0x1000 0).1.entry 1 = 0x9005 := by decide +kernel
  refine ⟨by decide, hkept, by decide +kernel, fun h => ?_⟩
  have hzero := h.cleared 0 (by decide)
  rw [show pageAt (0x1000 / 4096) 0 = 1 from rfl, hkept] at hzero
  exact absurd hzero (by decide)

end Mmu

end EsOs.Kernel
