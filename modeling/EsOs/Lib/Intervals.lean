import Mathlib

/-!
# Ordered lists of disjoint intervals

Records that each stand for a half-open interval `[lo x, hi x)` of a linear order, kept in a list
in ascending order without overlap. The lemmas say when the usual edits of such a list keep it
ordered: inserting a record into a gap, replacing one by a part of itself, and dropping or
shrinking any number of them. A range is covered when each of its points lies in one of them; a walk
along the list finds that out.
-/

namespace EsOs.Lib

variable {α β : Type _} [LinearOrder β]

/-- Every interval is non-empty and ends before the next one starts. -/
structure OrderedIntervals (lo hi : α → β) (l : List α) : Prop where
  nonempty : ∀ x ∈ l, lo x < hi x
  disjoint : l.Pairwise fun a b => hi a ≤ lo b

/-- `l'` comes from `l` by dropping some of its intervals and replacing others by a part of
    themselves. -/
inductive Shrinks (lo hi : α → β) : List α → List α → Prop
  | nil : Shrinks lo hi [] []
  | drop {x : α} {l l' : List α} : Shrinks lo hi l l' → Shrinks lo hi (x :: l) l'
  | keep {x x' : α} {l l' : List α} (hlo : lo x ≤ lo x') (hne : lo x' < hi x')
      (hhi : hi x' ≤ hi x) : Shrinks lo hi l l' → Shrinks lo hi (x :: l) (x' :: l')

namespace OrderedIntervals

variable {lo hi : α → β} {l : List α} {x y : α}

theorem nil : OrderedIntervals lo hi ([] : List α) :=
  ⟨by simp, List.Pairwise.nil⟩

theorem tail (h : OrderedIntervals lo hi (x :: l)) : OrderedIntervals lo hi l :=
  ⟨fun y hy => h.nonempty y (List.mem_cons_of_mem _ hy), h.disjoint.of_cons⟩

theorem hi_le_of_mem_tail (h : OrderedIntervals lo hi (x :: l)) (hy : y ∈ l) : hi x ≤ lo y :=
  List.rel_of_pairwise_cons h.disjoint hy

/-- A bound below the first interval is a bound below all of them. -/
theorem le_lo_of_le_head {c : β} (h : OrderedIntervals lo hi (x :: l)) (hc : c ≤ lo x)
    (hy : y ∈ x :: l) : c ≤ lo y := by
  rcases List.mem_cons.mp hy with rfl | hy
  · exact hc
  · have hx := h.nonempty x List.mem_cons_self
    exact hc.trans (hx.le.trans (h.hi_le_of_mem_tail hy))

/-- A new interval fits between two parts of the list. -/
theorem insert {before after : List α} (h : OrderedIntervals lo hi (before ++ after))
    (hx : lo x < hi x) (hbefore : ∀ y ∈ before, hi y ≤ lo x)
    (hafter : ∀ y ∈ after, hi x ≤ lo y) :
    OrderedIntervals lo hi (before ++ x :: after) := by
  obtain ⟨hb, ha, hba⟩ := List.pairwise_append.mp h.disjoint
  refine ⟨?_, List.pairwise_append.mpr ⟨hb, List.pairwise_cons.mpr ⟨hafter, ha⟩, ?_⟩⟩
  · intro y hy
    rcases List.mem_append.mp hy with hy | hy
    · exact h.nonempty y (List.mem_append_left _ hy)
    · rcases List.mem_cons.mp hy with rfl | hy
      · exact hx
      · exact h.nonempty y (List.mem_append_right _ hy)
  · intro y hy z hz
    rcases List.mem_cons.mp hz with rfl | hz
    · exact hbefore y hy
    · exact hba y hy z hz

/-- An interval may be replaced by any other that stays clear of its neighbours. -/
theorem replace {x' : α} {before after : List α}
    (h : OrderedIntervals lo hi (before ++ x :: after)) (hx : lo x' < hi x')
    (hlo : lo x ≤ lo x') (hafter : ∀ y ∈ after, hi x' ≤ lo y) :
    OrderedIntervals lo hi (before ++ x' :: after) := by
  obtain ⟨hb, ha, hba⟩ := List.pairwise_append.mp h.disjoint
  have hrest : OrderedIntervals lo hi (before ++ after) := by
    refine ⟨fun y hy => h.nonempty y ?_, List.pairwise_append.mpr ⟨hb, ha.of_cons, ?_⟩⟩
    · rcases List.mem_append.mp hy with hy | hy
      · exact List.mem_append_left _ hy
      · exact List.mem_append_right _ (List.mem_cons_of_mem _ hy)
    · exact fun y hy z hz => hba y hy z (List.mem_cons_of_mem _ hz)
  exact hrest.insert hx (fun y hy => (hba y hy x List.mem_cons_self).trans hlo) hafter

end OrderedIntervals

namespace Shrinks

variable {lo hi : α → β} {l l' : List α}

theorem refl (h : ∀ x ∈ l, lo x < hi x) : Shrinks lo hi l l := by
  induction l with
  | nil => exact .nil
  | cons x l ih =>
    exact .keep le_rfl (h x List.mem_cons_self) le_rfl
      (ih fun y hy => h y (List.mem_cons_of_mem _ hy))

/-- Every interval that is left is a part of an old one. -/
theorem exists_of_mem (h : Shrinks lo hi l l') {x' : α} (hx : x' ∈ l') :
    ∃ x ∈ l, lo x ≤ lo x' ∧ lo x' < hi x' ∧ hi x' ≤ hi x := by
  induction h with
  | nil => cases hx
  | drop _ ih =>
    obtain ⟨x, hx, hin⟩ := ih hx
    exact ⟨x, List.mem_cons_of_mem _ hx, hin⟩
  | keep hlo hne hhi _ ih =>
    rcases List.mem_cons.mp hx with rfl | hx
    · exact ⟨_, List.mem_cons_self, hlo, hne, hhi⟩
    · obtain ⟨x, hx, hin⟩ := ih hx
      exact ⟨x, List.mem_cons_of_mem _ hx, hin⟩

/-- Dropping and shrinking keep the list ordered. -/
theorem ordered (h : Shrinks lo hi l l') (hl : OrderedIntervals lo hi l) :
    OrderedIntervals lo hi l' := by
  induction h with
  | nil => exact hl
  | drop _ ih => exact ih hl.tail
  | @keep x x' l l' hlo hne hhi hs ih =>
    have hl' := ih hl.tail
    refine ⟨?_, List.pairwise_cons.mpr ⟨?_, hl'.disjoint⟩⟩
    · intro y hy
      rcases List.mem_cons.mp hy with rfl | hy
      · exact hne
      · exact hl'.nonempty y hy
    · intro y hy
      obtain ⟨z, hz, hzy, -, -⟩ := hs.exists_of_mem hy
      exact hhi.trans ((hl.hi_le_of_mem_tail hz).trans hzy)

end Shrinks

/-! ## Covered ranges -/

/-- Every point of `[a, b)` lies in an interval of the list whose record is a good one. -/
def Covered (lo hi : α → β) (good : α → Prop) (l : List α) (a b : β) : Prop :=
  ∀ c, a ≤ c → c < b → ∃ x ∈ l, lo x ≤ c ∧ c < hi x ∧ good x

section Covered

variable {lo hi : α → β} {good : α → Prop} {l : List α} {x : α} {a b : β}

theorem covered_nil (h : a < b) : ¬ Covered lo hi good [] a b := by
  intro hcov
  obtain ⟨x, hx, -⟩ := hcov a le_rfl h
  cases hx

/-- An interval that ends before the range does not count. -/
theorem covered_cons_of_hi_le (h : hi x ≤ a) :
    Covered lo hi good (x :: l) a b ↔ Covered lo hi good l a b := by
  constructor
  · intro hcov c hac hcb
    obtain ⟨y, hy, hlo, hhi, hgood⟩ := hcov c hac hcb
    rcases List.mem_cons.mp hy with rfl | hy
    · exact absurd (h.trans hac) (not_le.mpr hhi)
    · exact ⟨y, hy, hlo, hhi, hgood⟩
  · intro hcov c hac hcb
    obtain ⟨y, hy, hin⟩ := hcov c hac hcb
    exact ⟨y, List.mem_cons_of_mem _ hy, hin⟩

/-- A range that starts before the first interval has an uncovered point. -/
theorem covered_cons_of_lt_lo (hl : OrderedIntervals lo hi (x :: l)) (h : a < lo x) (hab : a < b) :
    ¬ Covered lo hi good (x :: l) a b := by
  intro hcov
  obtain ⟨y, hy, hlo, -⟩ := hcov a le_rfl hab
  exact absurd (hl.le_lo_of_le_head le_rfl hy) (not_le.mpr (hlo.trans_lt h))

/-- A range that starts in the first interval: its record counts, and what lies behind the interval
    is left to the others. -/
theorem covered_cons_of_mem (hl : OrderedIntervals lo hi (x :: l)) (hlo : lo x ≤ a)
    (hhi : a < hi x) (hab : a < b) :
    Covered lo hi good (x :: l) a b ↔ good x ∧ (b ≤ hi x ∨ Covered lo hi good l (hi x) b) := by
  have hfirst : ∀ y ∈ x :: l, ∀ c, lo y ≤ c → c < hi x → y = x := by
    intro y hy c hyc hcx
    rcases List.mem_cons.mp hy with rfl | hy
    · rfl
    · exact absurd ((hl.hi_le_of_mem_tail hy).trans hyc) (not_le.mpr hcx)
  constructor
  · intro hcov
    obtain ⟨y, hy, hya, -, hgood⟩ := hcov a le_rfl hab
    rw [hfirst y hy a hya hhi] at hgood
    refine ⟨hgood, (le_or_gt b (hi x)).imp_right fun hlt c hac hcb => ?_⟩
    obtain ⟨z, hz, hzc, hcz, hgoodz⟩ := hcov c (hhi.le.trans hac) hcb
    rcases List.mem_cons.mp hz with rfl | hz
    · exact absurd hcz (not_lt.mpr hac)
    · exact ⟨z, hz, hzc, hcz, hgoodz⟩
  · rintro ⟨hgood, hrest⟩ c hac hcb
    by_cases hcx : c < hi x
    · exact ⟨x, List.mem_cons_self, hlo.trans hac, hcx, hgood⟩
    · have hxc := not_lt.mp hcx
      obtain ⟨y, hy, hin⟩ :=
        (hrest.resolve_left (not_le.mpr (hxc.trans_lt hcb))) c hxc hcb
      exact ⟨y, List.mem_cons_of_mem _ hy, hin⟩

end Covered

end EsOs.Lib
