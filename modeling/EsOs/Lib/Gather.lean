import EsOs.Lib.Extents

/-!
# Collecting the extents that touch

A table of records, each of which stands for an extent, is kept so that no two of them touch. A new
extent is put in by one pass over the table, which joins to it whatever it touches. The lemmas say
that one pass is enough, in whatever order the records stand.
-/

namespace EsOs.Lib

namespace Extent

instance : Membership Nat Extent := ⟨fun e x => e.left ≤ x ∧ x < e.right⟩

variable {a b c e : Extent} {x : Nat}

theorem mem_iff : x ∈ e ↔ e.left ≤ x ∧ x < e.left + e.size := Iff.rfl

/-- There is an address between the two extents. -/
def Clear (a b : Extent) : Prop := a.right < b.left ∨ b.right < a.left

instance (a b : Extent) : Decidable (Clear a b) := inferInstanceAs (Decidable (_ ∨ _))

/-- The least extent that holds both. -/
def join (a b : Extent) : Extent :=
  ⟨min a.left b.left, max a.right b.right - min a.left b.left⟩

theorem Clear.symm (h : Clear a b) : Clear b a := Or.symm h

@[simp] theorem join_left (a b : Extent) : (a.join b).left = min a.left b.left := rfl

@[simp] theorem join_right (a b : Extent) : (a.join b).right = max a.right b.right := by
  unfold join right
  dsimp only
  omega

/-- An extent between two that touch touches one of them. -/
theorem Clear.join (hab : ¬ Clear a b) (ha : Clear a c) (hb : Clear b c) : Clear (a.join b) c := by
  unfold Clear at *
  rw [join_left, join_right]
  unfold right at *
  omega

theorem mem_join (hab : ¬ Clear a b) : x ∈ a.join b ↔ x ∈ a ∨ x ∈ b := by
  change (a.join b).left ≤ x ∧ x < (a.join b).right ↔
    (a.left ≤ x ∧ x < a.right) ∨ (b.left ≤ x ∧ x < b.right)
  unfold Clear at hab
  rw [join_left, join_right]
  unfold right at *
  omega

section Absorb

variable {α : Type _} {f : α → Extent} {l : List α}

/-- One pass over a table: the extent with all it touches on the way, and the records that are
    left. -/
def absorb (f : α → Extent) : Extent → List α → Extent × List α
  | e, [] => (e, [])
  | e, a :: l =>
      if Clear e (f a) then ((absorb f e l).1, a :: (absorb f e l).2)
      else absorb f (e.join (f a)) l

theorem absorb_sublist : (absorb f e l).2.Sublist l := by
  induction l generalizing e with
  | nil => exact List.Sublist.refl _
  | cons a l ih =>
    unfold absorb
    split
    · exact ih.cons_cons a
    · exact ih.cons a

/-- The pass collects nothing when the extent touches no record. -/
theorem absorb_of_clear (h : ∀ a ∈ l, Clear e (f a)) : absorb f e l = (e, l) := by
  induction l with
  | nil => rfl
  | cons a l ih =>
    obtain ⟨ha, hl⟩ := List.forall_mem_cons.mp h
    rw [absorb, if_pos ha, ih hl]

/-- What is clear of the extent and of every record is clear of what the pass collects. -/
theorem absorb_clear_of (he : Clear e c) (hl : ∀ a ∈ l, Clear (f a) c) :
    Clear (absorb f e l).1 c := by
  induction l generalizing e with
  | nil => exact he
  | cons a l ih =>
    obtain ⟨ha, hl⟩ := List.forall_mem_cons.mp hl
    unfold absorb
    split
    · exact ih he hl
    · rename_i htouch
      exact ih (Clear.join htouch he ha) hl

/-- The collected extent touches no record that is left. -/
theorem absorb_clear (h : l.Pairwise fun a b => Clear (f a) (f b)) :
    ∀ a ∈ (absorb f e l).2, Clear (absorb f e l).1 (f a) := by
  induction l generalizing e with
  | nil => simp [absorb]
  | cons a l ih =>
    obtain ⟨ha, hl⟩ := List.pairwise_cons.mp h
    unfold absorb
    split
    · rename_i hclear
      intro c hc
      rcases List.mem_cons.mp hc with rfl | hc
      · exact absorb_clear_of hclear fun b hb => (ha b hb).symm
      · exact ih hl c hc
    · exact ih hl

/-- No address comes in and none is lost. -/
theorem absorb_mem :
    (x ∈ (absorb f e l).1 ∨ ∃ a ∈ (absorb f e l).2, x ∈ f a) ↔
      x ∈ e ∨ ∃ a ∈ l, x ∈ f a := by
  induction l generalizing e with
  | nil => exact Iff.rfl
  | cons a l ih =>
    unfold absorb
    split
    · simp only [List.mem_cons, exists_eq_or_imp]
      rw [or_left_comm, ih, or_left_comm]
    · rename_i htouch
      simp only [ih, mem_join htouch, List.mem_cons, exists_eq_or_imp, or_assoc]

/-- The collected extent lies where the parts lie. -/
theorem absorb_within {s : Extent} (he : Within e s) (hl : ∀ a ∈ l, Within (f a) s) :
    Within (absorb f e l).1 s := by
  induction l generalizing e with
  | nil => exact he
  | cons a l ih =>
    obtain ⟨ha, hl⟩ := List.forall_mem_cons.mp hl
    unfold absorb
    split
    · exact ih he hl
    · refine ih ?_ hl
      obtain ⟨hel, her⟩ := he
      obtain ⟨hal, har⟩ := ha
      exact ⟨by rw [join_left]; omega, by rw [join_right]; omega⟩

/-- The collected extent holds the one the pass began with. -/
theorem le_absorb : Within e (absorb f e l).1 := by
  induction l generalizing e with
  | nil => exact Within.refl e
  | cons a l ih =>
    unfold absorb
    split
    · exact ih
    · refine Within.trans ⟨?_, ?_⟩ ih
      · rw [join_left]
        omega
      · rw [join_right]
        omega

/-- A table none of whose records touch stays so when the collected extent is put in. -/
theorem absorb_pairwise (h : l.Pairwise fun a b => Clear (f a) (f b)) :
    (absorb f e l).2.Pairwise fun a b => Clear (f a) (f b) :=
  h.sublist absorb_sublist

end Absorb

end Extent

end EsOs.Lib
