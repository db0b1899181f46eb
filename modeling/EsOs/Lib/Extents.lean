import Mathlib

/-!
# Extents of an address space

An extent is a run of addresses. A separated list holds non-empty extents in ascending order with a
gap between any two, as the free list of an allocator that joins what touches. The lemmas say how
such a list is cut and filled, and when it is a single extent.
-/

namespace EsOs.Lib

/-- The addresses from `left` on, `size` of them. -/
structure Extent where
  left : Nat
  size : Nat
deriving DecidableEq, Repr

namespace Extent

def right (e : Extent) : Nat := e.left + e.size

/-- No address lies in both extents. -/
def Apart (a b : Extent) : Prop := a.right ≤ b.left ∨ b.right ≤ a.left

/-- All the addresses of the first extent lie in the second. -/
def Within (a b : Extent) : Prop := b.left ≤ a.left ∧ a.right ≤ b.right

instance (a b : Extent) : Decidable (Apart a b) := inferInstanceAs (Decidable (_ ∨ _))

instance (a b : Extent) : Decidable (Within a b) := inferInstanceAs (Decidable (_ ∧ _))

/-- The number of addresses in the extents of a list that lie apart. -/
def total (l : List Extent) : Nat := (l.map size).sum

variable {a b c e : Extent} {l r k : List Extent}

@[simp] theorem total_nil : total [] = 0 := rfl

@[simp] theorem total_cons (e : Extent) (l : List Extent) : total (e :: l) = e.size + total l :=
  List.sum_cons

@[simp] theorem total_append (l r : List Extent) : total (l ++ r) = total l + total r := by
  simp [total]

/-- Empty extents hold nothing. -/
theorem total_filter (l : List Extent) : total (l.filter fun e => decide (0 < e.size)) = total l := by
  induction l with
  | nil => rfl
  | cons e l ih =>
    rw [List.filter_cons]
    by_cases he : 0 < e.size
    · simp [he, ih]
    · simp [he, ih, Nat.eq_zero_of_not_pos he]

theorem Apart.symm (h : Apart a b) : Apart b a := Or.symm h

theorem Within.refl (a : Extent) : Within a a := ⟨Nat.le_refl _, Nat.le_refl _⟩

theorem Within.trans (hab : Within a b) (hbc : Within b c) : Within a c :=
  ⟨Nat.le_trans hbc.1 hab.1, Nat.le_trans hab.2 hbc.2⟩

/-- A part of an extent is apart from what the extent is apart from. -/
theorem Apart.mono (h : Apart b c) (hab : Within a b) : Apart a c := by
  obtain ⟨hl, hr⟩ := hab
  unfold Apart at *
  omega

/-- Non-empty extents in ascending order, with a gap between any two. -/
structure Separated (l : List Extent) : Prop where
  pos : ∀ e ∈ l, 0 < e.size
  gaps : l.Pairwise fun a b => a.right < b.left

namespace Separated

theorem nil : Separated [] := ⟨by simp, List.Pairwise.nil⟩

theorem mid (h : Separated (l ++ e :: r)) :
    0 < e.size ∧ (∀ a ∈ l, a.right < e.left) ∧ (∀ a ∈ r, e.right < a.left) := by
  obtain ⟨-, hr, hlr⟩ := List.pairwise_append.mp h.gaps
  exact ⟨h.pos e (by simp), fun a ha => hlr a ha e List.mem_cons_self,
    fun a ha => List.rel_of_pairwise_cons hr ha⟩

/-- The extents of a part of the list in their order. -/
theorem sublist (h : Separated l) (hs : k.Sublist l) : Separated k :=
  ⟨fun e he => h.pos e (hs.subset he), h.gaps.sublist hs⟩

/-- An extent and a longer one that stays clear of its neighbours may stand for each other, and so
    may any number of extents that lie in it. -/
theorem refill (h : Separated (l ++ r)) (hk : Separated k) (hl : ∀ a ∈ l, ∀ x ∈ k, a.right < x.left)
    (hr : ∀ a ∈ r, ∀ x ∈ k, x.right < a.left) : Separated (l ++ k ++ r) := by
  obtain ⟨hgl, hgr, hlr⟩ := List.pairwise_append.mp h.gaps
  refine ⟨fun e he => ?_, ?_⟩
  · simp only [List.mem_append] at he
    rcases he with (he | he) | he
    · exact h.pos e (List.mem_append_left _ he)
    · exact hk.pos e he
    · exact h.pos e (List.mem_append_right _ he)
  · refine List.pairwise_append.mpr ⟨List.pairwise_append.mpr ⟨hgl, hk.gaps, hl⟩, hgr, ?_⟩
    intro a ha b hb
    rcases List.mem_append.mp ha with ha | ha
    · exact hlr a ha b hb
    · exact hr b hb a ha

/-- Cutting parts out of one extent of the list. -/
theorem cut (h : Separated (l ++ e :: r)) (hk : Separated k) (hin : ∀ x ∈ k, Within x e) :
    Separated (l ++ k ++ r) := by
  obtain ⟨-, hl, hr⟩ := h.mid
  refine (h.sublist (by simp)).refill hk (fun a ha x hx => ?_) fun a ha x hx => ?_
  · exact Nat.lt_of_lt_of_le (hl a ha) (hin x hx).1
  · exact Nat.lt_of_le_of_lt (hin x hx).2 (hr a ha)

/-- What lies apart from a list and not behind its first address lies before it. -/
theorem before_of_apart (h : Separated l) (he : 0 < e.size) (ha : ∀ x ∈ l, Apart e x)
    (hle : ∀ x ∈ l, e.left ≤ x.left) : ∀ x ∈ l, e.right ≤ x.left := by
  intro x hx
  have hpos := h.pos x hx
  have hle := hle x hx
  rcases ha x hx with hbefore | hafter
  · exact hbefore
  · unfold right at *
    omega

/-- Extents of a separated list within `space` hold no more addresses than it, and fewer if there
    are two of them. -/
theorem total_le {space : Extent} (h : Separated l) (hin : ∀ e ∈ l, Within e space) :
    total l + (l.length - 1) ≤ space.size := by
  induction l generalizing space with
  | nil => simp
  | cons e l ih =>
    obtain ⟨hl, hr⟩ := hin e List.mem_cons_self
    unfold right at hr
    cases l with
    | nil =>
      simp only [total_cons, total_nil, List.length_singleton]
      omega
    | cons x l =>
      obtain ⟨-, -, hgap⟩ := Separated.mid (l := []) h
      have hrest := @ih ⟨e.right + 1, space.right - (e.right + 1)⟩
        (h.sublist (List.sublist_cons_self _ _)) fun y hy => by
          have := hgap y hy
          have := hin y (List.mem_cons_of_mem _ hy)
          unfold Within right at *
          dsimp only
          omega
      have hx := hgap x List.mem_cons_self
      have hxin := hin x (List.mem_cons_of_mem _ List.mem_cons_self)
      have hpos := h.pos x (List.mem_cons_of_mem _ List.mem_cons_self)
      unfold Within right at *
      rw [total_cons]
      simp only [List.length_cons] at hrest ⊢
      omega

/-- A separated list that holds all the addresses of a space is that space. -/
theorem eq_singleton {space : Extent} (h : Separated l) (hin : ∀ e ∈ l, Within e space)
    (hpos : 0 < space.size) (htotal : total l = space.size) : l = [space] := by
  have hle := h.total_le hin
  match l with
  | [] =>
    rw [total_nil] at htotal
    omega
  | [e] =>
    obtain ⟨left, size⟩ := e
    obtain ⟨hl, hr⟩ := hin ⟨left, size⟩ List.mem_cons_self
    unfold right at hr
    simp only [total_cons, total_nil, Nat.add_zero] at htotal hl hr
    subst htotal
    obtain rfl : left = space.left := by omega
    rfl
  | e :: x :: l =>
    simp only [List.length_cons] at hle
    omega

end Separated

/-- `r` describes the addresses of `l` with other extents, as after joining some that touch. -/
structure Gathered (l r : List Extent) : Prop where
  total : total r = total l
  within : ∀ space, (∀ e ∈ l, Within e space) → ∀ e ∈ r, Within e space
  apart : ∀ x : Extent, 0 < x.size → (∀ e ∈ l, Apart x e) → ∀ e ∈ r, Apart x e
  aligned : ∀ n, (∀ e ∈ l, n ∣ e.left ∧ n ∣ e.size) → ∀ e ∈ r, n ∣ e.left ∧ n ∣ e.size

namespace Gathered

variable {l' r' : List Extent}

theorem refl (l : List Extent) : Gathered l l :=
  ⟨rfl, fun _ h => h, fun _ _ h => h, fun _ h => h⟩

theorem trans (h : Gathered l k) (h' : Gathered k r) : Gathered l r where
  total := h'.total.trans h.total
  within space hin := h'.within space (h.within space hin)
  apart x hx hl := h'.apart x hx (h.apart x hx hl)
  aligned n hl := h'.aligned n (h.aligned n hl)

theorem append (h : Gathered l l') (h' : Gathered r r') : Gathered (l ++ r) (l' ++ r') where
  total := by rw [total_append, total_append, h.total, h'.total]
  within space hin := by
    simp only [List.forall_mem_append] at hin ⊢
    exact ⟨h.within space hin.1, h'.within space hin.2⟩
  apart x hx hl := by
    simp only [List.forall_mem_append] at hl ⊢
    exact ⟨h.apart x hx hl.1, h'.apart x hx hl.2⟩
  aligned n hl := by
    simp only [List.forall_mem_append] at hl ⊢
    exact ⟨h.aligned n hl.1, h'.aligned n hl.2⟩

theorem perm (h : l.Perm r) : Gathered l r where
  total := ((h.map size).sum_eq).symm
  within _ hin e he := hin e (h.mem_iff.mpr he)
  apart _ _ hl e he := hl e (h.mem_iff.mpr he)
  aligned _ hl e he := hl e (h.mem_iff.mpr he)

/-- Two extents that touch make one. -/
theorem join (h : a.right = b.left) : Gathered [a, b] [⟨a.left, a.size + b.size⟩] where
  total := by simp
  within space hin := by
    simp only [List.forall_mem_cons, List.not_mem_nil, false_implies, implies_true, and_true,
      Within, right] at *
    omega
  apart x hx hl := by
    simp only [List.forall_mem_cons, List.not_mem_nil, false_implies, implies_true, and_true,
      Apart, right] at *
    omega
  aligned n hl := by
    simp only [List.forall_mem_cons, List.not_mem_nil, false_implies, implies_true, and_true] at *
    exact ⟨hl.1.1, Nat.dvd_add hl.1.2 hl.2.2⟩

end Gathered

end Extent

end EsOs.Lib
