import Mathlib.Data.List.Nodup
import Mathlib.Logic.Function.Basic
import Mathlib.Tactic.Common

/-!
# Doubly linked segments

Elements that each hold a link to the one before and the one behind. A segment is a list of them
whose links follow its order; the links at its two ends lead to what is before and behind it. The
lemmas take segments apart, and move their ends to other neighbours.
-/

namespace EsOs.Lib

/-- The links of an element. -/
structure Link (α : Type _) where
  prev : Option α
  next : Option α
deriving DecidableEq, Repr

/-- The links of all the elements. -/
abbrev Links (α : Type _) := α → Link α

namespace Links

variable {α : Type _}

section Set

variable [DecidableEq α]

def setNext (s : Links α) (x : α) (v : Option α) : Links α :=
  Function.update s x { s x with next := v }

def setPrev (s : Links α) (x : α) (v : Option α) : Links α :=
  Function.update s x { s x with prev := v }

/-- Sets the link of an element if there is one. -/
def setNext? (s : Links α) : Option α → Option α → Links α
  | none, _ => s
  | some x, v => s.setNext x v

def setPrev? (s : Links α) : Option α → Option α → Links α
  | none, _ => s
  | some x, v => s.setPrev x v

variable {s : Links α} {x y : α} {o v w : Option α}

theorem setNext_apply (s : Links α) (x y : α) (v : Option α) :
    s.setNext x v y = if y = x then ⟨(s x).prev, v⟩ else s y := Function.update_apply ..

theorem setPrev_apply (s : Links α) (x y : α) (v : Option α) :
    s.setPrev x v y = if y = x then ⟨v, (s x).next⟩ else s y := Function.update_apply ..

@[simp] theorem setNext_self : s.setNext x v x = ⟨(s x).prev, v⟩ := Function.update_self ..

@[simp] theorem setPrev_self : s.setPrev x v x = ⟨v, (s x).next⟩ := Function.update_self ..

theorem setNext_of_ne (h : y ≠ x) : s.setNext x v y = s y := Function.update_of_ne h _ _

theorem setPrev_of_ne (h : y ≠ x) : s.setPrev x v y = s y := Function.update_of_ne h _ _

theorem setNext?_of_ne (h : ∀ x ∈ o, y ≠ x) : s.setNext? o v y = s y := by
  cases o with
  | none => rfl
  | some x => exact setNext_of_ne (h x rfl)

theorem setPrev?_of_ne (h : ∀ x ∈ o, y ≠ x) : s.setPrev? o v y = s y := by
  cases o with
  | none => rfl
  | some x => exact setPrev_of_ne (h x rfl)

/-- The two links of an element are set apart. -/
theorem setNext_setPrev (s : Links α) (x y : α) (v w : Option α) :
    (s.setNext x v).setPrev y w = (s.setPrev y w).setNext x v := by
  funext z
  by_cases hx : z = x <;> by_cases hy : z = y
  · subst hx hy
    simp
  · subst hx
    rw [setPrev_of_ne hy, setNext_self, setNext_self, setPrev_of_ne hy]
  · subst hy
    rw [setNext_of_ne hx, setPrev_self, setPrev_self, setNext_of_ne hx]
  · rw [setPrev_of_ne hy, setNext_of_ne hx, setNext_of_ne hx, setPrev_of_ne hy]

end Set

/-- The links of the elements follow the list, with `p` before it and `q` behind it. -/
def Segment (s : Links α) : Option α → List α → Option α → Prop
  | _, [], _ => True
  | p, x :: xs, q => s x = ⟨p, xs.head?.or q⟩ ∧ Segment s (some x) xs q

variable {s s' : Links α} {p p' q q' : Option α} {x : α} {xs ys : List α}

@[simp] theorem segment_nil : s.Segment p [] q := trivial

@[simp] theorem segment_cons :
    s.Segment p (x :: xs) q ↔ s x = ⟨p, xs.head?.or q⟩ ∧ s.Segment (some x) xs q := Iff.rfl

theorem getLast?_cons_or (x : α) (xs : List α) (p : Option α) :
    (x :: xs).getLast?.or p = xs.getLast?.or (some x) := by
  rw [List.getLast?_cons, Option.some_or]
  cases xs.getLast? <;> rfl

/-- Two segments that meet. -/
theorem segment_append :
    s.Segment p (xs ++ ys) q ↔
      s.Segment p xs (ys.head?.or q) ∧ s.Segment (xs.getLast?.or p) ys q := by
  induction xs generalizing p with
  | nil => simp
  | cons x xs ih =>
    rw [List.cons_append, segment_cons, segment_cons, ih, getLast?_cons_or, List.head?_append,
      Option.or_assoc, and_assoc]

/-- The links of an element in the middle. -/
theorem segment_mid :
    s.Segment p (xs ++ x :: ys) q ↔
      s.Segment p xs (some x) ∧ s x = ⟨xs.getLast?.or p, ys.head?.or q⟩ ∧
        s.Segment (some x) ys q := by
  rw [segment_append, segment_cons]
  rfl

theorem Segment.congr (h : s.Segment p xs q) (heq : ∀ x ∈ xs, s' x = s x) : s'.Segment p xs q := by
  induction xs generalizing p with
  | nil => trivial
  | cons x xs ih =>
    obtain ⟨hx, hxs⟩ := h
    exact ⟨(heq x List.mem_cons_self).trans hx,
      ih hxs fun y hy => heq y (List.mem_cons_of_mem _ hy)⟩

section Relink

variable [DecidableEq α]

/-- The last element gets another one behind it. -/
theorem Segment.setNext_last {last : α} (h : s.Segment p (xs ++ [last]) q)
    (hnodup : (xs ++ [last]).Nodup) :
    (s.setNext last q').Segment p (xs ++ [last]) q' := by
  obtain ⟨hxs, hlast, -⟩ := segment_mid.mp h
  have hne : ∀ x ∈ xs, x ≠ last := by
    rintro x hx rfl
    exact (List.nodup_append.mp hnodup).2.2 x hx x List.mem_cons_self rfl
  refine segment_mid.mpr ⟨hxs.congr fun x hx => setNext_of_ne (hne x hx), ?_, trivial⟩
  rw [setNext_self, hlast]
  rfl

/-- The first element gets another one before it. -/
theorem Segment.setPrev_first (h : s.Segment p (x :: xs) q) (hnodup : (x :: xs).Nodup) :
    (s.setPrev x p').Segment p' (x :: xs) q := by
  obtain ⟨hx, hxs⟩ := h
  have hnot := (List.nodup_cons.mp hnodup).1
  refine ⟨by rw [setPrev_self, hx], hxs.congr fun y hy => setPrev_of_ne ?_⟩
  rintro rfl
  exact hnot hy

theorem Segment.setNext? (h : s.Segment p xs q) (hnodup : xs.Nodup) :
    (s.setNext? xs.getLast? q').Segment p xs q' := by
  rcases List.eq_nil_or_concat xs with rfl | ⟨ys, last, rfl⟩
  · trivial
  · rw [List.concat_eq_append] at *
    rw [List.getLast?_concat]
    exact h.setNext_last hnodup

theorem Segment.setPrev? (h : s.Segment p xs q) (hnodup : xs.Nodup) :
    (s.setPrev? xs.head? p').Segment p' xs q := by
  cases xs with
  | nil => trivial
  | cons x xs => exact h.setPrev_first hnodup

/-- A segment whose elements are others than the one set. -/
theorem Segment.setNext?_of_not_mem {o v : Option α} (h : s.Segment p xs q)
    (hnot : ∀ x ∈ o, x ∉ xs) : (s.setNext? o v).Segment p xs q :=
  h.congr fun y hy => setNext?_of_ne fun x hx heq => hnot x hx (heq ▸ hy)

theorem Segment.setPrev?_of_not_mem {o v : Option α} (h : s.Segment p xs q)
    (hnot : ∀ x ∈ o, x ∉ xs) : (s.setPrev? o v).Segment p xs q :=
  h.congr fun y hy => setPrev?_of_ne fun x hx heq => hnot x hx (heq ▸ hy)

/-- Two segments become one when the last element of the first and the first element of the second
    are linked. -/
theorem Segment.join (hx : s.Segment p xs q') (hy : s.Segment p' ys q)
    (hnodup : (xs ++ ys).Nodup) :
    ((s.setPrev? ys.head? (xs.getLast?.or p)).setNext? xs.getLast? (ys.head?.or q)).Segment p
      (xs ++ ys) q := by
  obtain ⟨hxs, hys, hdisj⟩ := List.nodup_append.mp hnodup
  refine segment_append.mpr ⟨?_, ?_⟩
  · exact (hx.setPrev?_of_not_mem fun y hy hmem =>
      hdisj y hmem y (List.mem_of_mem_head? hy) rfl).setNext? hxs
  · exact (hy.setPrev? hys).setNext?_of_not_mem fun x hx hmem =>
      hdisj x (List.mem_of_getLast? hx) x hmem rfl

/-- The element gets the two neighbours, which lead to it in turn. -/
structure Inserted (s s' : Links α) (p : Option α) (item : α) (q : Option α) : Prop where
  self : s' item = ⟨p, q⟩
  before : ∀ x ∈ p, s' x = ⟨(s x).prev, some item⟩
  after : ∀ x ∈ q, s' x = ⟨some item, (s x).next⟩
  others : ∀ x, x ≠ item → x ∉ p → x ∉ q → s' x = s x

/-- A segment with an element inserted between two of its elements, or at one of its ends. -/
theorem Segment.inserted {item : α} (h : s.Segment none (xs ++ ys) none)
    (hnodup : (xs ++ ys).Nodup) (hnew : item ∉ xs ++ ys)
    (hins : Inserted s s' xs.getLast? item ys.head?) :
    s'.Segment none (xs ++ item :: ys) none := by
  obtain ⟨hxs, hys⟩ := segment_append.mp h
  obtain ⟨hnodupXs, hnodupYs, hdisj⟩ := List.nodup_append.mp hnodup
  rw [List.mem_append, not_or] at hnew
  refine segment_mid.mpr ⟨?_, by rw [hins.self, Option.or_none, Option.or_none], ?_⟩
  · refine (hxs.setNext? hnodupXs).congr fun x hx => ?_
    have hne : x ≠ item := fun heq => hnew.1 (heq ▸ hx)
    have hafter : x ∉ ys.head? := fun hmem => hdisj x hx x (List.mem_of_mem_head? hmem) rfl
    rcases hlast : xs.getLast? with - | last
    · exact hins.others x hne (by simp [hlast]) hafter
    · by_cases heq : x = last
      · subst heq
        rw [hins.before x hlast]
        exact setNext_self.symm
      · rw [hins.others x hne (by simp [hlast, Ne.symm heq]) hafter]
        exact (setNext_of_ne heq).symm
  · refine (hys.setPrev? hnodupYs).congr fun x hx => ?_
    have hne : x ≠ item := fun heq => hnew.2 (heq ▸ hx)
    have hbefore : x ∉ xs.getLast? := fun hmem => hdisj x (List.mem_of_getLast? hmem) x hx rfl
    rcases hfirst : ys.head? with - | first
    · exact hins.others x hne hbefore (by simp [hfirst])
    · by_cases heq : x = first
      · subst heq
        rw [hins.after x hfirst]
        exact setPrev_self.symm
      · rw [hins.others x hne hbefore (by simp [hfirst, Ne.symm heq])]
        exact (setPrev_of_ne heq).symm

end Relink

end Links

end EsOs.Lib
