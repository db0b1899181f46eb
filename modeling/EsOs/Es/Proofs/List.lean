import Mathlib.Data.List.Induction
import EsOs.Es.List

/-!
# The linked list is a sequence

`Holds` ties a list to the sequence of its elements. Each operation is a change of the sequence at
one place, and it touches no element outside of the sequences it works on.
-/

namespace EsOs.Es

open EsOs.Lib

variable {α : Type _}

/-- The list has the elements of the sequence, each once, and both chains of links follow it. -/
structure ListBase.Holds (l : ListBase α) (s : Links α) (xs : List α) : Prop where
  segment : s.Segment none xs none
  head : l.head = xs.head?
  tail : l.tail = xs.getLast?
  nodup : xs.Nodup

namespace ListBase.Holds

variable {s s' : Links α} {l : ListBase α} {xs as bs : List α} {x item : α}

theorem empty (s : Links α) : (ListBase.empty : ListBase α).Holds s [] :=
  ⟨trivial, rfl, rfl, List.nodup_nil⟩

theorem congr (h : l.Holds s xs) (heq : ∀ x ∈ xs, s' x = s x) : l.Holds s' xs :=
  ⟨h.segment.congr heq, h.head, h.tail, h.nodup⟩

theorem ends (h : l.Holds s xs) : l = ⟨xs.head?, xs.getLast?⟩ := by
  rw [← h.head, ← h.tail]

/-- The links of an element of the list. -/
theorem link (h : l.Holds s (as ++ x :: bs)) : s x = ⟨as.getLast?, bs.head?⟩ := by
  have := (Links.segment_mid.mp h.segment).2.1
  rwa [Option.or_none, Option.or_none] at this

end ListBase.Holds

/-! ## Traversals -/

section Traversals

variable {s : Links α} {xs : List α} {p q : Option α} {calls : Nat}

theorem ListBase.forward_segment (h : s.Segment p xs none) {pre cur : Option α}
    (hcalls : xs.length < calls) : forward s calls ⟨pre, xs.head?, cur⟩ = some xs := by
  induction xs generalizing p pre cur calls with
  | nil =>
    obtain ⟨n, rfl⟩ := Nat.exists_eq_add_of_lt hcalls
    rfl
  | cons y ys ih =>
    obtain ⟨n, rfl⟩ : ∃ n, calls = n + 1 := ⟨calls - 1, by simp at hcalls; omega⟩
    obtain ⟨hy, hys⟩ := h
    simp only [forward, ListIterator.next, List.head?_cons, hy, Option.or_none]
    rw [ih hys (by simpa using hcalls)]
    rfl

theorem ListBase.backward_segment (h : s.Segment none xs q) {suc cur : Option α}
    (hcalls : xs.length < calls) : backward s calls ⟨xs.getLast?, suc, cur⟩ = some xs.reverse := by
  induction xs using List.reverseRecOn generalizing q suc cur calls with
  | nil =>
    obtain ⟨n, rfl⟩ := Nat.exists_eq_add_of_lt hcalls
    rfl
  | append_singleton ys y ih =>
    obtain ⟨n, rfl⟩ : ∃ n, calls = n + 1 := ⟨calls - 1, by simp at hcalls; omega⟩
    obtain ⟨hys, hy, -⟩ := Links.segment_mid.mp h
    simp only [backward, ListIterator.previous, List.getLast?_concat, hy, Option.or_none]
    rw [ih hys (by simpa using hcalls), List.reverse_append]
    rfl

theorem ListBase.containsLoop_segment [DecidableEq α] (h : s.Segment p xs none) (item : α)
    {pre cur : Option α} (hcalls : xs.length < calls) :
    containsLoop s item calls ⟨pre, xs.head?, cur⟩ = some (decide (item ∈ xs)) := by
  induction xs generalizing p pre cur calls with
  | nil =>
    obtain ⟨n, rfl⟩ := Nat.exists_eq_add_of_lt hcalls
    simp [containsLoop, ListIterator.next]
  | cons y ys ih =>
    obtain ⟨n, rfl⟩ : ∃ n, calls = n + 1 := ⟨calls - 1, by simp at hcalls; omega⟩
    obtain ⟨hy, hys⟩ := h
    simp only [containsLoop, ListIterator.next, List.head?_cons, hy, Option.or_none]
    rw [ih hys (by simpa using hcalls)]
    by_cases heq : y = item
    · simp [heq]
    · simp [heq, Ne.symm heq]

end Traversals

/-! ## The operations -/

namespace ListBase.Holds

variable [DecidableEq α] {s s' : Links α} {l : ListBase α} {xs ys as bs : List α} {x item : α}

/-- The elements outside of the sequence keep their links. -/
def Keeps (s s' : Links α) (xs : List α) : Prop := ∀ y, y ∉ xs → s' y = s y

/-- An operation that gives a new element its place. -/
theorem inserted {l' : ListBase α} (h : l.Holds s (as ++ bs)) (hnew : item ∉ as ++ bs)
    (hins : Links.Inserted s s' as.getLast? item bs.head?)
    (hends : l' = ⟨(as ++ item :: bs).head?, (as ++ item :: bs).getLast?⟩) :
    l'.Holds s' (as ++ item :: bs) ∧ Keeps s s' (as ++ item :: bs) := by
  subst hends
  refine ⟨⟨h.segment.inserted h.nodup hnew hins, rfl, rfl, ?_⟩, fun y hy => ?_⟩
  · rw [List.nodup_middle]
    exact List.nodup_cons.mpr ⟨hnew, h.nodup⟩
  · simp only [List.mem_append, List.mem_cons, not_or] at hy
    exact hins.others y hy.2.1 (fun hmem => hy.1 (List.mem_of_getLast? hmem))
      fun hmem => hy.2.2 (List.mem_of_mem_head? hmem)

theorem addFirst (h : l.Holds s xs) (hnew : item ∉ xs) :
    (l.addFirst s item).2.Holds (l.addFirst s item).1 (item :: xs) ∧
      Keeps s (l.addFirst s item).1 (item :: xs) := by
  have hfront : l.Holds s ([] ++ xs) := h
  have hout : item ∉ [] ++ xs := hnew
  refine inserted hfront hout ?_ ?_
  · simp only [ListBase.addFirst, h.head, List.getLast?_nil]
    cases xs with
    | nil =>
      simp only [List.head?_nil]
      constructor <;> grind [Links.setNext_apply, Links.setPrev_apply, Option.mem_def]
    | cons y ys =>
      simp only [List.head?_cons]
      constructor <;> grind [Links.setNext_apply, Links.setPrev_apply, Option.mem_def]
  · rw [ListBase.addFirst, h.head, h.tail]
    cases xs <;> simp

theorem addLast (h : l.Holds s xs) (hnew : item ∉ xs) :
    (l.addLast s item).2.Holds (l.addLast s item).1 (xs ++ [item]) ∧
      Keeps s (l.addLast s item).1 (xs ++ [item]) := by
  refine inserted (by rwa [List.append_nil]) (by rwa [List.append_nil]) ?_ ?_
  · simp only [ListBase.addLast, h.tail, List.head?_nil]
    rcases hlast : xs.getLast? with - | last
    · constructor <;> grind [Links.setNext_apply, Links.setPrev_apply, Option.mem_def]
    · have := List.mem_of_getLast? hlast
      constructor <;> grind [Links.setNext_apply, Links.setPrev_apply, Option.mem_def]
  · rw [ListBase.addLast, h.head, h.tail]
    cases xs <;> simp [List.getLast?_cons]

theorem addAfter {before : α} (h : l.Holds s (as ++ before :: bs))
    (hnew : item ∉ as ++ before :: bs) :
    (l.addAfter s before item).2.Holds (l.addAfter s before item).1
        (as ++ before :: item :: bs) ∧
      Keeps s (l.addAfter s before item).1 (as ++ before :: item :: bs) := by
  have hbefore := h.link
  have hnext : (((s.setPrev item (some before)).setNext item
      (s.setPrev item (some before) before).next).setNext before (some item) item).next
        = bs.head? := by
    grind [Links.setNext_apply, Links.setPrev_apply, Option.mem_def]
  have hsplit : as ++ before :: item :: bs = (as ++ [before]) ++ item :: bs := by simp
  rw [hsplit]
  refine inserted (by simpa using h) (by simpa using hnew) ?_ ?_
  · rw [List.getLast?_concat]
    have hnodup := h.nodup
    simp only [ListBase.addAfter, hnext]
    cases bs with
    | nil =>
      simp only [List.head?_nil]
      constructor <;> grind [Links.setNext_apply, Links.setPrev_apply, Option.mem_def]
    | cons y ys =>
      simp only [List.head?_cons]
      constructor <;> grind [Links.setNext_apply, Links.setPrev_apply, Option.mem_def]
  · simp only [ListBase.addAfter, hnext]
    cases bs <;> simp [h.ends, List.getLast?_cons]

theorem addBefore {after : α} (h : l.Holds s (as ++ after :: bs))
    (hnew : item ∉ as ++ after :: bs) :
    (l.addBefore s item after).2.Holds (l.addBefore s item after).1
        (as ++ item :: after :: bs) ∧
      Keeps s (l.addBefore s item after).1 (as ++ item :: after :: bs) := by
  have hafter := h.link
  have hprev : (((s.setPrev item (s after).prev).setNext item (some after)).setPrev after
      (some item) item).prev = as.getLast? := by
    grind [Links.setNext_apply, Links.setPrev_apply, Option.mem_def]
  refine inserted h hnew ?_ ?_
  · have hnodup := h.nodup
    simp only [ListBase.addBefore, hprev]
    rcases hlast : as.getLast? with - | last
    · constructor <;> grind [Links.setNext_apply, Links.setPrev_apply, Option.mem_def]
    · have := List.mem_of_getLast? hlast
      constructor <;> grind [Links.setNext_apply, Links.setPrev_apply, Option.mem_def]
  · simp only [ListBase.addBefore, hprev]
    rcases List.eq_nil_or_concat as with rfl | ⟨ys, y, rfl⟩
    · simp [h.tail, List.getLast?_cons]
    · simp [h.ends, List.getLast?_cons]

theorem remove (h : l.Holds s (as ++ item :: bs)) :
    (l.remove s item).2.Holds (l.remove s item).1 (as ++ bs) ∧
      Keeps s (l.remove s item).1 (as ++ bs) := by
  obtain ⟨has, -, hbs⟩ := Links.segment_mid.mp h.segment
  have hlink := h.link
  have hnodup := h.nodup
  rw [List.nodup_middle, List.nodup_cons] at hnodup
  have hlinks : (l.remove s item).1
      = (s.setPrev? bs.head? (as.getLast?.or none)).setNext? as.getLast? (bs.head?.or none) := by
    simp only [ListBase.remove, hlink, Option.or_none]
    cases as.getLast? <;> cases bs.head? <;> rfl
  have hends : (l.remove s item).2 = ⟨(as ++ bs).head?, (as ++ bs).getLast?⟩ := by
    simp only [ListBase.remove, hlink, h.head, h.tail]
    rcases List.eq_nil_or_concat as with rfl | ⟨ys, y, rfl⟩ <;> cases bs <;>
      simp [List.getLast?_cons_cons]
  rw [hlinks, hends]
  refine ⟨⟨has.join hbs hnodup.2, rfl, rfl, hnodup.2⟩, fun y hy => ?_⟩
  rw [List.mem_append, not_or] at hy
  rw [Links.setNext?_of_ne, Links.setPrev?_of_ne]
  · exact fun z hz heq => hy.2 (heq ▸ List.mem_of_mem_head? hz)
  · exact fun z hz heq => hy.1 (heq ▸ List.mem_of_getLast? hz)

theorem remove_mem (h : l.Holds s xs) (hmem : item ∈ xs) :
    (l.remove s item).2.Holds (l.remove s item).1 (xs.erase item) ∧
      Keeps s (l.remove s item).1 (xs.erase item) := by
  obtain ⟨as, bs, rfl⟩ := List.append_of_mem hmem
  have hnodup := h.nodup
  rw [List.nodup_middle, List.nodup_cons, List.mem_append, not_or] at hnodup
  rw [List.erase_append_right _ hnodup.1.1, List.erase_cons_head]
  exact h.remove

/-- The first element is removed as any other. -/
theorem removeFirst (h : l.Holds s xs) :
    l.removeFirst s = (xs.head?, match xs.head? with
      | none => (s, l)
      | some item => l.remove s item) := by
  cases xs with
  | nil => simp only [ListBase.removeFirst, h.head, List.head?_nil]
  | cons x bs =>
    have hlink : s x = ⟨none, bs.head?⟩ := by
      rw [← List.nil_append (x :: bs)] at h
      exact h.link
    simp only [ListBase.removeFirst, ListBase.remove, h.head, List.head?_cons, hlink,
      List.getLast?_nil]
    cases bs <;> rfl

/-- The last element is removed as any other. -/
theorem removeLast (h : l.Holds s xs) :
    l.removeLast s = (xs.getLast?, match xs.getLast? with
      | none => (s, l)
      | some item => l.remove s item) := by
  rcases List.eq_nil_or_concat xs with rfl | ⟨ys, y, rfl⟩
  · simp only [ListBase.removeLast, h.tail, List.getLast?_nil]
  · rw [List.concat_eq_append] at *
    have hlink := h.link
    simp only [ListBase.removeLast, ListBase.remove, h.tail, List.getLast?_concat, hlink,
      List.head?_nil]
    cases ys.getLast? <;> rfl

/-- The second list goes behind the first one unless the first one is empty. -/
theorem addAll {l' : ListBase α} (h : l.Holds s xs) (h' : l'.Holds s ys)
    (hdisj : ∀ x ∈ xs, x ∉ ys) (hxs : xs = [] → ys = []) :
    ∃ s' r r', l.addAll s l' = some (!ys.isEmpty, s', r, r') ∧ r.Holds s' (xs ++ ys) ∧
      r'.Holds s' [] ∧ Keeps s s' (xs ++ ys) := by
  have hnodup : (xs ++ ys).Nodup :=
    List.nodup_append.mpr ⟨h.nodup, h'.nodup, fun x hx y hy heq => hdisj x hx (heq ▸ hy)⟩
  rcases ys with - | ⟨first, ys⟩
  · refine ⟨s, l, l', by simp [ListBase.addAll, h'.head], by simpa using h, h', fun y _ => rfl⟩
  rcases List.eq_nil_or_concat xs with rfl | ⟨zs, last, rfl⟩
  · simp at hxs
  rw [List.concat_eq_append] at *
  have hjoin := h.segment.join h'.segment hnodup
  rw [List.getLast?_concat, List.head?_cons, Option.some_or, Option.some_or] at hjoin
  simp only [Links.setPrev?, Links.setNext?] at hjoin
  refine ⟨_, _, _, by
    simp only [ListBase.addAll, h'.head, h.tail, List.head?_cons, List.getLast?_concat]
    rfl, ⟨Links.setNext_setPrev s last first _ _ ▸ hjoin, ?_, ?_, hnodup⟩, Holds.empty _,
    fun y hy => ?_⟩
  · simp [h.head]
  · simp [h'.tail, List.getLast?_append, List.getLast?_cons]
  · simp only [List.mem_append, List.mem_cons, not_or] at hy
    rw [Links.setPrev_of_ne hy.2.1, Links.setNext_of_ne hy.1.2.1]

end ListBase.Holds

end EsOs.Es
