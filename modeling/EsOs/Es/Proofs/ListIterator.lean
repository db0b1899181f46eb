import EsOs.Es.List
import EsOs.Es.Proofs.List

/-!
# An iterator is a zipper

The elements `pre` and `suc` of an iterator are the neighbours of a gap, `cur` is the element that
the last move went over.
-/

namespace EsOs.Es

open EsOs.Lib

variable {α : Type _}

/-- The iterator is at the gap of the zipper, and its list has the zipper's elements. -/
structure ListCursor.Represents (c : ListCursor α) (z : Zipper α) : Prop where
  holds : c.list.Holds c.links z.toList
  pre : c.iter.pre = z.before.getLast?
  suc : c.iter.suc = z.after.head?
  cur : c.iter.cur = z.last
  mem : ∀ x ∈ z.last, x ∈ z.toList

namespace ListCursor.Represents

variable {c : ListCursor α} {z : Zipper α} {item : α}

theorem next (h : c.Represents z) :
    (c.iter.next c.links).1 = z.next.1 ∧
      ListCursor.Represents { c with iter := (c.iter.next c.links).2 } z.next.2 := by
  obtain ⟨before, after, last⟩ := z
  have hsuc := h.suc
  cases after with
  | nil =>
    simp only [ListIterator.next, hsuc, List.head?_nil, Zipper.next, true_and]
    exact ⟨h.holds, h.pre, rfl, rfl, by simp⟩
  | cons x after =>
    have hlink : c.links x = ⟨before.getLast?, after.head?⟩ := h.holds.link
    simp only [ListIterator.next, hsuc, List.head?_cons, Zipper.next, hlink, true_and]
    refine ⟨?_, by simp, rfl, rfl, by simp [Zipper.toList]⟩
    simpa [Zipper.toList] using h.holds

theorem previous (h : c.Represents z) :
    (c.iter.previous c.links).1 = z.previous.1 ∧
      ListCursor.Represents { c with iter := (c.iter.previous c.links).2 } z.previous.2 := by
  obtain ⟨before, after, last⟩ := z
  have hpre := h.pre
  rcases List.eq_nil_or_concat before with rfl | ⟨before, x, rfl⟩
  · simp only [ListIterator.previous, hpre, List.getLast?_nil, Zipper.previous, true_and]
    exact ⟨h.holds, rfl, h.suc, rfl, by simp⟩
  · rw [List.concat_eq_append] at *
    have hholds : c.list.Holds c.links (before ++ x :: after) := by
      simpa [Zipper.toList] using h.holds
    simp only [ListIterator.previous, hpre, List.getLast?_concat, Zipper.previous, hholds.link,
      List.dropLast_concat, true_and]
    exact ⟨hholds, rfl, rfl, rfl, by simp [Zipper.toList]⟩

variable [DecidableEq α]

theorem add (h : c.Represents z) (hnew : item ∉ z.toList) :
    (c.call (.add item)).2.Represents (z.add item) := by
  obtain ⟨before, after, last⟩ := z
  have hpre := h.pre
  have hsuc := h.suc
  have hmem : ∀ x ∈ last, x ∈ (before ++ [item]) ++ after := by
    intro x hx
    have := h.mem x hx
    simp only [Zipper.toList, List.mem_append] at this ⊢
    tauto
  have hend : ∀ {s l suc}, ListBase.Holds l s (before ++ item :: after) → suc = after.head? →
      ListCursor.Represents ⟨s, l, ⟨some item, suc, c.iter.cur⟩⟩ ⟨before ++ [item], after, last⟩ := by
    intro s l suc hl hsuc
    exact ⟨by simpa [Zipper.toList] using hl, by simp, hsuc, h.cur, hmem⟩
  rcases List.eq_nil_or_concat before with rfl | ⟨before, x, rfl⟩
  · cases after with
    | nil =>
      simp only [ListCursor.call, ListIterator.add, hpre, hsuc, List.getLast?_nil,
        List.head?_nil, Zipper.add]
      exact hend (h.holds.addFirst hnew).1 rfl
    | cons x after =>
      simp only [ListCursor.call, ListIterator.add, hpre, hsuc, List.getLast?_nil,
        List.head?_cons, Zipper.add]
      have hholds : c.list.Holds c.links ([] ++ x :: after) := h.holds
      exact hend (hholds.addBefore hnew).1 rfl
  · rw [List.concat_eq_append] at *
    simp only [Zipper.toList, List.append_assoc, List.singleton_append] at hnew
    have hholds : c.list.Holds c.links (before ++ x :: after) := by
      simpa [Zipper.toList] using h.holds
    simp only [ListCursor.call, ListIterator.add, hpre, List.getLast?_concat, Zipper.add]
    refine hend ?_ hsuc
    simpa using (hholds.addAfter hnew).1

/-- The element taken out may be the one before the gap, the one behind it, or farther away after
    something has been added. -/
theorem remove (h : c.Represents z) :
    (c.iter.remove c.links c.list).1 = z.remove.1 ∧
      (c.call .remove).2.Represents z.remove.2 := by
  obtain ⟨before, after, last⟩ := z
  have hcur := h.cur
  cases last with
  | none =>
    simp only [ListCursor.call, ListIterator.remove, hcur, Zipper.remove, true_and]
    exact ⟨h.holds, h.pre, h.suc, hcur, h.mem⟩
  | some x =>
    simp only [ListCursor.call, ListIterator.remove, hcur, Zipper.remove, true_and]
    have hpre := h.pre
    have hsuc := h.suc
    have hnodup : (before ++ after).Nodup := h.holds.nodup
    have hdisj := (List.nodup_append.mp hnodup).2.2
    have hremoved : (c.list.remove c.links x).2.Holds (c.list.remove c.links x).1
        (before.erase x ++ after.erase x) := by
      rw [← Zipper.erase_append_erase hnodup]
      exact (h.holds.remove_mem (h.mem x rfl)).1
    by_cases hnext : c.iter.suc = some x
    · rw [if_pos hnext]
      rw [hsuc] at hnext
      obtain ⟨bs, rfl⟩ := List.head?_eq_some_iff.mp hnext
      have hbefore : x ∉ before := fun hmem => hdisj x hmem x List.mem_cons_self rfl
      have hlink : c.links x = ⟨before.getLast?, bs.head?⟩ := h.holds.link
      refine ⟨hremoved, ?_, ?_, rfl, by simp⟩
      · simp only [hpre, List.erase_of_not_mem hbefore]
      · simp only [hlink, List.erase_cons_head]
    · rw [if_neg hnext]
      rw [hsuc] at hnext
      have hafter := Zipper.head?_erase hnext
      by_cases hprev : c.iter.pre = some x
      · rw [if_pos hprev]
        rw [hpre] at hprev
        obtain ⟨as, rfl⟩ := List.getLast?_eq_some_iff.mp hprev
        have hholds : c.list.Holds c.links (as ++ x :: after) := by
          simpa [Zipper.toList] using h.holds
        have hnot : x ∉ as := by
          have := (List.nodup_append.mp hnodup).1
          rw [List.nodup_append_comm, List.singleton_append, List.nodup_cons] at this
          exact this.1
        refine ⟨hremoved, ?_, ?_, rfl, by simp⟩
        · simp only [hholds.link, List.erase_append_right _ hnot, List.erase_cons_head,
            List.append_nil]
        · simp only [hsuc, hafter]
      · rw [if_neg hprev]
        rw [hpre] at hprev
        refine ⟨hremoved, ?_, ?_, rfl, by simp⟩
        · simp only [hpre, Zipper.getLast?_erase hprev]
        · simp only [hsuc, hafter]

/-- Each call answers as the zipper does. -/
theorem call (h : c.Represents z) (op : IteratorCall α) (hlegal : op.Legal z) :
    (c.call op).1 = (zipperCall z op).1 ∧ (c.call op).2.Represents (zipperCall z op).2 := by
  cases op with
  | next => exact ⟨congrArg IteratorAnswer.item h.next.1, h.next.2⟩
  | previous => exact ⟨congrArg IteratorAnswer.item h.previous.1, h.previous.2⟩
  | hasNext =>
    refine ⟨?_, h⟩
    simp only [ListCursor.call, ListIterator.hasNext, h.suc, zipperCall]
    cases z.after <;> rfl
  | hasPrevious =>
    refine ⟨?_, h⟩
    simp only [ListCursor.call, ListIterator.hasPrevious, h.pre, zipperCall]
    rcases List.eq_nil_or_concat z.before with heq | ⟨as, y, heq⟩
    · rw [heq]
      rfl
    · rw [heq]
      simp
  | add item => exact ⟨rfl, h.add hlegal⟩
  | remove => exact ⟨congrArg IteratorAnswer.item h.remove.1, h.remove.2⟩

theorem calls (h : c.Represents z) (ops : List (IteratorCall α))
    (hlegal : IteratorCall.AllLegal z ops) :
    (c.calls ops).1 = (zipperCalls z ops).1 ∧ (c.calls ops).2.Represents (zipperCalls z ops).2 := by
  induction ops generalizing c z with
  | nil => exact ⟨rfl, h⟩
  | cons op ops ih =>
    obtain ⟨hop, hops⟩ := hlegal
    obtain ⟨hanswer, hc⟩ := h.call op hop
    obtain ⟨hanswers, hend⟩ := ih hc hops
    refine ⟨?_, hend⟩
    simp only [ListCursor.calls, zipperCalls, hanswer, hanswers]

end ListCursor.Represents

/-- An iterator that a list makes. -/
theorem ListBase.Holds.iterator [DecidableEq α] {s : Links α} {l : ListBase α} {xs : List α}
    (h : l.Holds s xs) (start : IteratorStart α) (hstart : start.Legal xs) :
    ListCursor.Represents ⟨s, l, l.iterator s start⟩ (start.zipper xs) := by
  cases start with
  | begin => exact ⟨h, rfl, h.head, rfl, by simp [IteratorStart.zipper]⟩
  | end_ =>
    refine ⟨?_, h.tail, rfl, rfl, by simp [IteratorStart.zipper]⟩
    simpa [IteratorStart.zipper, Zipper.toList] using h
  | list item =>
    have hitem : item ∈ xs := hstart
    have hlt := List.idxOf_lt_length_of_mem hitem
    have htake : xs.take (xs.idxOf item + 1) = xs.take (xs.idxOf item) ++ [item] := by
      rw [List.take_add_one, List.getElem?_eq_getElem hlt, List.getElem_idxOf hlt]
      rfl
    have hholds : l.Holds s (xs.take (xs.idxOf item) ++ item :: xs.drop (xs.idxOf item + 1)) := by
      rw [← List.singleton_append, ← List.append_assoc, ← htake, List.take_append_drop]
      exact h
    refine ⟨?_, ?_, ?_, rfl, ?_⟩
    · simpa only [IteratorStart.zipper, Zipper.toList, List.take_append_drop] using h
    · simp only [ListBase.iterator, ListBase.list, IteratorStart.zipper, htake,
        List.getLast?_concat]
    · simp only [ListBase.iterator, ListBase.list, IteratorStart.zipper, hholds.link]
    · simpa only [IteratorStart.zipper, Zipper.toList, List.take_append_drop, Option.mem_some,
        forall_eq'] using hitem

/-- For every list, wherever the iterator starts and whatever is called, it answers as a zipper does
    and ends where the zipper ends. A `remove` of nothing changes nothing. -/
theorem ListIterator.calls_zipper [DecidableEq α] {s : Links α} {l : ListBase α} {xs : List α}
    (h : l.Holds s xs) (start : IteratorStart α) (hstart : start.Legal xs)
    (ops : List (IteratorCall α)) (hlegal : IteratorCall.AllLegal (start.zipper xs) ops) :
    let c := ListCursor.calls ⟨s, l, l.iterator s start⟩ ops
    let z := zipperCalls (start.zipper xs) ops
    c.1 = z.1 ∧ c.2.Represents z.2 ∧
      (z.2.last = none → c.2.call .remove = (.item none, c.2)) ∧
      (∀ x, z.2.last = some x →
        (c.2.call .remove).2.list.Holds (c.2.call .remove).2.links (z.2.toList.erase x)) := by
  obtain ⟨hanswers, hend⟩ := (h.iterator start hstart).calls ops hlegal
  refine ⟨hanswers, hend, fun hlast => ?_, fun x hlast => ?_⟩
  · simp only [ListCursor.call, ListIterator.remove, hend.cur, hlast]
  · rw [← Zipper.remove_toList hend.holds.nodup hlast]
    exact hend.remove.2.holds

/-- Two elements are added, and the first one is taken out after the iterator has gone back over
    both. -/
theorem ListIterator.calls_zipper_onEmpty :
    let ops : List (IteratorCall Nat) :=
      [.remove, .add 6, .add 7, .previous, .previous, .remove, .remove, .next, .hasNext]
    let c := ListCursor.calls ⟨fun _ : Nat => ⟨none, none⟩, .empty, ListBase.empty.begin⟩ ops
    c.1 = [.item none, .none, .none, .item (some 7), .item (some 6), .item (some 6), .item none,
      .item (some 7), .flag false] ∧ c.2.list.Holds c.2.links [7] := by
  have h := ListIterator.calls_zipper (ListBase.Holds.empty fun _ : Nat => ⟨none, none⟩) .begin
    trivial [.remove, .add 6, .add 7, .previous, .previous, .remove, .remove, .next, .hasNext]
    (by simp [IteratorCall.AllLegal, IteratorCall.Legal, IteratorStart.zipper, zipperCall,
      Zipper.remove, Zipper.add, Zipper.toList])
  exact ⟨h.1, h.2.1.holds⟩

end EsOs.Es
