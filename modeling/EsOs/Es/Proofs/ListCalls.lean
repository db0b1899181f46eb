import EsOs.Es.Proofs.ListIterator

/-!
# Linked lists are sequences over whole runs

Several lists share the links of their elements. No element is in two of them, so that a call on one
of them leaves the others as they are. Only `addAll` on an empty list goes wrong.
-/

namespace EsOs.Es

open EsOs.Lib

variable {α ι : Type _}

/-- Each list has the elements of its sequence, and no element is in two of them. -/
structure ListStore.Represents (st : ListStore ι α) (seqs : ι → List α) : Prop where
  holds : ∀ i, (st.lists i).Holds st.links (seqs i)
  disjoint : ∀ i j, i ≠ j → ∀ x ∈ seqs i, x ∉ seqs j

theorem ListStore.empty_represents :
    (ListStore.empty : ListStore ι α).Represents fun _ => [] :=
  ⟨fun _ => ListBase.Holds.empty _, fun _ _ _ _ hx => absurd hx List.not_mem_nil⟩

variable [DecidableEq α]

/-! ## Moves -/

theorem zipperCalls_moves_toList (z : Zipper α) (moves : List Bool) :
    (zipperCalls z (moveCalls moves)).2.toList = z.toList := by
  induction moves generalizing z with
  | nil => rfl
  | cons forward moves ih =>
    have hstep : (zipperCall z (if forward then .next else .previous)).2.toList = z.toList := by
      cases forward <;> simp [zipperCall]
    exact (ih _).trans hstep

theorem moveCalls_legal (z : Zipper α) (moves : List Bool) :
    IteratorCall.AllLegal z (moveCalls moves) := by
  induction moves generalizing z with
  | nil => trivial
  | cons forward moves ih => exact ⟨by cases forward <;> trivial, ih _⟩

theorem IteratorStart.zipper_toList (xs : List α) (start : IteratorStart α) :
    (start.zipper xs).toList = xs := by
  cases start <;> simp [IteratorStart.zipper, Zipper.toList]

theorem IteratorStart.gap_toList (xs : List α) (start : IteratorStart α) (moves : List Bool) :
    (start.gap xs moves).toList = xs :=
  (zipperCalls_moves_toList _ moves).trans (start.zipper_toList xs)

/-- An iterator that only moves leaves the list and the links as they are. -/
theorem ListCursor.calls_moves (c : ListCursor α) (moves : List Bool) :
    (c.calls (moveCalls moves)).2.links = c.links ∧ (c.calls (moveCalls moves)).2.list = c.list := by
  induction moves generalizing c with
  | nil => exact ⟨rfl, rfl⟩
  | cons forward moves ih =>
    have hstep := ih (c.call (if forward then .next else .previous)).2
    cases forward <;> exact hstep

/-- An iterator that adds an element touches no element outside of the list. -/
theorem ListCursor.Represents.add_keeps {c : ListCursor α} {z : Zipper α} {item : α}
    (h : c.Represents z) (hnew : item ∉ z.toList) :
    ListBase.Holds.Keeps c.links (c.call (.add item)).2.links (z.add item).toList := by
  obtain ⟨before, after, last⟩ := z
  have hpre := h.pre
  have hsuc := h.suc
  rcases List.eq_nil_or_concat before with rfl | ⟨before, x, rfl⟩
  · cases after with
    | nil =>
      simp only [ListCursor.call, ListIterator.add, hpre, hsuc, List.getLast?_nil, List.head?_nil]
      exact (h.holds.addFirst hnew).2
    | cons x after =>
      simp only [ListCursor.call, ListIterator.add, hpre, hsuc, List.getLast?_nil, List.head?_cons]
      have hholds : c.list.Holds c.links ([] ++ x :: after) := h.holds
      exact (hholds.addBefore hnew).2
  · rw [List.concat_eq_append] at *
    simp only [Zipper.toList, List.append_assoc, List.singleton_append] at hnew
    have hholds : c.list.Holds c.links (before ++ x :: after) := by
      simpa [Zipper.toList] using h.holds
    simp only [ListCursor.call, ListIterator.add, hpre, List.getLast?_concat]
    simpa [Zipper.add, Zipper.toList] using (hholds.addAfter hnew).2

/-! ## The calls -/

namespace ListStore

variable [DecidableEq ι] {st : ListStore ι α} {seqs : ι → List α}

/-- A change of one list: its new elements were in it, or in no list. -/
theorem Represents.set (h : st.Represents seqs) {i : ι} {new : Links α × ListBase α}
    {xs : List α}
    (hnew : new.2.Holds new.1 xs ∧ ListBase.Holds.Keeps st.links new.1 xs)
    (hfrom : ∀ x ∈ xs, x ∈ seqs i ∨ ∀ j, x ∉ seqs j) :
    (st.set i new).Represents (Function.update seqs i xs) := by
  have hout : ∀ j, j ≠ i → ∀ x ∈ seqs j, x ∉ xs := by
    intro j hj x hx hmem
    rcases hfrom x hmem with hi | hnone
    · exact h.disjoint j i hj x hx hi
    · exact hnone j hx
  refine ⟨fun j => ?_, fun j k hjk x hx => ?_⟩
  · by_cases hj : j = i
    · subst hj
      simpa [ListStore.set] using hnew.1
    · simp only [ListStore.set, Function.update_of_ne hj]
      exact (h.holds j).congr fun x hx => hnew.2 x (hout j hj x hx)
  · by_cases hj : j = i
    · subst hj
      rw [Function.update_self] at hx
      rw [Function.update_of_ne (Ne.symm hjk)]
      exact fun hmem => hout k (Ne.symm hjk) x hmem hx
    · rw [Function.update_of_ne hj] at hx
      by_cases hk : k = i
      · subst hk
        rw [Function.update_self]
        exact hout j hj x hx
      · rw [Function.update_of_ne hk]
        exact h.disjoint j k hjk x hx

/-- Nothing happens to a list. -/
theorem Represents.set_self (h : st.Represents seqs) (i : ι) :
    (st.set i (st.links, st.lists i)).Represents seqs := by
  have hsame : (st.set i (st.links, st.lists i)).Represents (Function.update seqs i (seqs i)) :=
    h.set ⟨h.holds i, fun _ _ => rfl⟩ fun x hx => Or.inl hx
  rwa [Function.update_eq_self] at hsame

theorem Represents.remove (h : st.Represents seqs) {i : ι} {item : α} (hmem : item ∈ seqs i) :
    (st.set i ((st.lists i).remove st.links item)).Represents
      (Function.update seqs i ((seqs i).erase item)) :=
  h.set ((h.holds i).remove_mem hmem) fun _ hx => Or.inl (List.mem_of_mem_erase hx)

theorem Represents.addAll (h : st.Represents seqs) {i j : ι} (hij : i ≠ j)
    (hsafe : seqs i = [] → seqs j = []) (fuel : Nat) :
    ∃ st', st.call fuel (.addAll i j) = some (.flag !(seqs j).isEmpty, st') ∧
      st'.Represents (Function.update (Function.update seqs i (seqs i ++ seqs j)) j []) := by
  obtain ⟨s', r, r', heq, hr, hr', hkeeps⟩ :=
    (h.holds i).addAll (h.holds j) (h.disjoint i j hij) hsafe
  refine ⟨(st.set i (s', r)).set j (s', r'), by simp only [ListStore.call, heq, Option.map_some],
    fun k => ?_, fun k m hkm x hx => ?_⟩
  · by_cases hk : k = j
    · subst hk
      simpa [ListStore.set] using hr'
    · by_cases hki : k = i
      · subst hki
        simpa [ListStore.set, Function.update_of_ne hk] using hr
      · simp only [ListStore.set, Function.update_of_ne hk, Function.update_of_ne hki]
        refine (h.holds k).congr fun x hx => hkeeps x ?_
        rw [List.mem_append, not_or]
        exact ⟨h.disjoint k i hki x hx, h.disjoint k j hk x hx⟩
  · have hrow : ∀ n, x ∈ Function.update (Function.update seqs i (seqs i ++ seqs j)) j [] n →
        n ≠ j ∧ (x ∈ seqs n ∨ n = i ∧ x ∈ seqs j) := by
      intro n hn
      by_cases hnj : n = j
      · subst hnj
        simp at hn
      · rw [Function.update_of_ne hnj] at hn
        by_cases hni : n = i
        · subst hni
          rw [Function.update_self, List.mem_append] at hn
          exact ⟨hnj, hn.imp_right fun hx => ⟨rfl, hx⟩⟩
        · rw [Function.update_of_ne hni] at hn
          exact ⟨hnj, Or.inl hn⟩
    intro hm
    obtain ⟨hkj, hxk⟩ := hrow k hx
    obtain ⟨hmj, hxm⟩ := hrow m hm
    rcases hxk with hxk | ⟨rfl, hxk⟩
    · rcases hxm with hxm | ⟨-, hxm⟩
      · exact h.disjoint k m hkm x hxk hxm
      · exact h.disjoint k j hkj x hxk hxm
    · rcases hxm with hxm | ⟨rfl, -⟩
      · exact h.disjoint m j hmj x hxm hxk
      · exact hkm rfl

/-- Each call does to the lists what it does to the sequences. -/
theorem Represents.call (h : st.Represents seqs) (op : ListCall ι α) (hlegal : op.Legal seqs)
    (hsafe : op.Safe seqs) :
    ∃ n st', (∀ fuel, n ≤ fuel → st.call fuel op = some ((seqCall seqs op).1, st')) ∧
      st'.Represents (seqCall seqs op).2 := by
  cases op with
  | addFirst i item =>
    refine ⟨0, _, fun _ _ => rfl, h.set ((h.holds i).addFirst (hlegal i)) fun x hx => ?_⟩
    rcases List.mem_cons.mp hx with rfl | hx
    · exact Or.inr hlegal
    · exact Or.inl hx
  | addLast i item =>
    refine ⟨0, _, fun _ _ => rfl, h.set ((h.holds i).addLast (hlegal i)) fun x hx => ?_⟩
    rcases List.mem_append.mp hx with hx | hx
    · exact Or.inl hx
    · rw [List.mem_singleton.mp hx]
      exact Or.inr hlegal
  | add i start moves item =>
    obtain ⟨hstart, hitem⟩ := hlegal
    have hgap := (((h.holds i).iterator start hstart).calls _ (moveCalls_legal _ moves)).2
    have hlinks := (ListCursor.calls_moves
      ⟨st.links, st.lists i, (st.lists i).iterator st.links start⟩ moves).1
    have hnew : item ∉ (zipperCalls (start.zipper (seqs i)) (moveCalls moves)).2.toList := by
      rw [zipperCalls_moves_toList, start.zipper_toList]
      exact hitem i
    have hadd := (hgap.add hnew).holds
    have hkeeps := hgap.add_keeps hnew
    rw [hlinks] at hkeeps
    refine ⟨0, _, fun _ _ => rfl, h.set ⟨hadd, hkeeps⟩ fun x hx => ?_⟩
    rcases Zipper.add_toList_mem.mp hx with rfl | hx
    · exact Or.inr hitem
    · rw [IteratorStart.gap_toList] at hx
      exact Or.inl hx
  | addAll i j =>
    obtain ⟨st', hcall, hst'⟩ := h.addAll hlegal hsafe 0
    exact ⟨0, st', fun _ _ => hcall, hst'⟩
  | remove i item => exact ⟨0, _, fun _ _ => rfl, h.remove hlegal⟩
  | removeFirst i =>
    refine ⟨0, _, fun _ _ => by rw [ListStore.call, (h.holds i).removeFirst]; rfl, ?_⟩
    rcases hseq : seqs i with - | ⟨x, xs⟩
    · have hsame : Function.update seqs i [] = seqs := by
        rw [Function.update_eq_self_iff, hseq]
      simpa [hseq, seqCall, hsame] using h.set_self i
    · have hx : x ∈ seqs i := by simp [hseq]
      simpa [hseq, seqCall] using h.remove hx
  | removeLast i =>
    refine ⟨0, _, fun _ _ => by rw [ListStore.call, (h.holds i).removeLast]; rfl, ?_⟩
    rcases List.eq_nil_or_concat (seqs i) with hseq | ⟨xs, x, hseq⟩
    · have hsame : Function.update seqs i [] = seqs := by
        rw [Function.update_eq_self_iff, hseq]
      simpa [hseq, seqCall, hsame] using h.set_self i
    · rw [List.concat_eq_append] at hseq
      have hnot : x ∉ xs := by
        have := (h.holds i).nodup
        rw [hseq, List.nodup_append_comm, List.singleton_append, List.nodup_cons] at this
        exact this.1
      have hx : x ∈ seqs i := by simp [hseq]
      simpa [hseq, seqCall, List.erase_append_right _ hnot] using h.remove hx
  | contains i item =>
    refine ⟨(seqs i).length + 1, st, fun fuel hfuel => ?_, h⟩
    have hfound : ListBase.containsLoop st.links item fuel ⟨none, (seqs i).head?, none⟩ =
        some (decide (item ∈ seqs i)) :=
      ListBase.containsLoop_segment (h.holds i).segment item hfuel
    rw [← (h.holds i).head] at hfound
    simp only [ListStore.call, ListBase.begin, hfound]
    rfl

/-- `addAll` on an empty list uses its null `tail`. -/
theorem Represents.call_unsafe (h : st.Represents seqs) {op : ListCall ι α}
    (hnotSafe : ¬ op.Safe seqs) (fuel : Nat) : st.call fuel op = none := by
  cases op with
  | addAll i j =>
    have hij : seqs i = [] ∧ seqs j ≠ [] := by simpa [ListCall.Safe] using hnotSafe
    obtain ⟨x, xs, hj⟩ := List.exists_cons_of_ne_nil hij.2
    simp [ListStore.call, ListBase.addAll, (h.holds j).head, (h.holds i).tail, hij.1, hj]
  | _ => exact absurd trivial hnotSafe

theorem Represents.calls (h : st.Represents seqs) (ops : List (ListCall ι α))
    (hlegal : ListCall.AllLegal seqs ops) (hsafe : ListCall.AllSafe seqs ops) :
    ∃ n st', (∀ fuel, n ≤ fuel → st.calls fuel ops = some ((seqCalls seqs ops).1, st')) ∧
      st'.Represents (seqCalls seqs ops).2 := by
  induction ops generalizing st seqs with
  | nil => exact ⟨0, st, fun _ _ => rfl, h⟩
  | cons op ops ih =>
    obtain ⟨n, st', hop, hst'⟩ := h.call op hlegal.1 hsafe.1
    obtain ⟨m, st'', hops, hst''⟩ := ih hst' hlegal.2 hsafe.2
    refine ⟨max n m, st'', fun fuel hfuel => ?_, hst''⟩
    simp only [ListStore.calls, hop fuel (Nat.le_trans (Nat.le_max_left n m) hfuel),
      hops fuel (Nat.le_trans (Nat.le_max_right n m) hfuel), Option.map_some, seqCalls]

/-- A run that comes to an unsafe call has no result. -/
theorem Represents.calls_unsafe (h : st.Represents seqs) (ops : List (ListCall ι α))
    (hlegal : ListCall.AllLegal seqs ops) (hnotSafe : ¬ ListCall.AllSafe seqs ops) :
    ∃ n, ∀ fuel, n ≤ fuel → st.calls fuel ops = none := by
  induction ops generalizing st seqs with
  | nil => exact absurd trivial hnotSafe
  | cons op ops ih =>
    by_cases hop : op.Safe seqs
    · obtain ⟨n, st', hcall, hst'⟩ := h.call op hlegal.1 hop
      obtain ⟨m, hops⟩ := ih hst' hlegal.2 fun hrest => hnotSafe ⟨hop, hrest⟩
      refine ⟨max n m, fun fuel hfuel => ?_⟩
      simp only [ListStore.calls, hcall fuel (Nat.le_trans (Nat.le_max_left n m) hfuel),
        hops fuel (Nat.le_trans (Nat.le_max_right n m) hfuel), Option.map_none]
    · exact ⟨0, fun fuel _ => by simp only [ListStore.calls, h.call_unsafe hop]⟩

/-- The lists give the answers of the sequences, whatever number of calls of `next` above a bound
    the loops may make. Then each list is well formed, and its traversals in both directions give
    its sequence. -/
def Refine (ops : List (ListCall ι α)) : Prop :=
  ∃ n st, (∀ fuel, n ≤ fuel →
      ListStore.empty.calls fuel ops = some ((seqCalls (fun _ => []) ops).1, st)) ∧
    ∀ i, ∃ xs, xs = (seqCalls (fun _ => []) ops).2 i ∧ (st.lists i).Holds st.links xs ∧
      ∀ calls, xs.length < calls →
        ListBase.forward st.links calls (st.lists i).begin = some xs ∧
          ListBase.backward st.links calls (st.lists i).end_ = some xs.reverse

end ListStore

/-- From empty lists on, the calls do what they do on sequences if and only if no `addAll` appends
    elements to an empty list. -/
theorem ListStore.refine_iff [DecidableEq ι] (ops : List (ListCall ι α))
    (hlegal : ListCall.AllLegal (fun _ => []) ops) :
    ListStore.Refine ops ↔ ListCall.AllSafe (fun _ => []) ops := by
  constructor
  · rintro ⟨n, st, hcalls, -⟩
    by_contra hnotSafe
    obtain ⟨m, hnone⟩ := ListStore.empty_represents.calls_unsafe ops hlegal hnotSafe
    have := hcalls (max n m) (Nat.le_max_left n m)
    rw [hnone _ (Nat.le_max_right n m)] at this
    exact absurd this (by simp)
  · intro hsafe
    obtain ⟨n, st, hcalls, hst⟩ := ListStore.empty_represents.calls ops hlegal hsafe
    refine ⟨n, st, hcalls, fun i => ⟨_, rfl, hst.holds i, fun calls hlt => ⟨?_, ?_⟩⟩⟩
    · rw [ListBase.begin, (hst.holds i).head]
      exact ListBase.forward_segment (hst.holds i).segment hlt
    · rw [ListBase.end_, (hst.holds i).tail]
      exact ListBase.backward_segment (hst.holds i).segment hlt

/-- Elements at both ends, in the middle, and from another list. -/
theorem ListStore.refine_appended :
    ListStore.Refine [ListCall.addLast true 5, .addFirst true 3, .add true (.list 3) [] 4,
      .addLast false 8, .addAll true false, .remove true 5, .contains true 8] := by
  refine (ListStore.refine_iff _ ?_).mpr ?_
  · simp [ListCall.AllLegal, ListCall.Legal, IteratorStart.Legal, seqCall, IteratorStart.gap,
      IteratorStart.zipper, moveCalls, zipperCalls, Zipper.add, Zipper.toList]
  · simp [ListCall.AllSafe, ListCall.Safe, seqCall, IteratorStart.gap,
      IteratorStart.zipper, moveCalls, zipperCalls, Zipper.add, Zipper.toList]

/-- One element is in the other list, and is to be appended to an empty one. -/
theorem ListStore.not_refine_ontoEmpty :
    let ops : List (ListCall Bool Nat) := [.addLast true 5, .addAll false true]
    ListCall.AllLegal (fun _ => []) ops ∧ ¬ ListStore.Refine ops := by
  refine ⟨by simp [ListCall.AllLegal, ListCall.Legal], ?_⟩
  rintro ⟨n, st, hcalls, -⟩
  exact absurd (hcalls n (Nat.le_refl n)) (by simp [ListStore.calls, ListStore.call,
    ListStore.empty, ListStore.set, ListBase.addLast, ListBase.addAll, ListBase.empty])

end EsOs.Es
