import EsOs.Kernel.Proofs.PageTable
import Mathlib.Tactic.Ring

/-!
# Who owns a page

The runs of the page sets and the page table, by any holders of pages, and what they keep: every
page has one place, the counts are right, and the page table is unambiguous.

`~PageSet` breaks the counts when there are free pages left in the set: each of them is counted
twice by the parent.
-/

namespace EsOs.Kernel

open EsOs.Lib

/-- Where a page is. -/
inductive Place
  | free (set : Nat)
  | standby (set : Nat)
  | held

/-- A page is in a place. -/
def PageTable.At (t : PageTable) (p : Nat) : Place → Prop
  | .free n => (t.sets n).alive = true ∧ p ∈ (t.sets n).freeList
  | .standby n => (t.sets n).alive = true ∧ p ∈ (t.sets n).standbyList
  | .held => 0 < (t.pages p).ref

/-- Every page is in exactly one place, once; the counts of every set are right; and at most one
    page stands for a place of a cache. -/
structure PageOwnership (hash : HashCode) (managed : List Nat) (t : PageTable) : Prop where
  place : ∀ p ∈ managed, ∃! place, t.At p place
  free_nodup : ∀ n, (t.sets n).alive = true → (t.sets n).freeList.Nodup
  standby_nodup : ∀ n, (t.sets n).alive = true → (t.sets n).standbyList.Nodup
  free_count : ∀ n, (t.sets n).alive = true →
    (t.sets n).freeCount = (t.sets n).freeList.length
  standby_count : ∀ n, (t.sets n).alive = true →
    (t.sets n).standbyCount = (t.sets n).standbyList.length
  chain_nodup : ∀ c, (t.hashTable c).Nodup
  unique : ∀ p q, t.Registered hash p → t.Registered hash q →
    (t.pages p).cache = (t.pages q).cache → (t.pages p).offset = (t.pages q).offset → p = q

namespace PageTable

variable {hash : HashCode} {managed : List Nat} {t t' : PageTable}

theorem PageInv.ownership (h : t.PageInv hash managed []) : PageOwnership hash managed t := by
  refine ⟨fun p hp => ?_, fun n _ => h.free_nodup n, fun n _ => h.standby_nodup n,
    fun n _ => h.free_count n, fun n _ => h.standby_count n, h.chain_nodup, h.unique⟩
  have hnonneg := h.ref_nonneg p hp (by simp)
  by_cases hheld : 0 < (t.pages p).ref
  · refine ⟨.held, hheld, ?_⟩
    rintro (n | n | -) hat
    · have := (h.free_page n p hat.2).2.2.2.1
      omega
    · have := (h.standby_page n p hat.2).2.2.2.1
      omega
    · rfl
  · have halive := h.set_alive p hp
    rcases h.idle p hp (by simp) (by omega) with hfree | hstandby
    · refine ⟨.free (t.pages p).pageSet, ⟨halive, hfree⟩, ?_⟩
      rintro (n | n | -) hat
      · rw [(h.free_page n p hat.2).2.2.1]
      · have hn := (h.standby_page n p hat.2).2.2.1
        rw [hn] at hfree
        exact absurd hat.2 (h.not_mem_standby_of_free hfree)
      · exact absurd hat hheld
    · refine ⟨.standby (t.pages p).pageSet, ⟨halive, hstandby⟩, ?_⟩
      rintro (n | n | -) hat
      · have hn := (h.free_page n p hat.2).2.2.1
        rw [hn] at hstandby
        exact absurd hstandby (h.not_mem_standby_of_free hat.2)
      · rw [(h.standby_page n p hat.2).2.2.1]
      · exact absurd hat hheld

theorem init_inv (hash : HashCode) (data : Nat → Nat → UInt8) (hnodup : managed.Nodup) :
    (init managed data).PageInv hash managed [] := by
  have hsets : ∀ n, ((init managed data).sets n).freeList = if n = 0 then managed else [] := by
    intro n
    by_cases hn : n = 0 <;> simp [init, hn]
  have hstandby : ∀ n, ((init managed data).sets n).standbyList = [] := by
    intro n
    by_cases hn : n = 0 <;> simp [init, hn]
  refine ⟨by simp, List.nodup_nil, fun p _ => rfl, fun p _ _ => Int.le_refl 0,
    fun p _ _ hpos => absurd hpos (by simp [init]), fun p hp _ _ => .inl ?_,
    fun p _ _ hc => absurd hc (by simp [init]), fun n p hp => ?_, fun n => ?_, fun n => ?_,
    fun n p hp => ?_, fun n => ?_, fun n => ?_, fun c p hp => absurd hp (by simp [init]),
    fun c => List.nodup_nil, fun p q hp => absurd hp (by simp [Registered, init]),
    fun n hn => ?_, fun n hn m hm => ?_⟩
  · rw [hsets]
    exact hp
  · rw [hsets] at hp
    split at hp
    · rename_i hn
      exact ⟨hp, by simp, hn.symm, rfl, rfl⟩
    · cases hp
  · rw [hsets]
    split
    · exact hnodup
    · exact List.nodup_nil
  · by_cases hn : n = 0 <;> simp [init, hn]
  · rw [hstandby] at hp
    cases hp
  · rw [hstandby]
    exact List.nodup_nil
  · by_cases hn : n = 0 <;> simp [init, hn]
  · by_cases hz : n = 0
    · show n < 1
      omega
    · simp [init, hz] at hn
  · by_cases hz : n = 0
    · simp [init, hz] at hm
    · simp [init, hz] at hn

theorem Held.ref_pos {p : Nat} (h : t.Held managed p) : 0 < (t.pages p).ref := by
  have := h.2
  split at this <;> omega

theorem Held.ref_of_changed {p : Nat} (h : t.Held managed p) (hc : (t.pages p).changed = true) :
    1 < (t.pages p).ref := by
  have := h.2
  rwa [if_pos hc] at this

/-- Every operation but the destruction of a set keeps the invariant, and this one does when the
    set has no free pages. -/
theorem run_inv {op : PageOp} (h : t.PageInv hash managed []) (hallowed : t.Allowed hash managed op)
    (hok : op.LeavesNone t) : (t.run hash op).PageInv hash managed [] := by
  cases op with
  | alloc n cache offset =>
    have halloc := h.alloc (n := n) hallowed.2
    simp only [run]
    generalize t.alloc hash n cache offset = r at halloc ⊢
    obtain ⟨t', _ | p⟩ := r
    · rw [halloc.1]
      exact h
    · exact halloc.1
  | steal n cache offset =>
    have hsteal := h.steal (n := n) hallowed.2
    simp only [run]
    generalize t.steal hash n cache offset = r at hsteal ⊢
    obtain ⟨t', _ | p⟩ := r
    · rw [hsteal.1]
      exact h
    · exact hsteal.1
  | lookup cache offset => exact (lookup_spec h cache offset).1
  | addRef p => exact h.addRef hallowed.1 (by simp) hallowed.ref_pos
  | release p => exact h.release hallowed.1 (by simp) hallowed.ref_pos hallowed.ref_of_changed
  | change p => exact h.change hallowed.1 (by simp) hallowed.ref_pos
  | clean p => exact h.clean hallowed.1 (by simp) hallowed.ref_of_changed
  | free p => exact h.freePage hallowed.1 (by simp) hallowed.ref_pos hallowed.ref_of_changed
  | reserve n count => exact h.reserve hallowed count
  | fork n => exact h.fork hallowed
  | destroy n => exact h.destroy hallowed.1 hok

/-- A page that is given back is put on the list of the parent once and counted twice. -/
theorem giveBack_sets {n parent p : Nat} {rest : List Nat} (hparent : n ≠ parent)
    (hfree : (t.sets n).freeList = p :: rest) (href : (t.pages p).ref = 0) :
    (t.giveBack n parent).sets = ((t.updSet n fun set =>
      { set with freeList := rest, freeCount := set.freeCount - 1 }).updSet parent fun set =>
        { set with freeList := addLast set.freeList p, freeCount := set.freeCount + 2 }).sets ∧
    ∀ q, q ≠ p → ((t.giveBack n parent).pages q).ref = (t.pages q).ref := by
  have hback : t.giveBack n parent = (((((t.updSet n fun set =>
      { set with freeList := rest, freeCount := set.freeCount - 1 }).updPage p fun page =>
        { page with ref := page.ref + 1 }).updPage p fun page =>
          { page with pageSet := parent, free := true }).release p).updSet parent fun set =>
            { set with freeList := addLast set.freeList p, freeCount := set.freeCount + 1 }) := by
    simp only [giveBack, allocFrom, hfree]
  rw [hback]
  constructor
  · funext m
    by_cases hm : m = parent
    · simp [release, PageTable.free, href, hm, Ne.symm hparent, addLast_addLast]
      omega
    · simp [release, PageTable.free, href, hm]
  · intro q hq
    simp [release, PageTable.free, href, hq]

/-- What the loop of `~PageSet` leaves in the parent. -/
theorem giveBack_loop {n parent : Nat} (hparent : n ≠ parent) (k : Nat) :
    ∀ {t : PageTable}, (t.sets n).freeList.Nodup →
      (∀ p ∈ (t.sets n).freeList, (t.pages p).ref = 0) → k ≤ (t.sets n).freeList.length →
      (((fun t => t.giveBack n parent)^[k] t).sets parent).freeCount =
        (t.sets parent).freeCount + 2 * k ∧
      (((fun t => t.giveBack n parent)^[k] t).sets parent).freeList.length ≤
        (t.sets parent).freeList.length + k ∧
      (((fun t => t.giveBack n parent)^[k] t).sets parent).alive = (t.sets parent).alive := by
  induction k with
  | zero => simp
  | succ k ih =>
    intro t hnodup hzero hlen
    rcases hfree : (t.sets n).freeList with _ | ⟨p, rest⟩
    · rw [hfree] at hlen
      simp at hlen
    rw [hfree] at hnodup hzero hlen
    obtain ⟨hp, hnodup'⟩ := List.nodup_cons.1 hnodup
    obtain ⟨hsets, href⟩ := giveBack_sets hparent hfree (hzero p List.mem_cons_self)
    have hn : ((t.giveBack n parent).sets n).freeList = rest := by
      simp [hsets, hparent]
    have hparent' : (t.giveBack n parent).sets parent = { t.sets parent with
        freeList := addLast (t.sets parent).freeList p
        freeCount := (t.sets parent).freeCount + 2 } := by
      simp [hsets, Ne.symm hparent]
    obtain ⟨hcount, hlength, halive⟩ := ih (t := t.giveBack n parent) (hn ▸ hnodup')
      (fun q hq => by
        rw [hn] at hq
        rw [href q (ne_of_mem_of_not_mem hq hp)]
        exact hzero q (List.mem_cons_of_mem p hq))
      (by
        rw [hn]
        simpa using hlen)
    rw [hparent'] at hcount hlength halive
    dsimp only at hlength
    have hadd := length_addLast_le (t.sets parent).freeList p
    rw [Function.iterate_succ_apply]
    refine ⟨?_, ?_, halive⟩
    · rw [hcount]
      push_cast
      ring
    · omega

/-- A set that leaves free pages behind breaks the count of its parent. -/
theorem destroy_not_ownership {n : Nat} (h : t.PageInv hash managed [])
    (hallowed : t.Allowed hash managed (.destroy n)) (hfree : (t.sets n).freeList ≠ []) :
    ¬PageOwnership hash managed (t.destroy n) := by
  obtain ⟨hunused, hroot⟩ := hallowed
  obtain ⟨parent, hparent⟩ := Option.ne_none_iff_exists'.1 hroot
  obtain ⟨hlt, halive⟩ := h.parent_alive n hunused.alive parent hparent
  have hcount : (t.sets n).freeCount.toNat = (t.sets n).freeList.length := by
    rw [h.free_count]
    exact Int.toNat_natCast _
  have hpos := List.length_pos_of_ne_nil hfree
  obtain ⟨hcount', hlength, halive'⟩ := giveBack_loop (Nat.ne_of_gt hlt)
    (t.sets n).freeList.length (h.free_nodup n) (fun p hp => (h.free_page n p hp).2.2.2.1) le_rfl
  have hset : (t.destroy n).sets parent = ((fun t => t.giveBack n parent)^[
      (t.sets n).freeList.length] t).sets parent := by
    simp only [destroy, hparent, hcount, List.foldl_const, List.length_range, updSet_sets,
      if_neg (Nat.ne_of_lt hlt)]
  intro hown
  have := hown.free_count parent (by rw [hset, halive', halive])
  rw [hset, hcount', h.free_count] at this
  omega

end PageTable

/-- The invariant along every run in which the sets that are destroyed have no free pages. -/
theorem pageSystem_inv {hash : HashCode} {managed : List Nat} {t : PageTable}
    (hrun : (pageSystem hash managed).RunWith (fun t op => op.LeavesNone t) t) :
    t.PageInv hash managed [] := by
  refine hrun.invariant (fun t => t.PageInv hash managed []) ?_ ?_
  · rintro t ⟨hnodup, data, rfl⟩
    exact PageTable.init_inv hash data hnodup
  · rintro t op t' hinv hok ⟨hallowed, rfl⟩
    exact PageTable.run_inv hinv hallowed hok

/-- Along every run in which the sets that are destroyed have no free pages, every page has one
    place and the counts are right. When such a run destroys a set, they stay so exactly when the
    set has no free pages. -/
theorem page_ownership (hash : HashCode) (managed : List Nat) :
    (∀ t : PageTable, (pageSystem hash managed).RunWith (fun t op => op.LeavesNone t) t →
      PageOwnership hash managed t) ∧
    ∀ (t t' : PageTable) (n : Nat),
      (pageSystem hash managed).RunWith (fun t op => op.LeavesNone t) t →
      (pageSystem hash managed).step t (.destroy n) t' →
      (PageOwnership hash managed t' ↔ (PageOp.destroy n).LeavesNone t) := by
  refine ⟨fun t hrun => (pageSystem_inv hrun).ownership, ?_⟩
  rintro t t' n hrun ⟨hallowed, rfl⟩
  refine ⟨fun hown => ?_, fun hok => (PageTable.run_inv (pageSystem_inv hrun) hallowed hok).ownership⟩
  by_contra hfree
  exact PageTable.destroy_not_ownership (pageSystem_inv hrun) hallowed hfree hown

/-- A set is made from the first one and destroyed, and no page has been put in it. -/
theorem page_ownership_fork :
    PageOwnership (fun _ _ => 0) [1] (((PageTable.init [1] fun _ _ => 0).fork 0).destroy 1) := by
  have hinv := (PageTable.init_inv (fun _ _ => 0) (fun _ _ => 0)
    (List.nodup_singleton 1)).fork (n := 0) rfl
  refine (page_ownership (fun _ _ => 0) [1]).1 _ (.next (l := .destroy 1) (.next (l := .fork 0)
    (.start ⟨List.nodup_singleton 1, fun _ _ => 0, rfl⟩) trivial ⟨rfl, rfl⟩) rfl
    ⟨⟨⟨rfl, fun m hm => ?_, rfl, fun p hp _ => ?_⟩, by decide⟩, rfl⟩)
  · have hlt : m < 2 := hinv.alive_lt m hm
    obtain rfl | rfl : m = 0 ∨ m = 1 := by omega
    · decide
    · decide
  · cases List.mem_singleton.1 hp
    decide

/-- One page is reserved for a set, and the set is destroyed: the first set counts two free pages,
    but has one. -/
theorem page_ownership_reserved :
    let t := (((PageTable.init [1] fun _ _ => 0).fork 0).reserve (fun _ _ => 0) 1 1).destroy 1
    (pageSystem (fun _ _ => 0) [1]).Reachable t ∧
      (t.sets 0).freeCount = 2 ∧ (t.sets 0).freeList = [1] ∧
      ¬PageOwnership (fun _ _ => 0) [1] t := by
  intro t
  have hcount : (t.sets 0).freeCount = 2 := by decide
  have hlist : (t.sets 0).freeList = [1] := by decide
  have hinv := ((PageTable.init_inv (fun _ _ => 0) (fun _ _ => 0)
    (List.nodup_singleton 1)).fork (n := 0) rfl).reserve (n := 1) rfl 1
  refine ⟨.next (l := .destroy 1) (.next (l := .reserve 1 1) (.next (l := .fork 0)
    (.start ⟨List.nodup_singleton 1, fun _ _ => 0, rfl⟩) trivial ⟨rfl, rfl⟩) trivial ⟨rfl, rfl⟩)
    trivial ⟨⟨⟨by decide, fun m hm => ?_, by decide, fun p hp _ => ?_⟩, by decide⟩, rfl⟩,
    hcount, hlist, fun hown => ?_⟩
  · have hlt : m < 2 := hinv.alive_lt m hm
    obtain rfl | rfl : m = 0 ∨ m = 1 := by omega
    · decide
    · decide
  · cases List.mem_singleton.1 hp
    decide
  · have := hown.free_count 0 (by decide)
    rw [hcount, hlist] at this
    exact absurd this (by decide)

end EsOs.Kernel
