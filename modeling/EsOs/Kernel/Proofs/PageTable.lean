import EsOs.Kernel.Page
import Mathlib.Data.List.Nodup
import Mathlib.Data.List.TakeWhile
import Mathlib.Tactic.Common

/-!
# The invariant of pages, page sets and the page table

Between two operations every page is on one free list, on one standby list or held by reference,
the counts of each set are the lengths of its lists, and no two pages of the page table stand for
one place of one cache. Inside an operation the pages in `hand` are off the lists on their way to
a cache or to another set; an operation is a sequence of moves into the hand and out of it.
-/

namespace EsOs.Kernel

/-! ## Updates -/

theorem addLast_of_not_mem {l : List Nat} {x : Nat} (h : x ∉ l) : addLast l x = l ++ [x] := by
  rw [addLast, List.takeWhile_eq_self_iff.2]
  intro y hy
  simp only [decide_eq_true_eq]
  rintro rfl
  exact h hy

theorem nodup_addLast {l : List Nat} {x : Nat} (hl : l.Nodup) (h : x ∉ l) :
    (addLast l x).Nodup := by
  rw [addLast_of_not_mem h, ← List.concat_eq_append]
  exact hl.concat h

/-- The element linked last is linked again. -/
theorem addLast_addLast (l : List Nat) (x : Nat) : addLast (addLast l x) x = addLast l x := by
  unfold addLast
  rw [List.takeWhile_append_of_pos]
  · simp
  · intro y hy
    exact List.mem_takeWhile_imp (p := fun y => decide (y ≠ x)) hy

theorem length_addLast_le (l : List Nat) (x : Nat) : (addLast l x).length ≤ l.length + 1 := by
  rw [addLast, List.length_append]
  exact Nat.add_le_add_right (List.takeWhile_sublist _).length_le 1

theorem pageTrunc_idem (offset : Int) : pageTrunc (pageTrunc offset) = pageTrunc offset := by
  unfold pageTrunc
  omega

/-- A page as the operations on references leave it. -/
def Page.content (page : Page) : Page :=
  { page with ref := 0 }

namespace Page

variable {page page' : Page}

theorem content_cache (h : page.content = page'.content) : page.cache = page'.cache := by
  have heq := congrArg Page.cache h
  exact heq

theorem content_offset (h : page.content = page'.content) : page.offset = page'.offset := by
  have heq := congrArg Page.offset h
  exact heq

theorem content_changed (h : page.content = page'.content) : page.changed = page'.changed := by
  have heq := congrArg Page.changed h
  exact heq

theorem content_free (h : page.content = page'.content) : page.free = page'.free := by
  have heq := congrArg Page.free h
  exact heq

theorem content_pageSet (h : page.content = page'.content) : page.pageSet = page'.pageSet := by
  have heq := congrArg Page.pageSet h
  exact heq

theorem content_map (h : page.content = page'.content) : page.map = page'.map := by
  have heq := congrArg Page.map h
  exact heq

theorem content_filled (h : page.content = page'.content) : page.filled = page'.filled := by
  have heq := congrArg Page.filled h
  exact heq

theorem content_data (h : page.content = page'.content) : page.data = page'.data := by
  have heq := congrArg Page.data h
  exact heq

end Page

namespace PageTable

variable {hash : HashCode} {t : PageTable} {p q n : Nat}

section Fields

variable (t : PageTable) (p n : Nat) (f : Page → Page) (g : PageSet → PageSet)

@[simp] theorem updPage_pages :
    (t.updPage p f).pages q = if q = p then f (t.pages p) else t.pages q := by
  by_cases h : q = p <;> simp [updPage, Function.update, h]

theorem updPage_eq_self (hf : f (t.pages p) = t.pages p) : t.updPage p f = t := by
  simp [updPage, hf]

theorem updPage_updPage (f' : Page → Page) :
    (t.updPage p f).updPage p f' = t.updPage p fun page => f' (f page) := by
  simp [updPage]

@[simp] theorem updPage_sets : (t.updPage p f).sets = t.sets := rfl

@[simp] theorem updPage_hashTable : (t.updPage p f).hashTable = t.hashTable := rfl

@[simp] theorem updPage_setCount : (t.updPage p f).setCount = t.setCount := rfl

@[simp] theorem updSet_sets {m : Nat} :
    (t.updSet n g).sets m = if m = n then g (t.sets n) else t.sets m := by
  by_cases h : m = n <;> simp [updSet, Function.update, h]

@[simp] theorem updSet_pages : (t.updSet n g).pages = t.pages := rfl

@[simp] theorem updSet_hashTable : (t.updSet n g).hashTable = t.hashTable := rfl

@[simp] theorem updSet_setCount : (t.updSet n g).setCount = t.setCount := rfl

end Fields

theorem mem_remove (t : PageTable) (p q c : Nat) :
    q ∈ (t.remove hash p).hashTable c ↔
      if c = t.chainOf hash p then q ∈ (t.hashTable c).erase p else q ∈ t.hashTable c := by
  by_cases hc : c = t.chainOf hash p
  · subst hc
    simp [remove]
  · simp [remove, hc]

theorem mem_add (t : PageTable) (p q c : Nat) :
    q ∈ (t.add hash p).hashTable c ↔ q ∈ t.hashTable c ∨ c = t.chainOf hash p ∧ q = p := by
  by_cases hc : c = t.chainOf hash p
  · subst hc
    simp [add, or_comm]
  · simp [add, hc]

theorem registered_remove (hq : q ≠ p) :
    (t.remove hash p).Registered hash q ↔ t.Registered hash q := by
  rw [Registered, mem_remove]
  split
  · exact List.mem_erase_of_ne hq
  · exact Iff.rfl

theorem registered_add (hq : q ≠ p) :
    (t.add hash p).Registered hash q ↔ t.Registered hash q := by
  rw [Registered, mem_add]
  exact or_iff_left fun h => hq h.2

theorem registered_updPage {f : Page → Page} (hq : q ≠ p) :
    (t.updPage p f).Registered hash q ↔ t.Registered hash q := by
  simp [Registered, chainOf, hq]

/-- A page keeps its chain as long as it stands for the same place. -/
theorem registered_updPage_of_place {f : Page → Page}
    (hcache : (f (t.pages p)).cache = (t.pages p).cache)
    (hoffset : (f (t.pages p)).offset = (t.pages p).offset) :
    (t.updPage p f).Registered hash q ↔ t.Registered hash q := by
  by_cases hq : q = p
  · subst hq
    simp [Registered, chainOf, hcache, hoffset]
  · exact registered_updPage hq

/-- The invariant. `managed` are the pages that belong to any set, and `hand` the pages that an
    operation has taken off the lists and not put back yet. -/
structure PageInv (hash : HashCode) (managed hand : List Nat) (t : PageTable) : Prop where
  hand_sub : ∀ p ∈ hand, p ∈ managed
  hand_nodup : hand.Nodup
  set_alive : ∀ p ∈ managed, (t.sets (t.pages p).pageSet).alive = true
  ref_nonneg : ∀ p ∈ managed, p ∉ hand → 0 ≤ (t.pages p).ref
  held : ∀ p ∈ managed, p ∉ hand → 0 < (t.pages p).ref →
    t.Registered hash p ∨ (t.pages p).free = true
  idle : ∀ p ∈ managed, p ∉ hand → (t.pages p).ref = 0 →
    p ∈ (t.sets (t.pages p).pageSet).freeList ∨ p ∈ (t.sets (t.pages p).pageSet).standbyList
  changed : ∀ p ∈ managed, p ∉ hand → (t.pages p).changed = true → 0 < (t.pages p).ref
  free_page : ∀ n, ∀ p ∈ (t.sets n).freeList, p ∈ managed ∧ p ∉ hand ∧
    (t.pages p).pageSet = n ∧ (t.pages p).ref = 0 ∧ (t.pages p).cache = none
  free_nodup : ∀ n, (t.sets n).freeList.Nodup
  free_count : ∀ n, (t.sets n).freeCount = (t.sets n).freeList.length
  standby_page : ∀ n, ∀ p ∈ (t.sets n).standbyList, p ∈ managed ∧ p ∉ hand ∧
    (t.pages p).pageSet = n ∧ (t.pages p).ref = 0 ∧ t.Registered hash p
  standby_nodup : ∀ n, (t.sets n).standbyList.Nodup
  standby_count : ∀ n, (t.sets n).standbyCount = (t.sets n).standbyList.length
  chain_page : ∀ c, ∀ p ∈ t.hashTable c, p ∈ managed ∧ c = t.chainOf hash p ∧
    (t.pages p).cache ≠ none ∧ (t.pages p).free = false
  chain_nodup : ∀ c, (t.hashTable c).Nodup
  unique : ∀ p q, t.Registered hash p → t.Registered hash q →
    (t.pages p).cache = (t.pages q).cache → (t.pages p).offset = (t.pages q).offset → p = q
  alive_lt : ∀ n, (t.sets n).alive = true → n < t.setCount
  parent_alive : ∀ n, (t.sets n).alive = true → ∀ m, (t.sets n).parent = some m →
    m < n ∧ (t.sets m).alive = true

namespace PageInv

variable {managed hand : List Nat}

theorem mem_of_registered (h : t.PageInv hash managed hand) (hp : t.Registered hash p) :
    p ∈ managed :=
  (h.chain_page _ p hp).1

theorem registered_of_mem (h : t.PageInv hash managed hand) {c : Nat} (hp : p ∈ t.hashTable c) :
    t.Registered hash p := by
  rw [Registered, ← (h.chain_page c p hp).2.1]
  exact hp

theorem free_of_registered (h : t.PageInv hash managed hand) (hp : t.Registered hash p) :
    (t.pages p).free = false :=
  (h.chain_page _ p hp).2.2.2

theorem not_registered_of_cache (h : t.PageInv hash managed hand)
    (hcache : (t.pages p).cache = none) : ¬t.Registered hash p :=
  fun hp => (h.chain_page _ p hp).2.2.1 hcache

theorem not_mem_lists (h : t.PageInv hash managed hand) (hp : p ∈ hand) (n : Nat) :
    p ∉ (t.sets n).freeList ∧ p ∉ (t.sets n).standbyList :=
  ⟨fun hf => (h.free_page n p hf).2.1 hp, fun hs => (h.standby_page n p hs).2.1 hp⟩

/-! ### Moves of one page -/

/-- A page with references is taken in hand as it is. -/
theorem open_held (h : t.PageInv hash managed hand) (hp : p ∈ managed) (hnew : p ∉ hand)
    (href : 0 < (t.pages p).ref) : t.PageInv hash managed (p :: hand) := by
  have hsub : ∀ {q}, q ∉ p :: hand → q ∉ hand := fun hq hm => hq (List.mem_cons_of_mem _ hm)
  have hne : ∀ q, (t.pages q).ref = 0 → q ≠ p := by
    rintro q hq rfl
    omega
  refine { h with
    hand_sub := List.forall_mem_cons.mpr ⟨hp, h.hand_sub⟩
    hand_nodup := List.nodup_cons.mpr ⟨hnew, h.hand_nodup⟩
    ref_nonneg := fun q hq hn => h.ref_nonneg q hq (hsub hn)
    held := fun q hq hn => h.held q hq (hsub hn)
    idle := fun q hq hn => h.idle q hq (hsub hn)
    changed := fun q hq hn => h.changed q hq (hsub hn)
    free_page := fun n q hq => ?_
    standby_page := fun n q hq => ?_ }
  · obtain ⟨hm, hn, hset, hzero, hcache⟩ := h.free_page n q hq
    exact ⟨hm, List.not_mem_cons_of_ne_of_not_mem (hne q hzero) hn, hset, hzero, hcache⟩
  · obtain ⟨hm, hn, hset, hzero, hreg⟩ := h.standby_page n q hq
    exact ⟨hm, List.not_mem_cons_of_ne_of_not_mem (hne q hzero) hn, hset, hzero, hreg⟩

/-- A page is put back as it is, with a reference. -/
theorem close_held (h : t.PageInv hash managed (p :: hand)) (href : 0 < (t.pages p).ref)
    (hheld : t.Registered hash p ∨ (t.pages p).free = true) : t.PageInv hash managed hand := by
  obtain ⟨hp, hsub⟩ := List.forall_mem_cons.mp h.hand_sub
  refine { h with
    hand_sub := hsub
    hand_nodup := h.hand_nodup.of_cons
    ref_nonneg := fun q hq hn => ?_
    held := fun q hq hn hpos => ?_
    idle := fun q hq hn hzero => ?_
    changed := fun q hq hn hc => ?_
    free_page := fun n q hq => ?_
    standby_page := fun n q hq => ?_ }
  · by_cases hqp : q = p
    · rw [hqp]
      exact Int.le_of_lt href
    · exact h.ref_nonneg q hq (List.not_mem_cons_of_ne_of_not_mem hqp hn)
  · by_cases hqp : q = p
    · rw [hqp]
      exact hheld
    · exact h.held q hq (List.not_mem_cons_of_ne_of_not_mem hqp hn) hpos
  · refine h.idle q hq (List.not_mem_cons_of_ne_of_not_mem ?_ hn) hzero
    rintro rfl
    omega
  · by_cases hqp : q = p
    · rw [hqp]
      exact href
    · exact h.changed q hq (List.not_mem_cons_of_ne_of_not_mem hqp hn) hc
  · obtain ⟨hm, hn, hrest⟩ := h.free_page n q hq
    exact ⟨hm, fun hmem => hn (List.mem_cons_of_mem _ hmem), hrest⟩
  · obtain ⟨hm, hn, hrest⟩ := h.standby_page n q hq
    exact ⟨hm, fun hmem => hn (List.mem_cons_of_mem _ hmem), hrest⟩

/-- A change of the record of a page in hand. A page of the page table keeps its place. -/
theorem updPage (h : t.PageInv hash managed hand) (hp : p ∈ hand) (f : Page → Page)
    (halive : (t.sets (f (t.pages p)).pageSet).alive = true)
    (hreg : t.Registered hash p → (f (t.pages p)).cache = (t.pages p).cache ∧
      (f (t.pages p)).offset = (t.pages p).offset ∧ (f (t.pages p)).free = (t.pages p).free) :
    (t.updPage p f).PageInv hash managed hand := by
  have hne : ∀ q, q ∉ hand → (t.updPage p f).pages q = t.pages q := by
    intro q hq
    rw [updPage_pages, if_neg (by rintro rfl; exact hq hp)]
  have hplace : ∀ q, t.Registered hash q → ((t.updPage p f).pages q).cache = (t.pages q).cache ∧
      ((t.updPage p f).pages q).offset = (t.pages q).offset ∧
      ((t.updPage p f).pages q).free = (t.pages q).free := by
    intro q hq
    rw [updPage_pages]
    split
    · rename_i hqp
      rw [hqp] at hq ⊢
      exact hreg hq
    · exact ⟨rfl, rfl, rfl⟩
  have hregister : ∀ q, (t.updPage p f).Registered hash q → t.Registered hash q := by
    intro q hq
    exact h.registered_of_mem hq
  have hregister' : ∀ q, t.Registered hash q → (t.updPage p f).Registered hash q := by
    intro q hq
    obtain ⟨hc, ho, -⟩ := hplace q hq
    rw [Registered, chainOf, hc, ho]
    exact hq
  refine ⟨h.hand_sub, h.hand_nodup, ?_, ?_, ?_, ?_, ?_, ?_, h.free_nodup, h.free_count, ?_,
    h.standby_nodup, h.standby_count, ?_, h.chain_nodup, ?_, h.alive_lt, h.parent_alive⟩
  · intro q hq
    rw [updPage_pages]
    split
    · exact halive
    · exact h.set_alive q hq
  · intro q hq hn
    rw [hne q hn]
    exact h.ref_nonneg q hq hn
  · intro q hq hn hpos
    rw [hne q hn] at hpos ⊢
    exact (h.held q hq hn hpos).imp_left (hregister' q)
  · intro q hq hn hzero
    rw [hne q hn] at hzero ⊢
    exact h.idle q hq hn hzero
  · intro q hq hn hc
    rw [hne q hn] at hc ⊢
    exact h.changed q hq hn hc
  · intro n q hq
    obtain ⟨hm, hn, hrest⟩ := h.free_page n q hq
    rw [hne q hn]
    exact ⟨hm, hn, hrest⟩
  · intro n q hq
    obtain ⟨hm, hn, hset, hzero, hr⟩ := h.standby_page n q hq
    rw [hne q hn]
    exact ⟨hm, hn, hset, hzero, hregister' q hr⟩
  · intro c q hq
    obtain ⟨hm, hc, hcache, hfree⟩ := h.chain_page c q hq
    obtain ⟨hc', ho', hf'⟩ := hplace q (h.registered_of_mem hq)
    rw [chainOf, hc', ho', hf']
    exact ⟨hm, hc, hcache, hfree⟩
  · intro q r hq hr hcache hoffset
    have hq' := hregister q hq
    have hr' := hregister r hr
    obtain ⟨hcq, hoq, -⟩ := hplace q hq'
    obtain ⟨hcr, hor, -⟩ := hplace r hr'
    rw [hcq, hcr] at hcache
    rw [hoq, hor] at hoffset
    exact h.unique q r hq' hr' hcache hoffset

/-- A change of the lists of one set, by pages that come in hand or are put back. -/
theorem updSet (h : t.PageInv hash managed hand) {hand' : List Nat} (n : Nat)
    (g : PageSet → PageSet) (halive : (g (t.sets n)).alive = (t.sets n).alive)
    (hparent : (g (t.sets n)).parent = (t.sets n).parent)
    (hsub : ∀ q ∈ hand', q ∈ managed) (hnodup : hand'.Nodup)
    (hnew : ∀ q ∈ managed, q ∉ hand' → q ∈ hand → (t.pages q).ref = 0 ∧
      (t.pages q).changed = false ∧ (t.pages q).pageSet = n)
    (hother : ∀ m, m ≠ n → ∀ q, q ∈ (t.sets m).freeList ∨ q ∈ (t.sets m).standbyList → q ∉ hand')
    (hidle : ∀ q ∈ managed, q ∉ hand' → (t.pages q).ref = 0 → (t.pages q).pageSet = n →
      q ∈ (g (t.sets n)).freeList ∨ q ∈ (g (t.sets n)).standbyList)
    (hfree : ∀ q ∈ (g (t.sets n)).freeList, q ∈ managed ∧ q ∉ hand' ∧
      (t.pages q).pageSet = n ∧ (t.pages q).ref = 0 ∧ (t.pages q).cache = none)
    (hfree_nodup : (g (t.sets n)).freeList.Nodup)
    (hfree_count : (g (t.sets n)).freeCount = (g (t.sets n)).freeList.length)
    (hstandby : ∀ q ∈ (g (t.sets n)).standbyList, q ∈ managed ∧ q ∉ hand' ∧
      (t.pages q).pageSet = n ∧ (t.pages q).ref = 0 ∧ t.Registered hash q)
    (hstandby_nodup : (g (t.sets n)).standbyList.Nodup)
    (hstandby_count : (g (t.sets n)).standbyCount = (g (t.sets n)).standbyList.length) :
    (t.updSet n g).PageInv hash managed hand' := by
  have halive' : ∀ m, ((t.updSet n g).sets m).alive = (t.sets m).alive := by
    intro m
    rw [updSet_sets]
    split
    · rename_i hm
      rw [hm, halive]
    · rfl
  have hparent' : ∀ m, ((t.updSet n g).sets m).parent = (t.sets m).parent := by
    intro m
    rw [updSet_sets]
    split
    · rename_i hm
      rw [hm, hparent]
    · rfl
  refine ⟨hsub, hnodup, ?_, ?_, ?_, ?_, ?_, ?_, ?_, ?_, ?_, ?_, ?_, h.chain_page, h.chain_nodup,
    h.unique, ?_, ?_⟩
  · intro q hq
    rw [halive']
    exact h.set_alive q hq
  · intro q hq hn
    by_cases hh : q ∈ hand
    · exact Int.le_of_eq (hnew q hq hn hh).1.symm
    · exact h.ref_nonneg q hq hh
  · intro q hq hn hpos
    by_cases hh : q ∈ hand
    · exact absurd (hnew q hq hn hh).1 (by simp only [updSet_pages] at hpos; omega)
    · exact h.held q hq hh hpos
  · intro q hq hn hzero
    simp only [updSet_pages, updSet_sets] at hzero ⊢
    split
    · rename_i hset
      exact hidle q hq hn hzero hset
    · rename_i hset
      refine h.idle q hq (fun hh => hset (hnew q hq hn hh).2.2) hzero
  · intro q hq hn hc
    by_cases hh : q ∈ hand
    · simp [(hnew q hq hn hh).2.1] at hc
    · exact h.changed q hq hh hc
  · intro m q hq
    rw [updSet_sets] at hq
    split at hq
    · rename_i hm
      rw [hm]
      exact hfree q hq
    · rename_i hm
      obtain ⟨hq', -, hrest⟩ := h.free_page m q hq
      exact ⟨hq', hother m hm q (.inl hq), hrest⟩
  · intro m
    rw [updSet_sets]
    split
    · exact hfree_nodup
    · exact h.free_nodup m
  · intro m
    rw [updSet_sets]
    split
    · exact hfree_count
    · exact h.free_count m
  · intro m q hq
    rw [updSet_sets] at hq
    split at hq
    · rename_i hm
      rw [hm]
      exact hstandby q hq
    · rename_i hm
      obtain ⟨hq', -, hrest⟩ := h.standby_page m q hq
      exact ⟨hq', hother m hm q (.inr hq), hrest⟩
  · intro m
    rw [updSet_sets]
    split
    · exact hstandby_nodup
    · exact h.standby_nodup m
  · intro m
    rw [updSet_sets]
    split
    · exact hstandby_count
    · exact h.standby_count m
  · intro m hm
    rw [halive'] at hm
    exact h.alive_lt m hm
  · intro m hm k hk
    rw [halive'] at hm
    rw [hparent'] at hk
    rw [halive']
    exact h.parent_alive m hm k hk

theorem not_mem_hand_of_list (h : t.PageInv hash managed hand) {m : Nat}
    (hq : q ∈ (t.sets m).freeList ∨ q ∈ (t.sets m).standbyList) : q ∉ hand := by
  rcases hq with hq | hq
  · exact (h.free_page m q hq).2.1
  · exact (h.standby_page m q hq).2.1

theorem pageSet_of_list (h : t.PageInv hash managed hand) {m : Nat}
    (hq : q ∈ (t.sets m).freeList ∨ q ∈ (t.sets m).standbyList) : (t.pages q).pageSet = m := by
  rcases hq with hq | hq
  · exact (h.free_page m q hq).2.2.1
  · exact (h.standby_page m q hq).2.2.1

/-- No page is free and on standby at once. -/
theorem not_mem_standby_of_free (h : t.PageInv hash managed hand) {m : Nat}
    (hq : q ∈ (t.sets m).freeList) : q ∉ (t.sets m).standbyList := fun hs =>
  h.not_registered_of_cache (h.free_page m q hq).2.2.2.2 (h.standby_page m q hs).2.2.2.2

/-- The first page of a free list is taken in hand. -/
theorem take_free (h : t.PageInv hash managed hand) {rest : List Nat}
    (hlist : (t.sets n).freeList = p :: rest) :
    (t.updSet n fun set => { set with freeList := rest, freeCount := set.freeCount - 1 }).PageInv
      hash managed (p :: hand) := by
  have hmem : p ∈ (t.sets n).freeList := by rw [hlist]; exact List.mem_cons_self
  obtain ⟨hp, hnew, hset, -, -⟩ := h.free_page n p hmem
  have hnodup := h.free_nodup n
  rw [hlist] at hnodup
  have hcount := h.free_count n
  rw [hlist, List.length_cons] at hcount
  refine h.updSet n _ rfl rfl (List.forall_mem_cons.mpr ⟨hp, h.hand_sub⟩)
    (List.nodup_cons.mpr ⟨hnew, h.hand_nodup⟩) ?_ ?_ ?_ ?_ hnodup.of_cons ?_ ?_
    (h.standby_nodup n) (h.standby_count n)
  · intro q _ hn hh
    exact absurd (List.mem_cons_of_mem p hh) hn
  · intro m hm q hq
    refine List.not_mem_cons_of_ne_of_not_mem ?_ (h.not_mem_hand_of_list hq)
    rintro rfl
    exact hm ((h.pageSet_of_list hq).symm.trans hset)
  · intro q hq hn hzero hqset
    rw [List.mem_cons, not_or] at hn
    have := h.idle q hq hn.2 hzero
    rw [hqset, hlist, List.mem_cons] at this
    exact this.imp_left fun h' => h'.resolve_left hn.1
  · intro q hq
    obtain ⟨hq', hn, hrest⟩ := h.free_page n q (by rw [hlist]; exact List.mem_cons_of_mem _ hq)
    refine ⟨hq', List.not_mem_cons_of_ne_of_not_mem ?_ hn, hrest⟩
    rintro rfl
    exact (List.nodup_cons.mp hnodup).1 hq
  · simp only
    omega
  · intro q hq
    obtain ⟨hq', hn, hrest⟩ := h.standby_page n q hq
    refine ⟨hq', List.not_mem_cons_of_ne_of_not_mem ?_ hn, hrest⟩
    rintro rfl
    exact h.not_mem_standby_of_free hmem hq

/-- `PageSet::use` takes a page on standby in hand. -/
theorem use (h : t.PageInv hash managed hand) (hmem : p ∈ (t.sets n).standbyList) :
    (t.use n p).PageInv hash managed (p :: hand) := by
  obtain ⟨hp, hnew, hset, -, -⟩ := h.standby_page n p hmem
  have hnodup := h.standby_nodup n
  have hcount := h.standby_count n
  have hlen := List.length_erase_of_mem hmem
  have hpos := List.length_pos_of_mem hmem
  refine h.updSet n _ rfl rfl (List.forall_mem_cons.mpr ⟨hp, h.hand_sub⟩)
    (List.nodup_cons.mpr ⟨hnew, h.hand_nodup⟩) ?_ ?_ ?_ ?_ (h.free_nodup n) (h.free_count n) ?_
    (hnodup.erase p) ?_
  · intro q _ hn hh
    exact absurd (List.mem_cons_of_mem p hh) hn
  · intro m hm q hq
    refine List.not_mem_cons_of_ne_of_not_mem ?_ (h.not_mem_hand_of_list hq)
    rintro rfl
    exact hm ((h.pageSet_of_list hq).symm.trans hset)
  · intro q hq hn hzero hqset
    rw [List.mem_cons, not_or] at hn
    have := h.idle q hq hn.2 hzero
    rw [hqset] at this
    exact this.imp_right (List.mem_erase_of_ne hn.1).mpr
  · intro q hq
    obtain ⟨hq', hn, hrest⟩ := h.free_page n q hq
    refine ⟨hq', List.not_mem_cons_of_ne_of_not_mem ?_ hn, hrest⟩
    rintro rfl
    exact h.not_mem_standby_of_free hq hmem
  · intro q hq
    obtain ⟨hqp, hq⟩ := (hnodup.mem_erase_iff).mp hq
    obtain ⟨hq', hn, hrest⟩ := h.standby_page n q hq
    exact ⟨hq', List.not_mem_cons_of_ne_of_not_mem hqp hn, hrest⟩
  · simp only
    omega

/-- A page in hand without references and without a cache goes to the end of the free list. -/
theorem put_free (h : t.PageInv hash managed (p :: hand)) (hset : (t.pages p).pageSet = n)
    (hzero : (t.pages p).ref = 0) (hcache : (t.pages p).cache = none)
    (hchanged : (t.pages p).changed = false) :
    (t.updSet n fun set =>
      { set with freeList := addLast set.freeList p, freeCount := set.freeCount + 1 }).PageInv
        hash managed hand := by
  obtain ⟨hp, hsub⟩ := List.forall_mem_cons.mp h.hand_sub
  obtain ⟨hnotin, hnodup⟩ := List.nodup_cons.mp h.hand_nodup
  have hlists := h.not_mem_lists List.mem_cons_self n
  have hcount := h.free_count n
  refine h.updSet n _ rfl rfl hsub hnodup ?_ ?_ ?_ ?_ ?_ ?_ ?_ (h.standby_nodup n)
    (h.standby_count n)
  · intro q _ hn hh
    obtain rfl : q = p := (List.mem_cons.mp hh).resolve_right hn
    exact ⟨hzero, hchanged, hset⟩
  · exact fun m _ q hq hh => h.not_mem_hand_of_list hq (List.mem_cons_of_mem _ hh)
  · intro q hq hn hz hqset
    simp only [addLast_of_not_mem hlists.1, List.mem_append, List.mem_singleton]
    by_cases hqp : q = p
    · exact .inl (.inr hqp)
    · have := h.idle q hq (List.not_mem_cons_of_ne_of_not_mem hqp hn) hz
      rw [hqset] at this
      exact this.imp_left .inl
  · intro q hq
    simp only [addLast_of_not_mem hlists.1, List.mem_append, List.mem_singleton] at hq
    rcases hq with hq | rfl
    · obtain ⟨hq', hn, hrest⟩ := h.free_page n q hq
      exact ⟨hq', fun hh => hn (List.mem_cons_of_mem _ hh), hrest⟩
    · exact ⟨hp, hnotin, hset, hzero, hcache⟩
  · exact nodup_addLast (h.free_nodup n) hlists.1
  · simp only [addLast_of_not_mem hlists.1, List.length_append, List.length_singleton]
    omega
  · intro q hq
    obtain ⟨hq', hn, hrest⟩ := h.standby_page n q hq
    exact ⟨hq', fun hh => hn (List.mem_cons_of_mem _ hh), hrest⟩

/-- A page in hand that the page table finds goes to the end of the standby list. -/
theorem put_standby (h : t.PageInv hash managed (p :: hand)) (hset : (t.pages p).pageSet = n)
    (hzero : (t.pages p).ref = 0) (hreg : t.Registered hash p)
    (hchanged : (t.pages p).changed = false) :
    (t.standby n p).PageInv hash managed hand := by
  obtain ⟨hp, hsub⟩ := List.forall_mem_cons.mp h.hand_sub
  obtain ⟨hnotin, hnodup⟩ := List.nodup_cons.mp h.hand_nodup
  have hlists := h.not_mem_lists List.mem_cons_self n
  have hcount := h.standby_count n
  refine h.updSet n _ rfl rfl hsub hnodup ?_ ?_ ?_ ?_ (h.free_nodup n) (h.free_count n) ?_ ?_ ?_
  · intro q _ hn hh
    obtain rfl : q = p := (List.mem_cons.mp hh).resolve_right hn
    exact ⟨hzero, hchanged, hset⟩
  · exact fun m _ q hq hh => h.not_mem_hand_of_list hq (List.mem_cons_of_mem _ hh)
  · intro q hq hn hz hqset
    simp only [addLast_of_not_mem hlists.2, List.mem_append, List.mem_singleton]
    by_cases hqp : q = p
    · exact .inr (.inr hqp)
    · have := h.idle q hq (List.not_mem_cons_of_ne_of_not_mem hqp hn) hz
      rw [hqset] at this
      exact this.imp_right .inl
  · intro q hq
    obtain ⟨hq', hn, hrest⟩ := h.free_page n q hq
    exact ⟨hq', fun hh => hn (List.mem_cons_of_mem _ hh), hrest⟩
  · intro q hq
    simp only [addLast_of_not_mem hlists.2, List.mem_append, List.mem_singleton] at hq
    rcases hq with hq | rfl
    · obtain ⟨hq', hn, hrest⟩ := h.standby_page n q hq
      exact ⟨hq', fun hh => hn (List.mem_cons_of_mem _ hh), hrest⟩
    · exact ⟨hp, hnotin, hset, hzero, hreg⟩
  · exact nodup_addLast (h.standby_nodup n) hlists.2
  · simp only [addLast_of_not_mem hlists.2, List.length_append, List.length_singleton]
    omega

/-! ### The page table -/

/-- A page in hand is taken out of the page table. -/
theorem remove (h : t.PageInv hash managed hand) (hp : p ∈ hand) :
    (t.remove hash p).PageInv hash managed hand ∧ ¬(t.remove hash p).Registered hash p := by
  have hmem : ∀ c q, q ∈ (t.remove hash p).hashTable c ↔ q ∈ t.hashTable c ∧ q ≠ p := by
    intro c q
    rw [mem_remove]
    split
    · rw [(h.chain_nodup c).mem_erase_iff, and_comm]
    · rename_i hc
      refine ⟨fun hq => ⟨hq, ?_⟩, fun hq => hq.1⟩
      rintro rfl
      exact hc (h.chain_page c q hq).2.1
  have hreg : ∀ q, (t.remove hash p).Registered hash q ↔ t.Registered hash q ∧ q ≠ p :=
    fun q => hmem _ q
  refine ⟨{ h with
    held := fun q hq hn hpos => ?_
    standby_page := fun n q hq => ?_
    chain_page := fun c q hq => h.chain_page c q ((hmem c q).mp hq).1
    chain_nodup := fun c => ?_
    unique := fun q r hq hr => h.unique q r ((hreg q).mp hq).1 ((hreg r).mp hr).1 }, ?_⟩
  · exact (h.held q hq hn hpos).imp_left fun hr => (hreg q).mpr ⟨hr, by rintro rfl; exact hn hp⟩
  · obtain ⟨hm, hn, hset, hzero, hr⟩ := h.standby_page n q hq
    exact ⟨hm, hn, hset, hzero, (hreg q).mpr ⟨hr, by rintro rfl; exact hn hp⟩⟩
  · by_cases hc : c = t.chainOf hash p
    · subst hc
      simpa [PageTable.remove] using (h.chain_nodup _).erase p
    · simpa [PageTable.remove, hc] using h.chain_nodup c
  · rw [hreg]
    exact fun hr => hr.2 rfl

/-- A page in hand is entered into the page table for a vacant place. -/
theorem add (h : t.PageInv hash managed hand) (hp : p ∈ hand)
    (hcache : (t.pages p).cache ≠ none) (hfree : (t.pages p).free = false)
    (hvacant : ∀ q, t.Registered hash q → (t.pages q).cache = (t.pages p).cache →
      (t.pages q).offset ≠ (t.pages p).offset) :
    (t.add hash p).PageInv hash managed hand ∧ (t.add hash p).Registered hash p := by
  have hmem : ∀ q c, q ∈ (t.add hash p).hashTable c ↔ _ := mem_add t p
  have hreg : ∀ q, (t.add hash p).Registered hash q ↔ t.Registered hash q ∨ q = p := by
    intro q
    rw [Registered, hmem q]
    refine or_congr_right ⟨fun hq => hq.2, fun hq => ⟨?_, hq⟩⟩
    rw [hq]
    rfl
  have hnew : ¬t.Registered hash p := fun hr => hvacant p hr rfl rfl
  refine ⟨{ h with
    held := fun q hq hn hpos => (h.held q hq hn hpos).imp_left fun hr => (hreg q).mpr (.inl hr)
    standby_page := fun n q hq => ?_
    chain_page := fun c q hq => ?_
    chain_nodup := fun c => ?_
    unique := fun q r hq hr hc ho => ?_ }, (hreg p).mpr (.inr rfl)⟩
  · obtain ⟨hm, hn, hset, hzero, hr⟩ := h.standby_page n q hq
    exact ⟨hm, hn, hset, hzero, (hreg q).mpr (.inl hr)⟩
  · rcases (hmem q c).mp hq with hq | ⟨hc, rfl⟩
    · exact h.chain_page c q hq
    · exact ⟨h.hand_sub q hp, hc, hcache, hfree⟩
  · by_cases hc : c = t.chainOf hash p
    · subst hc
      simpa [PageTable.add] using ⟨hnew, h.chain_nodup _⟩
    · simpa [PageTable.add, hc] using h.chain_nodup c
  · rcases (hreg q).mp hq with hq' | rfl
    · rcases (hreg r).mp hr with hr' | rfl
      · exact h.unique q r hq' hr' hc ho
      · exact absurd ho (hvacant q hq' hc)
    · rcases (hreg r).mp hr with hr' | rfl
      · exact absurd ho.symm (hvacant r hr' hc.symm)
      · rfl

/-! ### References -/

/-- The release of a page in hand puts it back. -/
theorem release_hand (h : t.PageInv hash managed (p :: hand)) (href : 0 < (t.pages p).ref)
    (hchanged : (t.pages p).changed = true → 1 < (t.pages p).ref)
    (hheld : t.Registered hash p ∨ (t.pages p).free = true) :
    (t.release p).PageInv hash managed hand := by
  have hp := h.hand_sub p List.mem_cons_self
  have hdown := h.updPage List.mem_cons_self (fun page => { page with ref := page.ref - 1 })
    (h.set_alive p hp) fun _ => ⟨rfl, rfl, rfl⟩
  have hreg : (t.updPage p fun page => { page with ref := page.ref - 1 }).Registered hash p ↔
      t.Registered hash p := by
    simp [Registered, chainOf]
  simp only [release]
  split
  · rename_i hzero
    simp only [updPage_pages, if_pos] at hzero
    have hclean : (t.pages p).changed = false := by
      by_contra hc
      have := hchanged (by simpa using hc)
      omega
    split
    · rename_i hfree
      simp only [updPage_pages, if_pos] at hfree
      refine (hdown.updPage List.mem_cons_self _ ?_ ?_).put_free ?_ ?_ ?_ ?_
      · simpa using h.set_alive p hp
      · intro hr
        rw [hreg] at hr
        rw [h.free_of_registered hr] at hfree
        cases hfree
      all_goals simp [hzero]
    · rename_i hfree
      simp only [updPage_pages, if_pos] at hfree
      refine hdown.put_standby (by simp) (by simpa using hzero) ?_ (by simpa using hclean)
      exact hreg.mpr (hheld.resolve_right hfree)
  · rename_i hzero
    simp only [updPage_pages, if_pos] at hzero
    refine hdown.close_held ?_ ?_
    · simp only [updPage_pages, if_pos]
      omega
    · simpa [hreg] using hheld

/-- A page on no list goes through a release when other references are left, or when it belongs
    to the page table or to the free list. -/
theorem release (h : t.PageInv hash managed hand) (hp : p ∈ managed) (hn : p ∉ hand)
    (href : 0 < (t.pages p).ref) (hchanged : (t.pages p).changed = true → 1 < (t.pages p).ref) :
    (t.release p).PageInv hash managed hand :=
  (h.open_held hp hn href).release_hand href hchanged (h.held p hp hn href)

theorem registered_addRef (t : PageTable) (p q : Nat) :
    (t.addRef p).Registered hash q ↔ t.Registered hash q := by
  by_cases hq : q = p
  · subst hq
    simp [addRef, Registered, chainOf]
  · simp [addRef, Registered, chainOf, hq]

theorem addRef (h : t.PageInv hash managed hand) (hp : p ∈ managed) (hn : p ∉ hand)
    (href : 0 < (t.pages p).ref) : (t.addRef p).PageInv hash managed hand := by
  refine ((h.open_held hp hn href).updPage List.mem_cons_self _ (h.set_alive p hp)
    fun _ => ⟨rfl, rfl, rfl⟩).close_held ?_ ?_
  · simp only [updPage_pages, if_pos]
    omega
  · have hheld := h.held p hp hn href
    have hreg : (t.addRef p).Registered hash p ↔ t.Registered hash p := registered_addRef t p p
    rw [PageTable.addRef] at hreg
    rw [hreg]
    simpa using hheld

/-- A page on standby is not free, so that a reference takes it off the standby list. -/
theorem standby_of_registered (h : t.PageInv hash managed hand) (hreg : t.Registered hash p)
    (hn : p ∉ hand) (hzero : (t.pages p).ref = 0) :
    p ∈ (t.sets (t.pages p).pageSet).standbyList := by
  refine (h.idle p (h.mem_of_registered hreg) hn hzero).resolve_left fun hfree => ?_
  exact h.not_registered_of_cache (h.free_page _ p hfree).2.2.2.2 hreg

end PageInv

/-- Two pages agree in all that the lists of pages are about. -/
structure SameHeader (page page' : Page) : Prop where
  ref : page'.ref = page.ref
  cache : page'.cache = page.cache
  offset : page'.offset = page.offset
  changed : page'.changed = page.changed
  free : page'.free = page.free
  pageSet : page'.pageSet = page.pageSet

theorem SameHeader.refl (page : Page) : SameHeader page page :=
  ⟨rfl, rfl, rfl, rfl, rfl, rfl⟩

/-- What pages hold is not part of the invariant. -/
theorem PageInv.updData {managed hand : List Nat} {f : Page → Page}
    (h : t.PageInv hash managed hand) (hf : SameHeader (t.pages p) (f (t.pages p))) :
    (t.updPage p f).PageInv hash managed hand := by
  have hsame : ∀ q, SameHeader (t.pages q) ((t.updPage p f).pages q) := by
    intro q
    rw [updPage_pages]
    split
    · rename_i hq
      rw [hq]
      exact hf
    · exact .refl _
  have hchain : ∀ q, (t.updPage p f).chainOf hash q = t.chainOf hash q := by
    intro q
    rw [chainOf, chainOf, (hsame q).cache, (hsame q).offset]
  have hreg : ∀ q, (t.updPage p f).Registered hash q ↔ t.Registered hash q := fun q =>
    registered_updPage_of_place hf.cache hf.offset
  generalize t.updPage p f = t', updPage_sets t p f = hsets, updPage_hashTable t p f = hhash,
    updPage_setCount t p f = hcount at *
  refine ⟨h.hand_sub, h.hand_nodup, fun q hq => ?_, fun q hq hn => ?_, fun q hq hn hpos => ?_,
    fun q hq hn hzero => ?_, fun q hq hn hc => ?_, fun n q hq => ?_, fun n => ?_, fun n => ?_,
    fun n q hq => ?_, fun n => ?_, fun n => ?_, fun c q hq => ?_, fun c => ?_,
    fun q r hq hr hc ho => ?_, fun n hn => ?_, fun n hn m hm => ?_⟩
  · rw [hsets, (hsame q).pageSet]
    exact h.set_alive q hq
  · rw [(hsame q).ref]
    exact h.ref_nonneg q hq hn
  · rw [(hsame q).ref] at hpos
    rw [hreg, (hsame q).free]
    exact h.held q hq hn hpos
  · rw [(hsame q).ref] at hzero
    rw [hsets, (hsame q).pageSet]
    exact h.idle q hq hn hzero
  · rw [(hsame q).changed] at hc
    rw [(hsame q).ref]
    exact h.changed q hq hn hc
  · rw [hsets] at hq
    rw [(hsame q).pageSet, (hsame q).ref, (hsame q).cache]
    exact h.free_page n q hq
  · rw [hsets]
    exact h.free_nodup n
  · rw [hsets]
    exact h.free_count n
  · rw [hsets] at hq
    rw [(hsame q).pageSet, (hsame q).ref, hreg]
    exact h.standby_page n q hq
  · rw [hsets]
    exact h.standby_nodup n
  · rw [hsets]
    exact h.standby_count n
  · rw [hhash] at hq
    rw [hchain, (hsame q).cache, (hsame q).free]
    exact h.chain_page c q hq
  · rw [hhash]
    exact h.chain_nodup c
  · rw [hreg] at hq hr
    rw [(hsame q).cache, (hsame r).cache] at hc
    rw [(hsame q).offset, (hsame r).offset] at ho
    exact h.unique q r hq hr hc ho
  · rw [hsets] at hn
    rw [hcount]
    exact h.alive_lt n hn
  · rw [hsets] at hn hm ⊢
    exact h.parent_alive n hn m hm

/-! ### Effects on pages -/

@[simp] theorem release_hashTable (t : PageTable) (p : Nat) :
    (t.release p).hashTable = t.hashTable := by
  simp only [release]
  split
  · split <;> rfl
  · rfl

theorem release_alive (t : PageTable) (p m : Nat) :
    ((t.release p).sets m).alive = (t.sets m).alive ∧
      ((t.release p).sets m).parent = (t.sets m).parent := by
  simp only [release]
  split
  · split
    · by_cases hm : m = (t.pages p).pageSet <;> simp [free, hm]
    · by_cases hm : m = (t.pages p).pageSet <;> simp [standby, hm]
  · exact ⟨rfl, rfl⟩

/-- A page without the free flag keeps everything but its count. -/
theorem release_pages (hfree : (t.pages p).free = false) (q : Nat) :
    (t.release p).pages q =
      if q = p then { t.pages p with ref := (t.pages p).ref - 1 } else t.pages q := by
  simp only [release]
  split
  · rw [if_neg (by simp [hfree])]
    simp [standby]
  · simp

/-- The first reference to a page takes it off the standby list. -/
def hold (t : PageTable) (p : Nat) : PageTable :=
  let t := t.addRef p
  if (t.pages p).ref = 1 then t.use (t.pages p).pageSet p else t

theorem hold_pages (t : PageTable) (p q : Nat) :
    (t.hold p).pages q =
      if q = p then { t.pages p with ref := (t.pages p).ref + 1 } else t.pages q := by
  simp only [hold]
  split <;> simp [addRef, use]

theorem hold_hashTable (t : PageTable) (p : Nat) : (t.hold p).hashTable = t.hashTable := by
  simp only [hold]
  split <;> rfl

theorem registered_hold (t : PageTable) (p q : Nat) :
    (t.hold p).Registered hash q ↔ t.Registered hash q := by
  by_cases hq : q = p
  · subst hq
    simp [Registered, chainOf, hold_pages, hold_hashTable]
  · simp [Registered, chainOf, hold_pages, hold_hashTable, hq]

namespace PageInv

variable {managed hand : List Nat}

theorem hold (h : t.PageInv hash managed hand) (hreg : t.Registered hash p) (hn : p ∉ hand) :
    (t.hold p).PageInv hash managed hand := by
  have hp := h.mem_of_registered hreg
  have hnonneg := h.ref_nonneg p hp hn
  simp only [PageTable.hold]
  split
  · rename_i hone
    have hzero : (t.pages p).ref = 0 := by
      simp only [PageTable.addRef, updPage_pages, if_pos] at hone
      omega
    have hset : ((t.addRef p).pages p).pageSet = (t.pages p).pageSet := by
      simp [PageTable.addRef]
    rw [hset]
    have htaken := h.use (h.standby_of_registered hreg hn hzero)
    have hup := htaken.updPage List.mem_cons_self
      (fun page => { page with ref := page.ref + 1 }) (htaken.set_alive p hp)
      fun _ => ⟨rfl, rfl, rfl⟩
    refine PageInv.close_held (t := (t.addRef p).use (t.pages p).pageSet p) hup ?_ (.inl ?_)
    · simp [PageTable.addRef, PageTable.use, hzero]
    · exact (registered_addRef t p p).mpr hreg
  · rename_i hone
    refine h.addRef hp hn ?_
    simp only [PageTable.addRef, updPage_pages, if_pos] at hone
    omega

end PageInv

/-- What the operations on references leave alone: all of a page but its count, and its place in
    the page table. -/
structure SameContent (t t' : PageTable) : Prop where
  content : ∀ q, (t'.pages q).content = (t.pages q).content
  hashTable : t'.hashTable = t.hashTable

namespace SameContent

variable {t' t'' : PageTable}

theorem refl (t : PageTable) : t.SameContent t :=
  ⟨fun _ => rfl, rfl⟩

theorem trans (h : t.SameContent t') (h' : t'.SameContent t'') : t.SameContent t'' :=
  ⟨fun q => (h'.content q).trans (h.content q), h'.hashTable.trans h.hashTable⟩

theorem cache (h : t.SameContent t') (q : Nat) : (t'.pages q).cache = (t.pages q).cache :=
  Page.content_cache (h.content q)

theorem offset (h : t.SameContent t') (q : Nat) : (t'.pages q).offset = (t.pages q).offset :=
  Page.content_offset (h.content q)

theorem changed (h : t.SameContent t') (q : Nat) : (t'.pages q).changed = (t.pages q).changed :=
  Page.content_changed (h.content q)

theorem free (h : t.SameContent t') (q : Nat) : (t'.pages q).free = (t.pages q).free :=
  Page.content_free (h.content q)

theorem registered (h : t.SameContent t') (q : Nat) :
    t'.Registered hash q ↔ t.Registered hash q := by
  simp only [Registered, chainOf, h.cache, h.offset, h.hashTable]

end SameContent

theorem sameContent_hold (t : PageTable) (p : Nat) : t.SameContent (t.hold p) := by
  refine ⟨fun q => ?_, hold_hashTable t p⟩
  rw [hold_pages]
  split
  · rename_i hq
    rw [hq]
    rfl
  · rfl

theorem sameContent_addRef (t : PageTable) (p : Nat) : t.SameContent (t.addRef p) := by
  refine ⟨fun q => ?_, rfl⟩
  rw [addRef, updPage_pages]
  split
  · rename_i hq
    rw [hq]
    rfl
  · rfl

theorem sameContent_release (hfree : (t.pages p).free = false) : t.SameContent (t.release p) := by
  refine ⟨fun q => ?_, release_hashTable t p⟩
  rw [release_pages hfree]
  split
  · rename_i hq
    rw [hq]
    rfl
  · rfl

theorem hold_parent (t : PageTable) (p m : Nat) :
    ((t.hold p).sets m).parent = (t.sets m).parent := by
  simp only [hold]
  split
  · simp only [use, updSet_sets]
    split
    · rename_i hm
      rw [hm]
      rfl
    · rfl
  · rfl

theorem lookup_parent (hash : HashCode) (t : PageTable) (cache m : Nat) (offset : Int) :
    ((t.lookup hash cache offset).1.sets m).parent = (t.sets m).parent := by
  simp only [lookup]
  generalize t.hashTable (hash (some cache) (pageTrunc offset)) = chain
  induction chain generalizing t with
  | nil => rfl
  | cons p chain ih =>
    have hloop : lookupLoop cache (pageTrunc offset) (p :: chain) t =
        if ((t.hold p).pages p).cache = some cache ∧
          ((t.hold p).pages p).offset = pageTrunc offset then (t.hold p, some p)
        else lookupLoop cache (pageTrunc offset) chain ((t.hold p).release p) := rfl
    rw [hloop]
    split
    · exact hold_parent t p m
    · rw [ih, (release_alive _ p m).2, hold_parent]

/-- The loop of a lookup. -/
theorem lookupLoop_spec {managed hand chain : List Nat} {cache : Nat} {offset : Int}
    (h : t.PageInv hash managed hand) (hchain : ∀ q ∈ chain, t.Registered hash q)
    (hhand : ∀ q ∈ chain, q ∉ hand) :
    (lookupLoop cache offset chain t).1.PageInv hash managed hand ∧
    t.SameContent (lookupLoop cache offset chain t).1 ∧
    (∀ q, ((lookupLoop cache offset chain t).1.pages q).ref =
      (t.pages q).ref + if (lookupLoop cache offset chain t).2 = some q then 1 else 0) ∧
    match (lookupLoop cache offset chain t).2 with
    | some p => p ∈ chain ∧ (t.pages p).cache = some cache ∧ (t.pages p).offset = offset
    | none => ∀ q ∈ chain, ¬((t.pages q).cache = some cache ∧ (t.pages q).offset = offset) := by
  induction chain generalizing t with
  | nil => exact ⟨h, .refl t, fun q => by simp [lookupLoop], by simp [lookupLoop]⟩
  | cons p chain ih =>
    have hreg := hchain p List.mem_cons_self
    have hn := hhand p List.mem_cons_self
    have hheld := h.hold hreg hn
    have hsame := sameContent_hold t p
    have hp := h.mem_of_registered hreg
    have hloop : lookupLoop cache offset (p :: chain) t =
        if (t.pages p).cache = some cache ∧ (t.pages p).offset = offset then (t.hold p, some p)
        else lookupLoop cache offset chain ((t.hold p).release p) := by
      rw [← hsame.cache p, ← hsame.offset p]
      rfl
    rw [hloop]
    split
    · rename_i hfound
      refine ⟨hheld, hsame, fun q => ?_, List.mem_cons_self, hfound⟩
      rw [hold_pages]
      by_cases hq : q = p
      · simp [hq]
      · simp [hq, Ne.symm hq]
    · rename_i hother
      have href : ((t.hold p).pages p).ref = (t.pages p).ref + 1 := by simp [hold_pages]
      have hnonneg := h.ref_nonneg p hp hn
      have hfree : ((t.hold p).pages p).free = false := by
        rw [hsame.free]
        exact h.free_of_registered hreg
      have hback := sameContent_release hfree
      have hinv := hheld.release hp hn (by omega) fun hc => by
        have := h.changed p hp hn ((hsame.changed p).symm.trans hc)
        omega
      have hboth := hsame.trans hback
      obtain ⟨hinv', hsame', href', hfound⟩ := ih hinv
        (fun q hq => (hboth.registered q).mpr (hchain q (List.mem_cons_of_mem _ hq)))
        fun q hq => hhand q (List.mem_cons_of_mem _ hq)
      refine ⟨hinv', hboth.trans hsame', fun q => ?_, ?_⟩
      · rw [href', release_pages hfree, hold_pages]
        split
        · rename_i hq
          simp only [if_pos, hq]
          omega
        · rename_i hq
          rw [hold_pages, if_neg hq]
      · simp only [hboth.cache, hboth.offset] at hfound
        generalize (lookupLoop cache offset chain ((t.hold p).release p)).2 = r at hfound ⊢
        cases r with
        | none => exact List.forall_mem_cons.mpr ⟨hother, hfound⟩
        | some r => exact ⟨List.mem_cons_of_mem _ hfound.1, hfound.2⟩

/-- A lookup finds the page of a place, with one more reference, when there is one. -/
theorem lookup_spec {managed : List Nat} (h : t.PageInv hash managed []) (cache : Nat)
    (offset : Int) :
    (t.lookup hash cache offset).1.PageInv hash managed [] ∧
    t.SameContent (t.lookup hash cache offset).1 ∧
    (∀ q, ((t.lookup hash cache offset).1.pages q).ref =
      (t.pages q).ref + if (t.lookup hash cache offset).2 = some q then 1 else 0) ∧
    match (t.lookup hash cache offset).2 with
    | some p => t.Registered hash p ∧ (t.pages p).cache = some cache ∧
        (t.pages p).offset = pageTrunc offset
    | none => ∀ q, t.Registered hash q →
        ¬((t.pages q).cache = some cache ∧ (t.pages q).offset = pageTrunc offset) := by
  have hchain : ∀ q ∈ t.hashTable (hash (some cache) (pageTrunc offset)), t.Registered hash q :=
    fun q hq => h.registered_of_mem hq
  obtain ⟨hinv, hsame, href, hfound⟩ :=
    lookupLoop_spec h hchain (by simp)
  refine ⟨hinv, hsame, href, ?_⟩
  simp only [lookup]
  generalize (lookupLoop cache (pageTrunc offset)
    (t.hashTable (hash (some cache) (pageTrunc offset))) t).2 = r at hfound ⊢
  cases r with
  | some p => exact ⟨hchain p hfound.1, hfound.2⟩
  | none =>
    intro q hq hplace
    refine hfound q ?_ hplace
    rw [Registered, chainOf, hplace.1, hplace.2] at hq
    exact hq

/-! ### Pages for a cache -/

/-- A page taken off a list of a set, with its only reference and without a place. -/
structure Taken (hash : HashCode) (t t' : PageTable) (p : Nat) : Prop where
  zero : (t.pages p).ref = 0
  page : t'.pages p = { t.pages p with ref := 1, cache := none }
  other : ∀ q, q ≠ p → t'.pages q = t.pages q
  registered : ∀ q, t'.Registered hash q ↔ t.Registered hash q ∧ q ≠ p
  sets : ∀ m, (t'.sets m).alive = (t.sets m).alive ∧ (t'.sets m).parent = (t.sets m).parent

/-- A page taken off a list and entered into the page table for a place. -/
structure Obtained (hash : HashCode) (cache : Nat) (offset : Int) (t t' : PageTable) (p : Nat) :
    Prop where
  zero : (t.pages p).ref = 0
  page : t'.pages p = { t.pages p with
    ref := 1, cache := some cache, offset := offset, changed := false, free := false
    filled := false }
  other : ∀ q, q ≠ p → t'.pages q = t.pages q
  registered : ∀ q, t'.Registered hash q ↔ t.Registered hash q ∨ q = p
  sets : ∀ m, (t'.sets m).alive = (t.sets m).alive ∧ (t'.sets m).parent = (t.sets m).parent

namespace PageInv

variable {managed hand : List Nat} {t' : PageTable}

theorem allocFrom (h : t.PageInv hash managed hand) (ha : t.allocFrom n = (t', some p)) :
    t'.PageInv hash managed (p :: hand) ∧ t.Taken hash t' p := by
  simp only [PageTable.allocFrom] at ha
  split at ha
  · simp at ha
  · rename_i p' rest hlist
    simp only [Prod.mk.injEq, Option.some.injEq] at ha
    obtain ⟨rfl, rfl⟩ := ha
    obtain ⟨hp, -, -, hzero, hcache⟩ := h.free_page n p' (by rw [hlist]; exact List.mem_cons_self)
    have htaken := h.take_free hlist
    have hreg : ¬t.Registered hash p' := h.not_registered_of_cache hcache
    refine ⟨htaken.updPage List.mem_cons_self _ (htaken.set_alive p' hp)
      fun _ => ⟨rfl, rfl, rfl⟩, hzero, ?_, fun q hq => by simp [hq], fun q => ?_,
      fun m => by by_cases hm : m = n <;> simp [hm]⟩
    · simp only [updPage_pages, if_pos, updSet_pages]
      simp [hzero, ← hcache]
    · by_cases hq : q = p'
      · subst hq
        simpa [Registered, chainOf] using hreg
      · rw [registered_updPage hq]
        exact ⟨fun hr => ⟨hr, hq⟩, fun hr => hr.1⟩

theorem allocFrom_none (ha : t.allocFrom n = (t', none)) : t' = t ∧ (t.sets n).freeList = [] := by
  simp only [PageTable.allocFrom] at ha
  split at ha
  · rename_i hlist
    cases ha
    exact ⟨rfl, hlist⟩
  · simp at ha

theorem stealPage_standby (h : t.PageInv hash managed hand)
    (hmem : p ∈ (t.sets n).standbyList) :
    t.stealPage hash p = ((t.addRef p).remove hash p, true) := by
  simp [stealPage, PageTable.addRef, (h.standby_page n p hmem).2.2.2.1]

theorem stealFrom_none (h : t.PageInv hash managed hand) (ha : t.stealFrom hash n = (t', none)) :
    t' = t ∧ (t.sets n).standbyList = [] := by
  simp only [PageTable.stealFrom] at ha
  cases hlist : (t.sets n).standbyList with
  | nil =>
    rw [hlist] at ha
    cases ha
    exact ⟨rfl, rfl⟩
  | cons p rest =>
    rw [hlist] at ha
    simp [stealLoop, h.stealPage_standby (n := n) (p := p) (by rw [hlist]; simp)] at ha

/-- `PageSet::steal` takes the first page on standby, since none of them has a reference. -/
theorem stealFrom (h : t.PageInv hash managed hand) (ha : t.stealFrom hash n = (t', some p)) :
    t'.PageInv hash managed (p :: hand) ∧ t.Taken hash t' p := by
  simp only [PageTable.stealFrom] at ha
  cases hlist : (t.sets n).standbyList with
  | nil => simp [hlist, stealLoop] at ha
  | cons p' rest =>
    have hmem : p' ∈ (t.sets n).standbyList := by rw [hlist]; exact List.mem_cons_self
    obtain ⟨hp, -, -, hzero, hreg⟩ := h.standby_page n p' hmem
    have hstolen := h.stealPage_standby hmem
    rw [hlist] at ha
    simp only [stealLoop, hstolen, Prod.mk.injEq, Option.some.injEq] at ha
    obtain ⟨rfl, rfl⟩ := ha
    have hused := h.use hmem
    have hup := hused.updPage List.mem_cons_self
      (fun page => { page with ref := page.ref + 1 }) (hused.set_alive p' hp)
      fun _ => ⟨rfl, rfl, rfl⟩
    obtain ⟨hremoved, hout⟩ := hup.remove List.mem_cons_self
    refine ⟨hremoved.updPage List.mem_cons_self (fun page => { page with cache := none })
      (hremoved.set_alive p' hp) fun hr => absurd hr hout, hzero, ?_, fun q hq => ?_,
      fun q => ?_, fun m => by
        by_cases hm : m = n <;> simp [hm, PageTable.use, PageTable.remove, PageTable.addRef]⟩
    · simp only [updPage_pages, if_pos]
      simp [PageTable.use, PageTable.remove, PageTable.addRef, hzero]
    · simp [hq, PageTable.use, PageTable.remove, PageTable.addRef]
    · by_cases hq : q = p'
      · subst hq
        simp only [ne_eq, not_true_eq_false, and_false, iff_false]
        intro hr
        exact ((hremoved.updPage List.mem_cons_self (fun page => { page with cache := none })
          (hremoved.set_alive q hp) fun hr => absurd hr hout).chain_page _ q hr).2.2.1 (by simp)
      · rw [registered_updPage hq]
        have hrest : ((t.addRef p').remove hash p').Registered hash q ↔ t.Registered hash q := by
          rw [registered_remove hq, registered_addRef]
        exact ⟨fun hr => ⟨hrest.mp hr, hq⟩, fun hr => hrest.mpr hr.1⟩

/-- A page in hand is given to a cache for a vacant place. -/
theorem set {cache : Nat} {offset : Int} {t₁ : PageTable}
    (h : t₁.PageInv hash managed (p :: hand)) (htaken : t.Taken hash t₁ p)
    (hvacant : t.Vacant hash cache offset) :
    (t₁.set hash p cache offset).PageInv hash managed hand ∧
      t.Obtained hash cache offset (t₁.set hash p cache offset) p := by
  have hp := h.hand_sub p List.mem_cons_self
  have hcache : (t₁.pages p).cache = none := by rw [htaken.page]
  have hnot := h.not_registered_of_cache hcache
  have hup := h.updPage List.mem_cons_self (fun page => { page with
      cache := some cache, offset := offset, changed := false, free := false, filled := false })
    (h.set_alive p hp) fun hr => absurd hr hnot
  have hnot' : ¬(t₁.updPage p fun page => { page with
      cache := some cache, offset := offset, changed := false, free := false
      filled := false }).Registered hash p :=
    fun hr => hnot (h.registered_of_mem hr)
  obtain ⟨hadd, hreg⟩ := hup.add List.mem_cons_self (by simp) (by simp) fun q hq hc ho => by
    have hqp : q ≠ p := by
      rintro rfl
      exact hnot' hq
    rw [registered_updPage hqp, htaken.registered] at hq
    simp only [updPage_pages, if_neg hqp, htaken.other q hqp, if_pos] at hc ho
    exact hvacant q hq.1 ⟨hc, ho⟩
  refine ⟨hadd.close_held ?_ (.inl hreg), htaken.zero, ?_, fun q hq => ?_, fun q => ?_,
    fun m => htaken.sets m⟩
  · simp [PageTable.add, htaken.page]
  · simp [PageTable.set, PageTable.add, htaken.page]
  · simp [PageTable.set, PageTable.add, hq, htaken.other q hq]
  · by_cases hq : q = p
    · subst hq
      exact ⟨fun _ => .inr rfl, fun _ => hreg⟩
    · have hrest : (t₁.set hash p cache offset).Registered hash q ↔ t₁.Registered hash q := by
        rw [PageTable.set, registered_add hq, registered_updPage hq]
      rw [hrest, htaken.registered]
      simp [hq]

end PageInv

theorem above_congr {t t' : PageTable} (h : ∀ m, (t'.sets m).parent = (t.sets m).parent) :
    ∀ fuel n, t'.above fuel n = t.above fuel n := by
  intro fuel
  induction fuel with
  | zero => exact fun _ => rfl
  | succ fuel ih =>
    intro n
    simp only [above, h, ih]

namespace PageInv

variable {managed : List Nat} {cache fuel : Nat} {offset : Int}

theorem allocUp (h : t.PageInv hash managed []) (hvacant : t.Vacant hash cache offset) :
    match t.allocUp hash cache offset fuel n with
    | (t', some p) => t'.PageInv hash managed [] ∧ t.Obtained hash cache offset t' p
    | (t', none) => t' = t ∧ ∀ m ∈ t.above fuel n, (t.sets m).freeList = [] := by
  induction fuel generalizing n with
  | zero => exact ⟨rfl, by simp [above]⟩
  | succ fuel ih =>
    simp only [PageTable.allocUp]
    rcases hfrom : t.allocFrom n with ⟨t₁, _ | p⟩
    · obtain ⟨rfl, hlist⟩ := allocFrom_none hfrom
      simp only
      cases hparent : (t₁.sets n).parent with
      | none => simp [above, hparent, hlist]
      | some parent =>
        have hrec := ih (n := parent)
        simp only
        generalize t₁.allocUp hash cache offset fuel parent = r at hrec ⊢
        obtain ⟨t', _ | p⟩ := r
        · simpa [above, hparent, hlist] using hrec
        · exact hrec
    · obtain ⟨hinv, htaken⟩ := h.allocFrom hfrom
      exact hinv.set htaken hvacant

theorem stealUp (h : t.PageInv hash managed []) (hvacant : t.Vacant hash cache offset) :
    match t.stealUp hash cache offset fuel n with
    | (t', some p) => t'.PageInv hash managed [] ∧ t.Obtained hash cache offset t' p
    | (t', none) => t' = t ∧ ∀ m ∈ t.above fuel n, (t.sets m).standbyList = [] := by
  induction fuel generalizing n with
  | zero => exact ⟨rfl, by simp [above]⟩
  | succ fuel ih =>
    simp only [PageTable.stealUp]
    rcases hfrom : t.stealFrom hash n with ⟨t₁, _ | p⟩
    · obtain ⟨rfl, hlist⟩ := h.stealFrom_none hfrom
      simp only
      cases hparent : (t₁.sets n).parent with
      | none => simp [above, hparent, hlist]
      | some parent =>
        have hrec := ih (n := parent)
        simp only
        generalize t₁.stealUp hash cache offset fuel parent = r at hrec ⊢
        obtain ⟨t', _ | p⟩ := r
        · simpa [above, hparent, hlist] using hrec
        · exact hrec
    · obtain ⟨hinv, htaken⟩ := h.stealFrom hfrom
      exact hinv.set htaken hvacant

theorem alloc (h : t.PageInv hash managed [])
    (hvacant : t.Vacant hash cache (pageTrunc offset)) :
    match t.alloc hash n cache offset with
    | (t', some p) =>
        t'.PageInv hash managed [] ∧ t.Obtained hash cache (pageTrunc offset) t' p
    | (t', none) => t' = t ∧ ∀ m ∈ t.above (n + 1) n, (t.sets m).freeList = [] :=
  h.allocUp hvacant

theorem steal (h : t.PageInv hash managed [])
    (hvacant : t.Vacant hash cache (pageTrunc offset)) :
    match t.steal hash n cache offset with
    | (t', some p) =>
        t'.PageInv hash managed [] ∧ t.Obtained hash cache (pageTrunc offset) t' p
    | (t', none) => t' = t ∧ ∀ m ∈ t.above (n + 1) n, (t.sets m).standbyList = [] :=
  h.stealUp hvacant

end PageInv

/-! ### Changed and freed pages -/

theorem release_of_one_lt (href : 1 < (t.pages p).ref) :
    t.release p = t.updPage p fun page => { page with ref := page.ref - 1 } := by
  have hne : ¬((t.updPage p fun page => { page with ref := page.ref - 1 }).pages p).ref = 0 := by
    simp only [updPage_pages, if_pos]
    omega
  simp only [release, if_neg hne]

/-- Cleaning gives up the reference of the list of changed pages. -/
theorem clean_eq (href : (t.pages p).changed = true → 1 < (t.pages p).ref) :
    (t.clean p).1 = if (t.pages p).changed then
      t.updPage p fun page => { page with ref := page.ref - 1, changed := false } else t := by
  simp only [clean]
  split
  · rename_i hc
    rw [release_of_one_lt (by simpa using href hc)]
    simp [updPage]
  · rfl

/-- A page that is not free is marked as changed, and the list of changed pages refers to it. -/
theorem change_eq (hfree : (t.pages p).free = false) :
    t.change p = (t.updPage p fun page => { page with
      ref := page.ref + if page.changed then 0 else 1, changed := true },
      !(t.pages p).changed) := by
  by_cases hc : (t.pages p).changed = true
  · rw [change, if_pos (.inl hc), updPage_eq_self, hc]
    · rfl
    · rw [if_pos hc, Int.add_zero, ← hc]
  · simp [change, hc, hfree, addRef, updPage]

theorem remove_updPage_free (t : PageTable) (p : Nat) :
    (t.updPage p fun page => { page with free := true }).remove hash p =
      (t.remove hash p).updPage p fun page => { page with free := true } := by
  simp [remove, chainOf, updPage]

namespace PageInv

variable {managed hand : List Nat} {t' : PageTable}

theorem clean (h : t.PageInv hash managed hand) (hp : p ∈ managed) (hn : p ∉ hand)
    (href : (t.pages p).changed = true → 1 < (t.pages p).ref) :
    (t.clean p).1.PageInv hash managed hand := by
  rw [clean_eq href]
  split
  · rename_i hc
    have hone := href hc
    refine ((h.open_held hp hn (by omega)).updPage List.mem_cons_self _ (h.set_alive p hp)
      fun _ => ⟨rfl, rfl, rfl⟩).close_held ?_ ?_
    · simp only [updPage_pages, if_pos]
      omega
    · simpa [Registered, chainOf] using h.held p hp hn (by omega)
  · exact h

theorem change (h : t.PageInv hash managed hand) (hp : p ∈ managed) (hn : p ∉ hand)
    (href : 0 < (t.pages p).ref) : (t.change p).1.PageInv hash managed hand := by
  simp only [PageTable.change]
  split
  · exact h
  · have hup := (h.open_held hp hn href).updPage List.mem_cons_self
      (fun page => { page with ref := page.ref + 1 }) (h.set_alive p hp) fun _ => ⟨rfl, rfl, rfl⟩
    refine (hup.updPage List.mem_cons_self (fun page => { page with changed := true })
      (hup.set_alive p hp) fun _ => ⟨rfl, rfl, rfl⟩).close_held ?_ ?_
    · simp only [updPage_pages, if_pos]
      omega
    · simpa [Registered, chainOf] using h.held p hp hn href

/-- `Page::free` by a holder of the page. -/
theorem freePage (h : t.PageInv hash managed hand) (hp : p ∈ managed) (hn : p ∉ hand)
    (href : 0 < (t.pages p).ref) (hchanged : (t.pages p).changed = true → 1 < (t.pages p).ref) :
    (t.freePage hash p).PageInv hash managed hand := by
  simp only [PageTable.freePage]
  rw [remove_updPage_free]
  obtain ⟨hremoved, hout⟩ := (h.open_held hp hn href).remove List.mem_cons_self
  have hpage : (t.remove hash p).pages p = t.pages p := rfl
  have hmarked := (hremoved.updPage List.mem_cons_self (fun page => { page with free := true })
    (hremoved.set_alive p hp) fun hr => absurd hr hout).close_held
      (by simpa [hpage] using href) (.inr (by simp))
  generalize ht₁ : (t.remove hash p).updPage p (fun page => { page with free := true }) = t₁ at *
  have href₁ : (t₁.pages p).ref = (t.pages p).ref := by simp [← ht₁, hpage]
  have hchanged₁ : (t₁.pages p).changed = (t.pages p).changed := by simp [← ht₁, hpage]
  have hone : (t₁.pages p).changed = true → 1 < (t₁.pages p).ref := by
    rw [href₁, hchanged₁]
    exact hchanged
  refine (hmarked.clean hp hn hone).release hp hn ?_ fun hc => ?_
  · rw [clean_eq hone]
    split
    · rename_i hc
      have := hone hc
      simp only [updPage_pages, if_pos]
      omega
    · omega
  · rw [clean_eq hone] at hc
    split at hc
    · simp at hc
    · contradiction

/-! ### Page sets -/

/-- A page in hand is given to the free list of a set. -/
theorem give (h : t.PageInv hash managed (p :: hand)) (halive : (t.sets n).alive = true)
    (href : (t.pages p).ref = 1) (hcache : (t.pages p).cache = none)
    (hchanged : (t.pages p).changed = false) :
    ((t.updPage p fun page => { page with pageSet := n, free := true }).release p).PageInv
      hash managed hand := by
  refine (h.updPage List.mem_cons_self _ halive fun hr =>
    absurd hr (h.not_registered_of_cache hcache)).release_hand ?_ ?_ (.inr (by simp))
  · simp [href]
  · simp [hchanged]

/-- A page without references is not changed. -/
theorem changed_of_zero (h : t.PageInv hash managed hand) (hp : p ∈ managed) (hn : p ∉ hand)
    (hzero : (t.pages p).ref = 0) : (t.pages p).changed = false := by
  by_contra hc
  have := h.changed p hp hn (by simpa using hc)
  omega

theorem reserveOne (h : t.PageInv hash managed []) (halive : (t.sets n).alive = true)
    (parent : Nat) :
    (t.reserveOne hash n parent).PageInv hash managed [] ∧
      ((t.reserveOne hash n parent).sets n).alive = true := by
  have hgive : ∀ {t₁ p}, t₁.PageInv hash managed [p] → t.Taken hash t₁ p →
      ((t₁.updPage p fun page => { page with pageSet := n, free := true }).release p).PageInv
          hash managed [] ∧
        (((t₁.updPage p fun page =>
          { page with pageSet := n, free := true }).release p).sets n).alive = true := by
    intro t₁ p hinv htaken
    have hp := hinv.hand_sub p List.mem_cons_self
    have halive₁ : (t₁.sets n).alive = true := by
      rw [(htaken.sets n).1]
      exact halive
    refine ⟨hinv.give halive₁ (by rw [htaken.page]) (by rw [htaken.page]) ?_, ?_⟩
    · rw [htaken.page]
      exact h.changed_of_zero hp (by simp) htaken.zero
    · rw [(release_alive _ p n).1]
      exact halive₁
  simp only [PageTable.reserveOne]
  rcases hfree : t.allocFrom parent with ⟨t₁, _ | p⟩
  · obtain ⟨rfl, -⟩ := allocFrom_none hfree
    simp only
    rcases hstandby : t₁.stealFrom hash parent with ⟨t₂, _ | p⟩
    · obtain ⟨rfl, -⟩ := h.stealFrom_none hstandby
      exact ⟨h, halive⟩
    · obtain ⟨hinv, htaken⟩ := h.stealFrom hstandby
      exact hgive hinv htaken
  · obtain ⟨hinv, htaken⟩ := h.allocFrom hfree
    exact hgive hinv htaken

theorem reserve (h : t.PageInv hash managed []) (halive : (t.sets n).alive = true)
    (count : Nat) :
    (t.reserve hash n count).PageInv hash managed [] := by
  simp only [PageTable.reserve]
  split
  · exact h
  · rename_i parent _
    have hloop : ∀ (turns : List Nat) (t : PageTable), t.PageInv hash managed [] →
        (t.sets n).alive = true →
        (turns.foldl (fun t _ => t.reserveOne hash n parent) t).PageInv hash managed [] := by
      intro turns
      induction turns with
      | nil => exact fun t ht _ => ht
      | cons _ turns ih =>
        intro t ht ha
        obtain ⟨ht', ha'⟩ := ht.reserveOne ha parent
        exact ih _ ht' ha'
    exact hloop _ t h halive

/-- A set that does not exist has empty lists. -/
theorem lists_of_dead (h : t.PageInv hash managed hand) (hdead : (t.sets n).alive = false) :
    (t.sets n).freeList = [] ∧ (t.sets n).standbyList = [] := by
  constructor <;> rw [List.eq_nil_iff_forall_not_mem] <;> intro p hp
  · obtain ⟨hm, -, hset, -⟩ := h.free_page n p hp
    have := h.set_alive p hm
    rw [hset, hdead] at this
    cases this
  · obtain ⟨hm, -, hset, -⟩ := h.standby_page n p hp
    have := h.set_alive p hm
    rw [hset, hdead] at this
    cases this

theorem fork (h : t.PageInv hash managed []) (halive : (t.sets n).alive = true) :
    (t.fork n).PageInv hash managed [] := by
  have hlt := h.alive_lt n halive
  have hdead : (t.sets t.setCount).alive = false := by
    by_contra ha
    have := h.alive_lt t.setCount (by simpa using ha)
    omega
  have hpage : ∀ p ∈ managed, (t.pages p).pageSet ≠ t.setCount := by
    intro p hp hset
    have := h.set_alive p hp
    rw [hset, hdead] at this
    cases this
  have hsets : ∀ m, (t.fork n).sets m =
      if m = t.setCount then ⟨true, some n, [], [], 0, 0⟩ else t.sets m := by
    intro m
    simp [PageTable.fork]
  refine ⟨h.hand_sub, h.hand_nodup, fun p hp => ?_, h.ref_nonneg, h.held, fun p hp hn hz => ?_,
    h.changed, fun m p hp => ?_, fun m => ?_, fun m => ?_, fun m p hp => ?_, fun m => ?_,
    fun m => ?_, h.chain_page, h.chain_nodup, h.unique, fun m hm => ?_, fun m hm k hk => ?_⟩
  · rw [hsets]
    split
    · rfl
    · exact h.set_alive p hp
  · have hset : ((t.fork n).pages p).pageSet = (t.pages p).pageSet := rfl
    rw [hset, hsets, if_neg (hpage p hp)]
    exact h.idle p hp hn hz
  · rw [hsets] at hp
    split at hp
    · cases hp
    · exact h.free_page m p hp
  · rw [hsets]
    split
    · exact List.nodup_nil
    · exact h.free_nodup m
  · rw [hsets]
    split
    · rfl
    · exact h.free_count m
  · rw [hsets] at hp
    split at hp
    · cases hp
    · exact h.standby_page m p hp
  · rw [hsets]
    split
    · exact List.nodup_nil
    · exact h.standby_nodup m
  · rw [hsets]
    split
    · rfl
    · exact h.standby_count m
  · show m < t.setCount + 1
    rw [hsets] at hm
    split at hm
    · omega
    · have := h.alive_lt m hm
      omega
  · rw [hsets] at hm hk
    rw [hsets]
    split at hm
    · rename_i hmc
      rw [if_pos hmc] at hk
      cases hk
      rw [if_neg (by omega)]
      exact ⟨by omega, halive⟩
    · rename_i hmc
      rw [if_neg hmc] at hk
      obtain ⟨hkm, hka⟩ := h.parent_alive m hm k hk
      have := h.alive_lt m hm
      rw [if_neg (by omega)]
      exact ⟨hkm, hka⟩

end PageInv

/-- A set without free pages leaves nothing behind. -/
theorem PageInv.destroy {managed : List Nat} (h : t.PageInv hash managed [])
    (hunused : t.Unused managed n) (hfree : (t.sets n).freeList = []) :
    (t.destroy n).PageInv hash managed [] := by
  simp only [PageTable.destroy]
  split
  · exact h
  have hcount : (t.sets n).freeCount.toNat = 0 := by
    rw [h.free_count, hfree]
    rfl
  have hpage : ∀ p ∈ managed, (t.pages p).pageSet ≠ n := by
    intro p hp hset
    have := h.idle p hp (by simp) (hunused.ref p hp hset)
    rw [hset, hfree, hunused.standby] at this
    simp at this
  have hsets : ∀ m, (t.updSet n fun set => { set with alive := false }).sets m =
      if m = n then { t.sets n with alive := false } else t.sets m := fun m => updSet_sets t n _
  have hlists : ∀ m, ((t.updSet n fun set => { set with alive := false }).sets m).freeList =
      (t.sets m).freeList ∧
      ((t.updSet n fun set => { set with alive := false }).sets m).standbyList =
        (t.sets m).standbyList ∧
      ((t.updSet n fun set => { set with alive := false }).sets m).freeCount =
        (t.sets m).freeCount ∧
      ((t.updSet n fun set => { set with alive := false }).sets m).standbyCount =
        (t.sets m).standbyCount ∧
      ((t.updSet n fun set => { set with alive := false }).sets m).parent =
        (t.sets m).parent := by
    intro m
    rw [hsets]
    split
    · rename_i hm
      rw [hm]
      exact ⟨rfl, rfl, rfl, rfl, rfl⟩
    · exact ⟨rfl, rfl, rfl, rfl, rfl⟩
  rw [hcount]
  refine ⟨h.hand_sub, h.hand_nodup, fun p hp => ?_, h.ref_nonneg, h.held, fun p hp hn hz => ?_,
    h.changed, fun m p hp => ?_, fun m => ?_, fun m => ?_, fun m p hp => ?_, fun m => ?_,
    fun m => ?_, h.chain_page, h.chain_nodup, h.unique, fun m hm => ?_, fun m hm k hk => ?_⟩
  · show ((t.updSet n _).sets (t.pages p).pageSet).alive = true
    rw [hsets, if_neg (hpage p hp)]
    exact h.set_alive p hp
  · exact (h.idle p hp hn hz).imp (fun hm => (hlists _).1 ▸ hm) fun hm => (hlists _).2.1 ▸ hm
  · exact h.free_page m p ((hlists m).1 ▸ hp)
  · exact (hlists m).1 ▸ h.free_nodup m
  · exact (hlists m).2.2.1.trans ((h.free_count m).trans (by rw [← (hlists m).1]; rfl))
  · exact h.standby_page m p ((hlists m).2.1 ▸ hp)
  · exact (hlists m).2.1 ▸ h.standby_nodup m
  · exact (hlists m).2.2.2.1.trans ((h.standby_count m).trans (by rw [← (hlists m).2.1]; rfl))
  · have hm' : ((t.updSet n fun set => { set with alive := false }).sets m).alive = true := hm
    rw [hsets] at hm'
    split at hm'
    · cases hm'
    · exact h.alive_lt m hm'
  · have hm' : ((t.updSet n fun set => { set with alive := false }).sets m).alive = true := hm
    have hk' : (t.sets m).parent = some k := (hlists m).2.2.2.2.symm.trans hk
    rw [hsets] at hm'
    split at hm'
    · cases hm'
    · obtain ⟨hkm, hka⟩ := h.parent_alive m hm' k hk'
      have hkn : k ≠ n := fun hkn => hunused.child m hm' (hkn ▸ hk')
      refine ⟨hkm, ?_⟩
      show ((t.updSet n _).sets k).alive = true
      rw [hsets, if_neg hkn]
      exact hka

end PageTable

end EsOs.Kernel
