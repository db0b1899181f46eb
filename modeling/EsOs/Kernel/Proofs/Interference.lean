import EsOs.Kernel.Cache
import EsOs.Kernel.Proofs.PageOwnership

/-!
# What others leave to a cache

The pages of a cache are shared with nobody, but the page sets may take those on standby away. All
that others do keeps the changed pages of a cache, and what its other pages hold as long as they
stay in the page table.
-/

namespace EsOs.Kernel

/-- A page as a cache has just been given it. -/
def Page.Fresh (page : Page) : Prop :=
  page.filled = false ∧ page.changed = false ∧ pageTrunc page.offset = page.offset

namespace PageTable

variable {hash : HashCode} {managed : List Nat} {cache p : Nat} {t t' t'' : PageTable}

/-- The pages of a cache behind a change of the table: the changed ones stay, and each page is as
    before or fresh. -/
structure Keeps (hash : HashCode) (cache : Nat) (t t' : PageTable) : Prop where
  old : ∀ q, t'.Registered hash q → (t'.pages q).cache = some cache →
    t.Registered hash q ∧ (t'.pages q).content = (t.pages q).content ∨ (t'.pages q).Fresh
  changed : ∀ q, t.Registered hash q → (t.pages q).cache = some cache →
    (t.pages q).changed = true →
    t'.Registered hash q ∧ (t'.pages q).content = (t.pages q).content
  map_lt : (∀ q, (t.pages q).map < 2 ^ 8) → ∀ q, (t'.pages q).map < 2 ^ 8

namespace Keeps

theorem refl (t : PageTable) : t.Keeps hash cache t :=
  ⟨fun _ hq _ => .inl ⟨hq, rfl⟩, fun _ hq _ _ => ⟨hq, rfl⟩, fun h => h⟩

theorem trans (h : t.Keeps hash cache t') (h' : t'.Keeps hash cache t'') :
    t.Keeps hash cache t'' := by
  refine ⟨fun q hq hc => ?_, fun q hq hc hchanged => ?_, fun hmap => h'.map_lt (h.map_lt hmap)⟩
  · rcases h'.old q hq hc with ⟨hreg, hcontent⟩ | hfresh
    · have hcache : (t'.pages q).cache = (t''.pages q).cache := (Page.content_cache hcontent).symm
      rcases h.old q hreg (hcache.trans hc) with ⟨hreg', hcontent'⟩ | hfresh
      · exact .inl ⟨hreg', hcontent.trans hcontent'⟩
      · right
        have : (t'.pages q).content.Fresh := hfresh
        rw [← hcontent] at this
        exact this
    · exact .inr hfresh
  · obtain ⟨hreg, hcontent⟩ := h.changed q hq hc hchanged
    have hcache : (t'.pages q).cache = (t.pages q).cache := Page.content_cache hcontent
    have hchanged' : (t'.pages q).changed = (t.pages q).changed := Page.content_changed hcontent
    obtain ⟨hreg', hcontent'⟩ := h'.changed q hreg (hcache.trans hc) (hchanged'.trans hchanged)
    exact ⟨hreg', hcontent'.trans hcontent⟩

theorem of_same (h : t.SameContent t') : t.Keeps hash cache t' := by
  refine ⟨fun q hq _ => .inl ⟨(h.registered q).1 hq, h.content q⟩,
    fun q hq _ _ => ⟨(h.registered q).2 hq, h.content q⟩, fun hmap q => ?_⟩
  have heq : (t'.pages q).map = (t.pages q).map := Page.content_map (h.content q)
  rw [heq]
  exact hmap q

/-- A change to one page that is no changed page of the cache, and does not become a page of it but
    a fresh one. -/
theorem of_other (hpages : ∀ q, q ≠ p → t'.pages q = t.pages q)
    (hreg : ∀ q, q ≠ p → (t'.Registered hash q ↔ t.Registered hash q))
    (hmap : (t.pages p).map < 2 ^ 8 → (t'.pages p).map < 2 ^ 8)
    (hbefore : t.Registered hash p → (t.pages p).cache = some cache → (t.pages p).changed = false)
    (hafter : t'.Registered hash p → (t'.pages p).cache = some cache → (t'.pages p).Fresh) :
    t.Keeps hash cache t' := by
  refine ⟨fun q hq hc => ?_, fun q hq hc hchanged => ?_, fun hlt q => ?_⟩
  · by_cases hqp : q = p
    · subst hqp
      exact .inr (hafter hq hc)
    · exact .inl ⟨(hreg q hqp).1 hq, by rw [hpages q hqp]⟩
  · have hqp : q ≠ p := by
      rintro rfl
      rw [hbefore hq hc] at hchanged
      cases hchanged
    exact ⟨(hreg q hqp).2 hq, by rw [hpages q hqp]⟩
  · by_cases hqp : q = p
    · rw [hqp]
      exact hmap (hlt p)
    · rw [hpages q hqp]
      exact hlt q

theorem of_obtained {offset : Int} {n : Nat} (h : t.PageInv hash managed [])
    (h' : t'.PageInv hash managed []) (hget : t.Obtained hash n (pageTrunc offset) t' p) :
    t.Keeps hash cache t' := by
  have hp := h'.mem_of_registered ((hget.registered p).2 (.inr rfl))
  refine of_other (p := p) hget.other (fun q hq => ?_) (by rw [hget.page]; exact id)
    (fun _ _ => h.changed_of_zero hp (by simp) hget.zero) fun _ _ => ?_
  · rw [hget.registered]
    simp [hq]
  · rw [hget.page]
    exact ⟨rfl, rfl, pageTrunc_idem offset⟩

end Keeps

/-! ### Operations of others -/

theorem release_pages_of_ne {q : Nat} (hq : q ≠ p) : (t.release p).pages q = t.pages q := by
  simp only [release]
  split
  · split <;> simp [PageTable.free, standby, hq]
  · simp [hq]

theorem registered_release_of_ne {q : Nat} (hq : q ≠ p) :
    (t.release p).Registered hash q ↔ t.Registered hash q := by
  rw [Registered, Registered, chainOf, chainOf, release_pages_of_ne hq, release_hashTable]

theorem release_map (t : PageTable) (p : Nat) :
    ((t.release p).pages p).map = (t.pages p).map := by
  simp only [release]
  split
  · split <;> simp [PageTable.free, standby]
  · simp

theorem release_cache (t : PageTable) (p : Nat) :
    ((t.release p).pages p).cache = (t.pages p).cache ∨ ((t.release p).pages p).cache = none := by
  simp only [release]
  split
  · split <;> simp [PageTable.free, standby]
  · simp

/-- A page that is free is not entered into the page table by its release. -/
theorem not_registered_release (hfree : (t.pages p).free = true)
    (h' : (t.release p).PageInv hash managed []) : ¬(t.release p).Registered hash p := by
  intro hreg
  have hkept := h'.free_of_registered hreg
  have hcache := (h'.chain_page _ p hreg).2.2.1
  simp only [release] at hkept hcache
  split at hkept
  · rename_i hzero
    rw [if_pos hzero] at hcache
    simp [PageTable.free, hfree] at hcache
  · simp [hfree] at hkept

/-- A release by others. -/
theorem keeps_release (h : t.PageInv hash managed []) (h' : (t.release p).PageInv hash managed []) :
    t.Keeps hash cache (t.release p) := by
  by_cases hfree : (t.pages p).free = true
  · have hnot : ¬t.Registered hash p := fun hreg => by
      rw [h.free_of_registered hreg] at hfree
      cases hfree
    have hnot' := not_registered_release hfree h'
    exact .of_other (fun _ => release_pages_of_ne) (fun _ => registered_release_of_ne)
      (by rw [release_map]; exact id) (fun hreg => absurd hreg hnot) fun hreg => absurd hreg hnot'
  · exact .of_same (sameContent_release (by simpa using hfree))

theorem keeps_clean (hforeign : (t.pages p).cache ≠ some cache)
    (href : (t.pages p).changed = true → 1 < (t.pages p).ref) :
    t.Keeps hash cache (t.clean p).1 := by
  rw [clean_eq href]
  split
  · refine .of_other (p := p) (fun q hq => by simp [hq]) (fun q hq => registered_updPage hq)
      (by simp) (fun _ hc => absurd hc hforeign) fun _ hc => absurd hc ?_
    simpa using hforeign
  · exact .refl t

theorem keeps_change (hforeign : (t.pages p).cache ≠ some cache) :
    t.Keeps hash cache (t.change p).1 := by
  simp only [change]
  split
  · exact .refl t
  · refine .of_other (p := p) (fun q hq => by simp [PageTable.addRef, hq]) (fun q hq => ?_)
      (by simp [PageTable.addRef]) (fun _ hc => absurd hc hforeign) fun _ hc => absurd hc ?_
    · rw [registered_updPage hq, PageInv.registered_addRef]
    · simpa [PageTable.addRef] using hforeign

/-- A page that is freed leaves the page table, and no other page is touched. -/
structure Freed (hash : HashCode) (t t' : PageTable) (p : Nat) : Prop where
  other : ∀ q, q ≠ p → t'.pages q = t.pages q
  registered : ∀ q, t'.Registered hash q ↔ t.Registered hash q ∧ q ≠ p
  map : (t'.pages p).map = (t.pages p).map

theorem freePage_spec (href : (t.pages p).changed = true → 1 < (t.pages p).ref)
    (h' : (t.freePage hash p).PageInv hash managed []) :
    t.Freed hash (t.freePage hash p) p := by
  simp only [freePage] at h' ⊢
  generalize ht₁ : (t.updPage p fun page => { page with free := true }).remove hash p = t₁ at *
  have hpages : ∀ q, t₁.pages q = if q = p then { t.pages p with free := true } else t.pages q :=
    fun q => by simp [← ht₁, remove]
  have hclean := clean_eq (t := t₁) (p := p) (by simpa [hpages] using href)
  generalize (t₁.clean p).1 = t₂ at h' hclean ⊢
  have hfree : (t₂.pages p).free = true := by
    rw [hclean]
    split <;> simp [hpages]
  refine ⟨fun q hq => ?_, fun q => ?_, ?_⟩
  · rw [release_pages_of_ne hq, hclean]
    split <;> simp [hpages, hq]
  · by_cases hq : q = p
    · subst hq
      simp [not_registered_release hfree h']
    · have hrest : t₁.Registered hash q ↔ t.Registered hash q := by
        rw [← ht₁, registered_remove hq, registered_updPage hq]
      rw [registered_release_of_ne hq, hclean]
      split
      · simp [registered_updPage hq, hrest, hq]
      · simp [hrest, hq]
  · rw [release_map, hclean]
    split <;> simp [hpages]

theorem keeps_freePage (hforeign : (t.pages p).cache ≠ some cache)
    (href : (t.pages p).changed = true → 1 < (t.pages p).ref)
    (h' : (t.freePage hash p).PageInv hash managed []) :
    t.Keeps hash cache (t.freePage hash p) := by
  obtain ⟨hother, hreg, hmap⟩ := freePage_spec href h'
  refine .of_other (p := p) hother (fun q hq => ?_) ?_ (fun _ hc => absurd hc hforeign)
    fun hr => absurd rfl ((hreg p).1 hr).2
  · rw [hreg]
    exact and_iff_left hq
  · rw [hmap]
    exact id

theorem keeps_reserveOne {n parent : Nat} (h : t.PageInv hash managed []) :
    t.Keeps hash cache (t.reserveOne hash n parent) := by
  have hgive : ∀ {t₁ p}, t₁.PageInv hash managed [p] → t.Taken hash t₁ p →
      t.Keeps hash cache
        ((t₁.updPage p fun page => { page with pageSet := n, free := true }).release p) := by
    intro t₁ p hinv htaken
    refine .of_other (p := p) (fun q hq => ?_) (fun q hq => ?_) ?_ (fun _ _ => ?_)
      fun _ hc => absurd hc ?_
    · rw [release_pages_of_ne hq, updPage_pages, if_neg hq, htaken.other q hq]
    · rw [registered_release_of_ne hq, registered_updPage hq, htaken.registered]
      simp [hq]
    · rw [release_map, updPage_pages, if_pos rfl, htaken.page]
      exact id
    · exact h.changed_of_zero (hinv.hand_sub p List.mem_cons_self) (by simp) htaken.zero
    · have hnone : ((t₁.updPage p fun page =>
          { page with pageSet := n, free := true }).pages p).cache = none := by
        simp [htaken.page]
      rcases release_cache (t₁.updPage p fun page => { page with pageSet := n, free := true }) p
        with heq | heq
      · rw [heq, hnone]
        exact nofun
      · rw [heq]
        exact nofun
  simp only [reserveOne]
  rcases hfree : t.allocFrom parent with ⟨t₁, _ | p⟩
  · obtain ⟨rfl, -⟩ := PageInv.allocFrom_none hfree
    simp only
    rcases hstandby : t₁.stealFrom hash parent with ⟨t₂, _ | p⟩
    · obtain ⟨rfl, -⟩ := h.stealFrom_none hstandby
      exact .refl t₂
    · obtain ⟨hinv, htaken⟩ := h.stealFrom hstandby
      exact hgive hinv htaken
  · obtain ⟨hinv, htaken⟩ := h.allocFrom hfree
    exact hgive hinv htaken

theorem keeps_reserve {n : Nat} (h : t.PageInv hash managed []) (halive : (t.sets n).alive = true)
    (count : Nat) : t.Keeps hash cache (t.reserve hash n count) := by
  simp only [reserve]
  split
  · exact .refl t
  · rename_i parent _
    rw [List.foldl_const, List.length_range]
    have hloop : ((fun t => t.reserveOne hash n parent)^[count] t).PageInv hash managed [] ∧
        (((fun t => t.reserveOne hash n parent)^[count] t).sets n).alive = true ∧
        t.Keeps hash cache ((fun t => t.reserveOne hash n parent)^[count] t) := by
      induction count with
      | zero => exact ⟨h, halive, .refl t⟩
      | succ count ih =>
        obtain ⟨hinv, hset, hkeeps⟩ := ih
        rw [Function.iterate_succ_apply']
        obtain ⟨hinv', hset'⟩ := hinv.reserveOne hset parent
        exact ⟨hinv', hset', hkeeps.trans (keeps_reserveOne hinv)⟩
    exact hloop.2.2

/-- A step of others keeps the invariant of the table, and the pages of the cache. -/
theorem otherStep_spec (h : t.PageInv hash managed []) (hstep : OtherStep hash managed cache t t') :
    t'.PageInv hash managed [] ∧ t.Keeps hash cache t' := by
  cases hstep with
  | op op hallowed hforeign =>
    have hok : op.LeavesNone t := by
      cases op with
      | destroy n => exact hforeign.elim
      | _ => trivial
    have hinv := run_inv h hallowed hok
    refine ⟨hinv, ?_⟩
    cases op with
    | alloc n c offset =>
      have halloc := h.alloc (n := n) hallowed.2
      simp only [run] at hinv ⊢
      generalize t.alloc hash n c offset = r at halloc hinv ⊢
      obtain ⟨t', _ | p⟩ := r
      · rw [halloc.1]
        exact .refl t
      · exact .of_obtained h hinv halloc.2
    | steal n c offset =>
      have hsteal := h.steal (n := n) hallowed.2
      simp only [run] at hinv ⊢
      generalize t.steal hash n c offset = r at hsteal hinv ⊢
      obtain ⟨t', _ | p⟩ := r
      · rw [hsteal.1]
        exact .refl t
      · exact .of_obtained h hinv hsteal.2
    | lookup c offset => exact .of_same (lookup_spec h c offset).2.1
    | addRef p => exact .of_same (sameContent_addRef t p)
    | release p => exact keeps_release h hinv
    | change p => exact keeps_change hforeign
    | clean p => exact keeps_clean hforeign hallowed.ref_of_changed
    | free p => exact keeps_freePage hforeign hallowed.ref_of_changed hinv
    | reserve n count => exact keeps_reserve h hallowed count
    | fork n => exact .of_same ⟨fun _ => rfl, rfl⟩
    | destroy n => exact hforeign.elim
  | write p filled map data hmap hheld hforeign =>
    have hsame : SameHeader (t.pages p)
        { t.pages p with filled := filled, map := map, data := data } :=
      ⟨rfl, rfl, rfl, rfl, rfl, rfl⟩
    refine ⟨h.updData (f := fun page => { page with
      filled := filled, map := map, data := data }) hsame, .of_other (p := p)
        (fun q hq => by simp [hq]) (fun q hq => registered_updPage hq) (fun _ => by simpa using hmap)
        (fun _ hc => absurd hc hforeign) fun _ hc => absurd hc ?_⟩
    simpa using hforeign

theorem interference_spec (w : Interference hash managed cache) (h : t.PageInv hash managed []) :
    (w.run t).PageInv hash managed [] ∧ t.Keeps hash cache (w.run t) := by
  have hsteps := w.steps t
  generalize w.run t = t' at hsteps ⊢
  induction hsteps with
  | refl => exact ⟨h, .refl t⟩
  | tail _ hstep ih =>
    obtain ⟨hinv, hkeeps⟩ := ih
    obtain ⟨hinv', hkeeps'⟩ := otherStep_spec hinv hstep
    exact ⟨hinv', hkeeps.trans hkeeps'⟩

/-- Each operation is foreign to some cache. -/
theorem exists_foreign (t : PageTable) {op : PageOp} (hop : ∀ n, op ≠ .destroy n) :
    ∃ cache, op.Foreign t cache := by
  have hother : ∀ c : Option Nat, ∃ cache, c ≠ some cache := by
    rintro (_ | c)
    · exact ⟨0, nofun⟩
    · exact ⟨c + 1, fun h => by simp at h⟩
  cases op with
  | alloc n c offset => exact ⟨c + 1, Nat.ne_of_lt (Nat.lt_succ_self c)⟩
  | steal n c offset => exact ⟨c + 1, Nat.ne_of_lt (Nat.lt_succ_self c)⟩
  | change p => exact hother _
  | clean p => exact hother _
  | free p => exact hother _
  | destroy n => exact absurd rfl (hop n)
  | _ => exact ⟨0, trivial⟩

end PageTable

/-- No operation on pages marks a sector. -/
theorem pageSystem_map_lt {hash : HashCode} {managed : List Nat} {t : PageTable}
    (hrun : (pageSystem hash managed).RunWith (fun t op => op.LeavesNone t) t) :
    ∀ q, (t.pages q).map < 2 ^ 8 := by
  induction hrun with
  | start h =>
    obtain ⟨-, data, rfl⟩ := h
    exact fun _ => Nat.two_pow_pos 8
  | @next t t' op hrun hok hstep ih =>
    obtain ⟨hallowed, rfl⟩ := hstep
    by_cases hop : ∃ n, op = .destroy n
    · obtain ⟨n, rfl⟩ := hop
      have hcount : (t.sets n).freeCount.toNat = 0 := by
        rw [(pageSystem_inv hrun).free_count, show (t.sets n).freeList = [] from hok]
        rfl
      intro q
      simp only [PageTable.run, PageTable.destroy]
      split
      · exact ih q
      · rw [hcount]
        exact ih q
    · obtain ⟨cache, hforeign⟩ := PageTable.exists_foreign t fun n h => hop ⟨n, h⟩
      exact (PageTable.otherStep_spec (pageSystem_inv hrun) (.op op hallowed hforeign)).2.map_lt ih

end EsOs.Kernel
