import Mathlib
import EsOs.Kernel.Proofs.CacheCoherence

/-!
# Runs of a cache

The operations of a cache do to its bytes what they do to those of a file, and so does a whole run.
-/

namespace EsOs.Kernel

open EsOs.Lib PageTable

namespace CacheState

variable {hash : HashCode} {managed : List Nat} {cache : Nat} {s s' : CacheState} {p : Nat}
  {content : Int → Option UInt8} {offset : Int}

namespace Coherent

/-! ### Pages -/

/-- A lookup keeps the bytes, and the page found belongs to the cache. -/
theorem lookup (h : s.Coherent hash managed content) {t : PageTable} {r : Option Nat}
    (hlook : s.table.lookup hash s.number offset = (t, r)) :
    ({ s with table := t } : CacheState).Coherent hash managed content ∧
      s.table.SameContent t ∧
      ∀ p, r = some p → ({ s with table := t } : CacheState).Got hash p ∧
        (t.pages p).offset = pageTrunc offset := by
  have hspec := lookup_spec h.inv s.number offset
  rw [hlook] at hspec
  obtain ⟨hinv, hsame, href, hfound⟩ := hspec
  refine ⟨h.table hinv (.of_same hsame), hsame, ?_⟩
  rintro p rfl
  obtain ⟨hreg, hcache, hoffset⟩ := hfound
  have hp := h.inv.mem_of_registered hreg
  have hnonneg := h.inv.ref_nonneg p hp (by simp)
  have hone : (t.pages p).ref = (s.table.pages p).ref + 1 := by
    rw [href p]
    simp
  refine ⟨⟨⟨(hsame.registered p).2 hreg, (hsame.cache p).trans hcache⟩, ?_, fun hc => ?_⟩, ?_⟩
  · show 0 < (t.pages p).ref
    omega
  · have hpos := h.inv.changed p hp (by simp) ((hsame.changed p).symm.trans hc)
    show 1 < (t.pages p).ref
    omega
  · rw [hsame.offset p, hoffset]

theorem obtained (h : s.Coherent hash managed content) {t : PageTable}
    (hinv : t.PageInv hash managed [])
    (hget : s.table.Obtained hash s.number (pageTrunc offset) t p) :
    ({ s with table := t } : CacheState).Coherent hash managed content ∧
      ({ s with table := t } : CacheState).Got hash p ∧
        (t.pages p).offset = pageTrunc offset := by
  refine ⟨h.table hinv (.of_obtained h.inv hinv hget),
    ⟨⟨(hget.registered p).2 (.inr rfl), ?_⟩, ?_, fun hc => ?_⟩, ?_⟩
  · show (t.pages p).cache = some s.number
    rw [hget.page]
  · show 0 < (t.pages p).ref
    rw [hget.page]
    exact Int.one_pos
  · change (t.pages p).changed = true at hc
    rw [hget.page] at hc
    cases hc
  · rw [hget.page]

/-- The page of an offset. -/
theorem tryPage (h : s.Coherent hash managed content) {r : Option Nat}
    (htry : s.tryPage hash offset = (s', r)) :
    s'.Coherent hash managed content ∧ s.SameCache s' ∧
      ∀ p, r = some p → s'.Got hash p ∧ (s'.table.pages p).offset = pageTrunc offset := by
  have hsame := SameCache.table s
  simp only [CacheState.tryPage] at htry
  rcases hlook : s.table.lookup hash s.number offset with ⟨t, _ | p⟩
  · obtain ⟨hcoherent, hcontent, -⟩ := h.lookup hlook
    have hspec := lookup_spec h.inv s.number offset
    rw [hlook] at hspec htry
    have hvacant : t.Vacant hash s.number (pageTrunc offset) := by
      intro q hq hplace
      rw [hcontent.cache, hcontent.offset] at hplace
      exact hspec.2.2.2 q ((hcontent.registered q).1 hq) hplace
    have halloc := hcoherent.inv.alloc (n := s.pageSet) hvacant
    simp only at htry halloc
    rcases hfree : t.alloc hash s.pageSet s.number offset with ⟨t₁, _ | p⟩
    · rw [hfree] at htry halloc
      obtain ⟨rfl, -⟩ := halloc
      have hsteal := hcoherent.inv.steal (n := s.pageSet) hvacant
      simp only at htry hsteal
      rcases hstolen : t₁.steal hash s.pageSet s.number offset with ⟨t₂, _ | p⟩
      · rw [hstolen] at htry hsteal
        obtain ⟨rfl, -⟩ := hsteal
        cases htry
        exact ⟨hcoherent, hsame _, by simp⟩
      · rw [hstolen] at htry hsteal
        cases htry
        obtain ⟨hcoherent', hgot⟩ := hcoherent.obtained hsteal.1 hsteal.2
        refine ⟨hcoherent', hsame _, ?_⟩
        rintro _ ⟨⟩
        exact hgot
    · rw [hfree] at htry halloc
      cases htry
      obtain ⟨hcoherent', hgot⟩ := hcoherent.obtained halloc.1 halloc.2
      refine ⟨hcoherent', hsame _, ?_⟩
      rintro _ ⟨⟩
      exact hgot
  · rw [hlook] at htry
    cases htry
    obtain ⟨hcoherent, -, hgot⟩ := h.lookup hlook
    exact ⟨hcoherent, hsame _, hgot⟩

theorem interfere (h : s.Coherent hash managed content)
    (w : Interference hash managed s.number) :
    (s.interfere w).Coherent hash managed content ∧ s.SameCache (s.interfere w) := by
  obtain ⟨hinv, hkeeps⟩ := interference_spec w h.inv
  exact ⟨h.table hinv hkeeps, .table s _⟩

end Coherent

/-- What one turn of `Cache::getPage` comes to. -/
theorem getPage_cases {waits : List (Interference hash managed cache)}
    {result : CacheState × Option Nat × List (Interference hash managed cache)}
    (hget : s.getPage offset waits = some result) :
    s.size ≤ pageTrunc offset ∧ result = (s, none, waits) ∨
    (∃ s₁ p, s.tryPage hash (pageTrunc offset) = (s₁, some p) ∧ result = (s₁, some p, waits)) ∨
    ∃ s₁ w rest, waits = w :: rest ∧ s.tryPage hash (pageTrunc offset) = (s₁, none) ∧
      (s₁.flush.interfere w).getPage offset rest = some result := by
  unfold CacheState.getPage at hget
  split at hget
  · rename_i hend
    exact .inl ⟨hend, (Option.some.inj hget).symm⟩
  · split at hget
    · rename_i s₁ p htry
      exact .inr (.inl ⟨s₁, p, htry, (Option.some.inj hget).symm⟩)
    · rename_i s₁ htry
      split at hget
      · cases hget
      · exact .inr (.inr ⟨s₁, _, _, rfl, htry, hget⟩)

namespace Coherent

/-- A page is had, whatever others do meanwhile, unless the offset is behind the end. -/
theorem getPage {waits waits' : List (Interference hash managed cache)} {r : Option Nat}
    (h : s.Coherent hash managed content) (hnumber : s.number = cache)
    (hget : s.getPage offset waits = some (s', r, waits')) :
    s'.Coherent hash managed content ∧ s.SameCache s' ∧
      (∀ p, r = some p → s'.Got hash p ∧ (s'.table.pages p).offset = pageTrunc offset) ∧
      (r = none → s.size ≤ pageTrunc offset) := by
  induction waits generalizing s with
  | nil =>
    rcases getPage_cases hget with ⟨hend, heq⟩ | ⟨s₁, p, htry, heq⟩ | ⟨s₁, w, rest, hnil, -⟩
    · cases heq
      exact ⟨h, .refl _, nofun, fun _ => hend⟩
    · cases heq
      obtain ⟨hcoherent, hsame, hgot⟩ := h.tryPage htry
      exact ⟨hcoherent, hsame, by simpa only [pageTrunc_idem] using hgot, nofun⟩
    · cases hnil
  | cons w waits ih =>
    rcases getPage_cases hget with ⟨hend, heq⟩ | ⟨s₁, p, htry, heq⟩ | ⟨s₁, w', rest, hcons, htry, hrest⟩
    · cases heq
      exact ⟨h, .refl _, nofun, fun _ => hend⟩
    · cases heq
      obtain ⟨hcoherent, hsame, hgot⟩ := h.tryPage htry
      exact ⟨hcoherent, hsame, by simpa only [pageTrunc_idem] using hgot, nofun⟩
    · cases hcons
      obtain ⟨hcoherent, hsame, -⟩ := h.tryPage htry
      obtain ⟨hflush, hsame', -⟩ := hcoherent.flush
      have hnumber' : s₁.flush.number = cache := by
        rw [hsame'.number, hsame.number, hnumber]
      subst hnumber'
      obtain ⟨hother, hsame''⟩ := hflush.interfere w
      have hall := (hsame.trans hsame').trans hsame''
      obtain ⟨hget', hsame₃, hsome, hnone⟩ := ih hother rfl hrest
      refine ⟨hget', hall.trans hsame₃, hsome, ?_⟩
      rw [← hall.size]
      exact hnone

/-! ### Reading -/

/-- The place of a byte in its page. -/
theorem place_eq (offset : Int) (i : Nat) :
    pageTrunc offset + ((offset % 4096).toNat + i : Nat) = offset + i := by
  unfold pageTrunc
  omega

theorem readLoop {fuel : Nat} {waits' : List (Interference hash managed cache)} :
    ∀ {s : CacheState} {count : Nat} {offset : Int} {bytes : List UInt8}
      {waits : List (Interference hash managed cache)},
      s.Coherent hash managed content → s.number = cache → count ≤ fuel →
      s.readLoop fuel count offset waits = some (s', bytes, waits') →
      s'.Coherent hash managed content ∧ s.SameCache s' ∧
        (bytes.length : Int) = max 0 (min (count : Int) (s.size - offset)) ∧
        ∀ i : Nat, i < bytes.length → ∀ b, content (offset + i) = some b → bytes[i]? = some b := by
  induction fuel with
  | zero =>
    intro s count offset bytes waits h hnumber hfuel hread
    obtain rfl : count = 0 := by omega
    cases hread
    refine ⟨h, .refl _, ?_, nofun⟩
    simp only [List.length_nil]
    omega
  | succ fuel ih =>
    intro s count offset bytes waits h hnumber hfuel hread
    simp only [CacheState.readLoop] at hread
    split at hread
    · rename_i hdone
      cases hread
      refine ⟨h, .refl _, ?_, nofun⟩
      simp only [List.length_nil]
      omega
    · rename_i hmore
      split at hread
      · cases hread
      · rename_i s₁ _ hget
        have hend := (h.getPage hnumber hget).2.2.2 rfl
        unfold pageTrunc at hend
        omega
      · rename_i s₁ p waits₁ hget
        obtain ⟨hcoherent, hsame, hsome, -⟩ := h.getPage hnumber hget
        obtain ⟨hgot, hplace⟩ := hsome p rfl
        have hfill := hcoherent.fill hgot.own
        obtain ⟨hgot', hfilled, hplace'⟩ := got_fill hgot
        rw [hplace] at hplace'
        generalize hs₂ : s₁.updPage p (fun page => (page.fill s₁.backingStore).1) = s₂ at *
        have hsame₂ : s₁.SameCache s₂ := by
          rw [← hs₂]
          exact ⟨rfl, rfl, rfl, rfl, Int.le_refl _⟩
        generalize hn : min (min (4096 - (offset % 4096).toNat) count) (s₁.size - offset).toNat = n
          at hread
        rw [hsame.size] at hn
        have hpos : 0 < n ∧ n ≤ count ∧ n + (offset % 4096).toNat ≤ 4096 ∧
            (n : Int) ≤ s.size - offset := by omega
        split at hread
        · cases hread
        · rename_i s₃ rest waits₃ hrest
          cases hread
          have hrelease : s₂.SameCache (s₂.release p) := ⟨rfl, rfl, rfl, rfl, Int.le_refl _⟩
          have hall := (hsame.trans hsame₂).trans hrelease
          obtain ⟨hcoherent', hsame', hlen, hbytes⟩ := ih (hfill.release hgot')
            (by rw [hall.number, hnumber]) (by omega) hrest
          rw [hall.size] at hlen
          have hlength : ((s₂.table.pages p).read n (offset % 4096).toNat).length = n := by
            simp [Page.read]
          refine ⟨hcoherent', hall.trans hsame', ?_, fun i hi b hb => ?_⟩
          · rw [List.length_append, hlength]
            omega
          · by_cases hin : i < n
            · rw [List.getElem?_append_left (by omega)]
              have hpage := hfill.page p hgot'.own hfilled ((offset % 4096).toNat + i) (by omega) b
                (by rw [hplace', place_eq]; exact hb)
              simp [Page.read, hin, hpage]
            · rw [List.getElem?_append_right (by omega), hlength]
              rw [List.length_append, hlength] at hi
              refine hbytes (i - n) (by omega) b ?_
              rw [← hb]
              congr 1
              omega

/-! ### Sizes -/

/-- Pages behind the last defined byte are freed. -/
theorem freeLoop (fuel : Nat) : ∀ {s : CacheState} {offset : Int},
    s.Coherent hash managed content → (∀ x, offset ≤ x → content x = none) →
    pageTrunc offset = offset →
    (s.freeLoop hash fuel offset).Coherent hash managed content ∧
      s.SameCache (s.freeLoop hash fuel offset) := by
  induction fuel with
  | zero => exact fun h _ _ => ⟨h, .refl _⟩
  | succ fuel ih =>
    intro s offset h hnone haligned
    have hnone' : ∀ x, offset + 4096 ≤ x → content x = none := fun x hx => hnone x (by omega)
    have haligned' : pageTrunc (offset + 4096) = offset + 4096 := by
      unfold pageTrunc at haligned ⊢
      omega
    simp only [CacheState.freeLoop]
    split
    · exact ⟨h, .refl _⟩
    rcases hlook : s.table.lookup hash s.number offset with ⟨t, _ | p⟩
    · obtain ⟨hcoherent, -⟩ := h.lookup hlook
      obtain ⟨hloop, hsame⟩ := ih hcoherent hnone' haligned'
      exact ⟨hloop, (SameCache.table s t).trans hsame⟩
    · obtain ⟨hcoherent, -, hgot⟩ := h.lookup hlook
      obtain ⟨hgot, hplace⟩ := hgot p rfl
      obtain ⟨hfreed, hsame⟩ := hcoherent.freePage hgot fun i _ => hnone _ (by
        show offset ≤ (t.pages p).offset + i
        rw [hplace, haligned]
        omega)
      obtain ⟨hloop, hsame'⟩ := ih hfreed hnone' haligned'
      exact ⟨hloop, ((SameCache.table s t).trans hsame).trans hsame'⟩

/-- A new size cuts the bytes behind it off. -/
theorem resize (h : s.Coherent hash managed content) (newSize : Int) (fresh : Int → UInt8) :
    (s.resize hash newSize fresh).Coherent hash managed (File.cut content newSize) ∧
      (s.resize hash newSize fresh).number = s.number ∧
      (s.resize hash newSize fresh).size = newSize ∧
      newSize ≤ (s.resize hash newSize fresh).backingStore.size := by
  have hcut : ∀ {x b}, File.cut content newSize x = some b → x < newSize ∧ content x = some b := by
    intro x b hb
    unfold File.cut at hb
    split at hb
    · rename_i hx
      exact ⟨hx, hb⟩
    · cases hb
  have hstore : ({ s with backingStore := s.backingStore.setSize newSize fresh } :
      CacheState).Coherent hash managed (File.cut content newSize) := by
    refine ⟨h.inv, h.map_lt, h.sector, h.changed_nodup, h.mem_changed, h.filled, h.aligned,
      fun q hq hf i hi b hb => h.page q hq hf i hi b (hcut hb).2, fun x b hb => ?_,
      fun x b hb => (hcut hb).1⟩
    obtain ⟨hx, hb'⟩ := hcut hb
    refine (h.store x b hb').imp (fun hdata => ?_) id
    simp only [Store.setSize]
    rw [if_pos ⟨h.bound x b hb', hx⟩, hdata]
  obtain ⟨hloop, hsame⟩ := Coherent.freeLoop s.size.toNat hstore
    (fun x hx => if_neg (by unfold pageTrunc at hx; omega)) (pageTrunc_idem (newSize + 4095))
  exact ⟨⟨hloop.inv, hloop.map_lt, hloop.sector, hloop.changed_nodup, hloop.mem_changed,
    hloop.filled, hloop.aligned, hloop.page, hloop.store, hloop.bound⟩, hsame.number, rfl,
    hsame.size_le⟩

/-! ### Writing -/

theorem overwrite_append (content : Int → Option UInt8) (src : List UInt8) (offset : Int) {n : Nat}
    (hn : n ≤ src.length) :
    File.overwrite (File.overwrite content (src.take n) offset) (src.drop n) (offset + n) =
      File.overwrite content src offset := by
  funext x
  simp only [File.overwrite, List.length_drop, List.length_take, Nat.min_eq_left hn]
  by_cases hbelow : x < offset + n
  · rw [if_neg (by omega)]
    by_cases hin : offset ≤ x
    · rw [if_pos (by omega), if_pos (by omega), List.getElem?_take_of_lt (by omega)]
    · rw [if_neg (by omega), if_neg (by omega)]
  · by_cases hin : x < offset + src.length
    · rw [if_pos (by omega), if_pos (by omega), List.getElem?_drop]
      congr 1
      omega
    · rw [if_neg (by omega), if_neg (by omega), if_neg (by omega)]

theorem writeLoop {fuel : Nat} {waits' : List (Interference hash managed cache)} :
    ∀ {s : CacheState} {src : List UInt8} {offset : Int} {content : Int → Option UInt8} {len : Nat}
      {waits : List (Interference hash managed cache)},
      s.Coherent hash managed content → s.number = cache → src.length ≤ fuel →
      offset + src.length ≤ s.size → s.size ≤ s.backingStore.size →
      s.writeLoop fuel src offset waits = some (s', len, waits') →
      s'.Coherent hash managed (File.overwrite content src offset) ∧ s.SameCache s' ∧
        len = src.length := by
  induction fuel with
  | zero =>
    intro s src offset content len waits h hnumber hfuel hend hsize hwrite
    obtain rfl : src = [] := List.length_eq_zero_iff.1 (Nat.le_zero.1 hfuel)
    cases hwrite
    refine ⟨?_, .refl _, rfl⟩
    rwa [show File.overwrite content [] offset = content from
      funext fun x => if_neg (by simp only [List.length_nil]; omega)]
  | succ fuel ih =>
    intro s src offset content len waits h hnumber hfuel hend hsize hwrite
    simp only [CacheState.writeLoop] at hwrite
    split at hwrite
    · rename_i hdone
      obtain rfl : src = [] := List.length_eq_zero_iff.1 (by omega)
      cases hwrite
      refine ⟨?_, .refl _, rfl⟩
      rwa [show File.overwrite content [] offset = content from
        funext fun x => if_neg (by simp only [List.length_nil]; omega)]
    · rename_i hmore
      split at hwrite
      · cases hwrite
      · rename_i s₁ _ hget
        have hbehind := (h.getPage hnumber hget).2.2.2 rfl
        unfold pageTrunc at hbehind
        omega
      · rename_i s₁ p waits₁ hget
        obtain ⟨hcoherent, hsame, hsome, -⟩ := h.getPage hnumber hget
        obtain ⟨hgot, hplace⟩ := hsome p rfl
        generalize hn : min (min (4096 - (offset % 4096).toNat) src.length)
          (s₁.size - offset).toNat = n at hwrite
        rw [hsame.size] at hn
        have hpos : 0 < n ∧ n ≤ src.length ∧ (offset % 4096).toNat + n ≤ 4096 := by omega
        -- the page is filled, or all of it will be overwritten
        generalize hs₂ : (if n < 4096 then s₁.updPage p fun page => (page.fill s₁.backingStore).1
          else s₁) = s₂ at hwrite
        have hready : s₂.Coherent hash managed content ∧ s₁.SameCache s₂ ∧ s₂.Got hash p ∧
            (s₂.table.pages p).offset = pageTrunc offset ∧
            ((s₂.table.pages p).filled = true ∨
              (offset % 4096).toNat = 0 ∧ (src.take n).length = 4096) := by
          rw [← hs₂]
          split
          · obtain ⟨hgot', hfilled, hplace'⟩ := got_fill hgot
            exact ⟨hcoherent.fill hgot.own, ⟨rfl, rfl, rfl, rfl, Int.le_refl _⟩, hgot',
              hplace'.trans hplace, .inl hfilled⟩
          · refine ⟨hcoherent, .refl _, hgot, hplace, .inr ⟨by omega, ?_⟩⟩
            rw [List.length_take]
            omega
        obtain ⟨hcoherent₂, hsame₂, hgot₂, hplace₂, hfilled⟩ := hready
        have hlen : (src.take n).length = n := by
          rw [List.length_take]
          omega
        have hplace₀ : pageTrunc offset + (offset % 4096).toNat = offset := by
          unfold pageTrunc
          omega
        have hwritten := hcoherent₂.write hgot₂
          (show (offset % 4096).toNat + (src.take n).length ≤ 4096 by omega) hfilled (by
            rw [hplace₂, hplace₀, hlen]
            have := (hsame.trans hsame₂).size_le
            omega)
        rw [hplace₂, hplace₀] at hwritten
        obtain ⟨hcoherent₃, hgot₃⟩ := hwritten
        split at hwrite
        · cases hwrite
        · rename_i s₄ rest waits₄ hrest
          cases hwrite
          have hall : s.SameCache (((s₂.updPage p fun page =>
              { page.write (src.take n) (offset % 4096).toNat with filled := true }).change
                p).release p) :=
            (hsame.trans hsame₂).trans ⟨rfl, rfl, rfl, rfl, Int.le_refl _⟩
          obtain ⟨hcoherent', hsame', hlen'⟩ := ih (hcoherent₃.release hgot₃)
            (by rw [hall.number, hnumber]) (by rw [List.length_drop]; omega)
            (by rw [hall.size, List.length_drop]; omega)
            (by rw [hall.size]; exact Int.le_trans hsize hall.size_le) hrest
          rw [overwrite_append content src offset hpos.2.1] at hcoherent'
          refine ⟨hcoherent', hall.trans hsame', ?_⟩
          rw [hlen', List.length_drop]
          omega

end Coherent

/-! ### Progress -/

/-- A page of the sets that are asked has no reference. -/
def Unheld (managed : List Nat) (s : CacheState) : Prop :=
  ∃ q ∈ managed, (s.table.pages q).pageSet ∈ s.table.above (s.pageSet + 1) s.pageSet ∧
    (s.table.pages q).ref = 0

/-- A page can be had, if need be after a flush and a wait. -/
def Ready (s : CacheState) (waits : List (Interference hash managed cache)) : Prop :=
  s.Unheld managed ∨ (∃ rest, waits = .idle :: rest) ∧
    ∃ q ∈ s.changedList, (s.table.pages q).pageSet ∈ s.table.above (s.pageSet + 1) s.pageSet ∧
      (s.table.pages q).ref = 1

theorem Coherent.ready (h : s.Coherent hash managed content) (hget : s.Obtainable)
    (rest : List (Interference hash managed cache)) : s.Ready (.idle :: rest) := by
  obtain ⟨m, hm, hfree | hstandby | ⟨q, hq, hset, hone⟩⟩ := hget
  · obtain ⟨q, hq⟩ := List.exists_mem_of_ne_nil _ hfree
    obtain ⟨hmem, -, hset, hzero, -⟩ := h.inv.free_page m q hq
    exact .inl ⟨q, hmem, hset ▸ hm, hzero⟩
  · obtain ⟨q, hq⟩ := List.exists_mem_of_ne_nil _ hstandby
    obtain ⟨hmem, -, hset, hzero, -⟩ := h.inv.standby_page m q hq
    exact .inl ⟨q, hmem, hset ▸ hm, hzero⟩
  · exact .inr ⟨⟨rest, rfl⟩, q, hq, hset ▸ hm, hone⟩

/-- What the sets are asked for depends on these only. -/
theorem Refs.above {δ : Nat → Int} (hrefs : s.Refs s' δ) (hset : s'.pageSet = s.pageSet) (q : Nat) :
    (s'.table.pages q).pageSet ∈ s'.table.above (s'.pageSet + 1) s'.pageSet ↔
      (s.table.pages q).pageSet ∈ s.table.above (s.pageSet + 1) s.pageSet := by
  rw [hrefs.pageSet, above_congr hrefs.parent, hset]

/-- One turn either has the page, with one more reference, or finds none to be had. -/
theorem Coherent.tryPage_refs (h : s.Coherent hash managed content) (offset : Int) :
    (∃ s' p, s.tryPage hash offset = (s', some p) ∧ s'.changedList = s.changedList ∧
      s.Refs s' fun q => if q = p then 1 else 0) ∨
    ∃ s', s.tryPage hash offset = (s', none) ∧ s'.changedList = s.changedList ∧
      (s.Refs s' fun _ => 0) ∧ ¬s.Unheld managed := by
  have hspec := lookup_spec h.inv s.number offset
  have hparent := fun m => lookup_parent hash s.table s.number m offset
  simp only [CacheState.tryPage]
  rcases hlook : s.table.lookup hash s.number offset with ⟨t, _ | p⟩
  · rw [hlook] at hspec hparent
    obtain ⟨hinv, hsame, href, hnone⟩ := hspec
    have hvacant : t.Vacant hash s.number (pageTrunc offset) := by
      intro q hq hplace
      rw [hsame.cache, hsame.offset] at hplace
      exact hnone q ((hsame.registered q).1 hq) hplace
    have hlooked : s.Refs { s with table := t } fun _ => 0 :=
      ⟨by simpa using href, fun q => Page.content_pageSet (hsame.content q), hparent⟩
    have hobtained : ∀ {t' p}, t.Obtained hash s.number (pageTrunc offset) t' p →
        s.Refs { s with table := t' } fun q => if q = p then 1 else 0 := by
      intro t' p hget
      have hmore : ({ s with table := t } : CacheState).Refs { s with table := t' }
          fun q => if q = p then 1 else 0 := by
        refine ⟨fun q => ?_, fun q => ?_, fun m => (hget.sets m).2⟩
        · by_cases hq : q = p
          · simp [hq, hget.page, hget.zero]
          · simp [hq, hget.other q hq]
        · by_cases hq : q = p
          · simp [hq, hget.page]
          · simp [hget.other q hq]
      have hall := hlooked.trans hmore
      simpa only [Int.zero_add] using hall
    have halloc := hinv.alloc (n := s.pageSet) hvacant
    have hsteal := hinv.steal (n := s.pageSet) hvacant
    simp only
    rcases hfree : t.alloc hash s.pageSet s.number offset with ⟨t₁, _ | p⟩
    · rw [hfree] at halloc
      obtain ⟨rfl, hempty⟩ := halloc
      simp only
      rcases hstolen : t₁.steal hash s.pageSet s.number offset with ⟨t₂, _ | p⟩
      · rw [hstolen] at hsteal
        obtain ⟨rfl, hempty'⟩ := hsteal
        refine .inr ⟨_, rfl, rfl, hlooked, ?_⟩
        rintro ⟨q, hq, hset, hzero⟩
        rw [← hlooked.above rfl] at hset
        have hidle := hinv.idle q hq (by simp) (by simpa [hzero] using href q)
        rw [hempty _ hset, hempty' _ hset] at hidle
        simp at hidle
      · rw [hstolen] at hsteal
        exact .inl ⟨_, p, rfl, rfl, hobtained hsteal.2⟩
    · rw [hfree] at halloc
      exact .inl ⟨_, p, rfl, rfl, hobtained halloc.2⟩
  · rw [hlook] at hspec hparent
    obtain ⟨-, hsame, href, -⟩ := hspec
    refine .inl ⟨_, p, rfl, rfl, fun q => ?_, fun q => Page.content_pageSet (hsame.content q),
      hparent⟩
    show (t.pages q).ref = _
    rw [href q]
    simp [eq_comm]

/-- A page that has been filled is released. -/
theorem Got.refs_fill (hgot : s.Got hash p) (hinv : s.table.PageInv hash managed []) :
    s.Refs ((s.updPage p fun page => (page.fill s.backingStore).1).release p)
      fun q => if q = p then -1 else 0 := by
  have hfill := Page.fill_eq (s.table.pages p) s.backingStore
  have hself : ((s.updPage p fun page => (page.fill s.backingStore).1).table.pages p) =
      ((s.table.pages p).fill s.backingStore).1 := by
    simp [CacheState.updPage]
  have hfilled : s.Refs (s.updPage p fun page => (page.fill s.backingStore).1) fun _ => 0 := by
    refine ⟨fun q => ?_, fun q => ?_, fun _ => rfl⟩
    · by_cases hq : q = p
      · rw [hq, hself, hfill, Int.add_zero]
      · simp [CacheState.updPage, hq]
    · by_cases hq : q = p
      · rw [hq, hself, hfill]
      · simp [CacheState.updPage, hq]
  have hall := hfilled.trans (Refs.release (p := p) (by
    rw [hself, hfill]
    exact hinv.free_of_registered hgot.own.1))
  simpa only [Int.zero_add] using hall

theorem Ready.congr {waits : List (Interference hash managed cache)} (h : s.Ready waits)
    (hrefs : s.Refs s' fun _ => 0) (hlist : s'.changedList = s.changedList)
    (hset : s'.pageSet = s.pageSet) : s'.Ready waits := by
  have href : ∀ q, (s'.table.pages q).ref = (s.table.pages q).ref := by simpa using hrefs.ref
  rcases h with ⟨q, hq, habove, hzero⟩ | ⟨hwaits, q, hq, habove, hone⟩
  · exact .inl ⟨q, hq, (hrefs.above hset q).2 habove, by rw [href, hzero]⟩
  · exact .inr ⟨hwaits, q, by rwa [hlist], (hrefs.above hset q).2 habove, by rw [href, hone]⟩

/-- A page is had, with one more reference than in a state that is ready. -/
theorem Coherent.getPage_ready (h : s.Coherent hash managed content)
    {waits : List (Interference hash managed cache)}
    (hready : s.Ready waits) (hsize : pageTrunc offset < s.size) :
    ∃ (s₀ s₁ : CacheState) (p : Nat) (waits₁ : List (Interference hash managed cache)),
      s.getPage offset waits = some (s₁, some p, waits₁) ∧ s₀.Ready waits₁ ∧
      s₁.changedList = s₀.changedList ∧ s₁.pageSet = s₀.pageSet ∧
      s₀.Refs s₁ fun q => if q = p then 1 else 0 := by
  unfold CacheState.getPage
  rw [if_neg (by omega)]
  rcases h.tryPage_refs (pageTrunc offset) with
    ⟨s₁, p, htry, hlist, hrefs⟩ | ⟨s₁, htry, hlist, hrefs, hnone⟩
  · rw [htry]
    exact ⟨s, s₁, p, waits, rfl, hready, hlist, (h.tryPage htry).2.1.pageSet, hrefs⟩
  · rw [htry]
    obtain ⟨⟨rest, rfl⟩, q, hq, habove, hone⟩ := hready.resolve_left hnone
    obtain ⟨hcoherent, hsame, -⟩ := h.tryPage htry
    obtain ⟨hflush, hsame', -, hrefs'⟩ := hcoherent.flush
    have hall := hrefs.trans hrefs'
    have hsame₂ := hsame.trans hsame'
    -- the flush leaves the page without a reference
    have hunheld : s₁.flush.Unheld managed := by
      refine ⟨q, h.inv.mem_of_registered ((h.mem_changed q).1 hq).1.1,
        (hall.above hsame₂.pageSet q).2 habove, ?_⟩
      rw [hall.ref, hone, if_pos (by rwa [hlist])]
      rfl
    show ∃ s₀ s₂ p waits₁, CacheState.getPage offset rest s₁.flush = some (s₂, some p, waits₁) ∧ _
    unfold CacheState.getPage
    rw [if_neg (by rw [hsame₂.size]; omega)]
    rcases hflush.tryPage_refs (pageTrunc offset) with
      ⟨s₂, p, htry', hlist', hrefs₂⟩ | ⟨s₂, -, -, -, hnone'⟩
    · rw [htry']
      exact ⟨s₁.flush, s₂, p, rest, rfl, .inl hunheld, hlist', (hflush.tryPage htry').2.1.pageSet,
        hrefs₂⟩
    · exact absurd hunheld hnone'

/-- A read returns when it is ready. -/
theorem Coherent.readLoop_isSome {fuel : Nat} :
    ∀ {s : CacheState} {count : Nat} {offset : Int}
      {waits : List (Interference hash managed cache)},
      s.Coherent hash managed content → s.number = cache → s.Ready waits →
      (s.readLoop fuel count offset waits).isSome := by
  induction fuel with
  | zero => exact fun _ _ _ => rfl
  | succ fuel ih =>
    intro s count offset waits h hnumber hready
    simp only [CacheState.readLoop]
    split
    · rfl
    · rename_i hmore
      obtain ⟨s₀, s₁, p, waits₁, hget, hready₀, hlist, hset, hrefs⟩ := h.getPage_ready hready
        (show pageTrunc offset < s.size by unfold pageTrunc; omega)
      obtain ⟨hcoherent, hsame, hsome, -⟩ := h.getPage hnumber hget
      have hgot := (hsome p rfl).1
      have hback := hrefs.trans (hgot.refs_fill hcoherent.inv)
      have hzero : s₀.Refs ((s₁.updPage p fun page => (page.fill s₁.backingStore).1).release p)
          fun _ => 0 :=
        ⟨fun q => by rw [hback.ref]; by_cases hq : q = p <;> simp [hq], hback.pageSet, hback.parent⟩
      have hready' := hready₀.congr hzero hlist hset
      obtain ⟨⟨s', rest, waits'⟩, hrest⟩ := Option.isSome_iff_exists.1
        (@ih _ _ _ _ ((hcoherent.fill hgot.own).release (got_fill hgot).1)
          (hsame.number.trans hnumber) hready')
      rw [hget]
      simp only
      rw [hrest]
      rfl

/-! ### Runs -/

/-- A cache and the file it stands for. -/
structure CacheInv (hash : HashCode) (managed : List Nat) (cache : Nat) (s : CacheState)
    (file : File) : Prop where
  coherent : s.Coherent hash managed file.content
  number : s.number = cache
  size : s.size = file.size
  size_le : s.size ≤ s.backingStore.size
  below : ∀ x b, file.content x = some b → x < s.size

namespace CacheInv

variable {file : File}

theorem of_same (h : CacheInv hash managed cache s file)
    (hcoherent : s'.Coherent hash managed file.content) (hsame : s.SameCache s') :
    CacheInv hash managed cache s' file :=
  ⟨hcoherent, hsame.number.trans h.number, hsame.size.trans h.size,
    by rw [hsame.size]; exact Int.le_trans h.size_le hsame.size_le,
    fun x b hb => by rw [hsame.size]; exact h.below x b hb⟩

theorem resize (h : CacheInv hash managed cache s file) (newSize : Int) (fresh : Int → UInt8) :
    CacheInv hash managed cache (s.resize hash newSize fresh) (file.setSize newSize) := by
  obtain ⟨hcoherent, hnumber, hsize, hle⟩ := h.coherent.resize newSize fresh
  refine ⟨hcoherent, hnumber.trans h.number, hsize, hsize ▸ hle, fun x b hb => ?_⟩
  rw [hsize]
  simp only [File.setSize, File.cut] at hb
  split at hb
  · rename_i hx
    exact hx
  · cases hb

/-- A write beyond the end first makes the file longer, which cuts nothing off. -/
theorem grow (h : CacheInv hash managed cache s file) {newSize : Int} (hnew : s.size < newSize)
    (fresh : Int → UInt8) :
    CacheInv hash managed cache (s.resize hash newSize fresh) ⟨newSize, file.content⟩ := by
  have hcut : File.cut file.content newSize = file.content := by
    funext x
    unfold File.cut
    split
    · rfl
    · rename_i hx
      rcases hb : file.content x with _ | b
      · rfl
      · have := h.below x b hb
        omega
  have hresize := h.resize newSize fresh
  rwa [File.setSize, hcut] at hresize

theorem write {src : List UInt8} {offset : Int} {fresh : Int → UInt8} {len : Nat}
    {waits waits' : List (Interference hash managed cache)}
    (h : CacheInv hash managed cache s file)
    (hwrite : s.write src offset fresh waits = some (s', len, waits')) :
    CacheInv hash managed cache s' (file.write src offset) := by
  simp only [CacheState.write] at hwrite
  generalize hs₁ : (if s.size < offset + src.length then
    s.resize hash (offset + src.length) fresh else s) = s₁ at hwrite
  have hgrown : CacheInv hash managed cache s₁
      ⟨max file.size (offset + src.length), file.content⟩ := by
    rw [← hs₁]
    split
    · rename_i hlt
      rw [Int.max_eq_right (by rw [← h.size]; omega)]
      exact h.grow hlt fresh
    · rename_i hle
      rw [Int.max_eq_left (by rw [← h.size]; omega)]
      exact h
  have hend : offset + src.length ≤ s₁.size := by
    rw [hgrown.size]
    exact Int.le_max_right _ _
  obtain ⟨hcoherent, hsame, -⟩ := hgrown.coherent.writeLoop hgrown.number (Nat.le_refl _) hend
    hgrown.size_le hwrite
  refine ⟨hcoherent, hsame.number.trans hgrown.number, hsame.size.trans hgrown.size,
    by rw [hsame.size]; exact Int.le_trans hgrown.size_le hsame.size_le, fun x b hb => ?_⟩
  rw [hsame.size]
  simp only [File.write, File.overwrite] at hb
  split at hb
  · omega
  · exact hgrown.below x b hb

theorem step {op : CacheOp hash managed cache} {st : CacheState × File}
    (h : CacheInv hash managed cache s file) (hstep : CacheState.step (s, file) op = some st) :
    CacheInv hash managed cache st.1 st.2 := by
  cases op with
  | read count offset waits =>
    simp only [CacheState.step, Option.map_eq_some_iff] at hstep
    obtain ⟨⟨s', bytes, waits'⟩, hread, rfl⟩ := hstep
    obtain ⟨hcoherent, hsame, -⟩ := h.coherent.readLoop h.number (Nat.le_refl _) hread
    exact h.of_same hcoherent hsame
  | write src offset fresh waits =>
    simp only [CacheState.step, Option.map_eq_some_iff] at hstep
    obtain ⟨⟨s', len, waits'⟩, hwrite, rfl⟩ := hstep
    exact h.write hwrite
  | setSize newSize fresh =>
    simp only [CacheState.step, CacheState.setSize] at hstep
    split at hstep
    · cases hstep
      exact h
    · rename_i s' hset
      split at hset
      · cases hset
      · cases hset
        cases hstep
        exact h.resize newSize fresh
  | flush =>
    cases hstep
    obtain ⟨hcoherent, hsame, -⟩ := h.coherent.flush
    exact h.of_same hcoherent hsame
  | clean page =>
    simp only [CacheState.step] at hstep
    split at hstep
    · rename_i hmem
      cases hstep
      obtain ⟨hcoherent, hsame, -⟩ := h.coherent.syncPage hmem
      exact h.of_same hcoherent hsame
    · cases hstep
  | others w =>
    cases hstep
    obtain rfl := h.number
    obtain ⟨hcoherent, hsame⟩ := h.coherent.interfere w
    exact h.of_same hcoherent hsame

end CacheInv

theorem create_inv {t : PageTable} {store : Store} {pageSet sectorSize : Nat}
    (hrun : (pageSystem hash managed).RunWith (fun t op => op.LeavesNone t) t)
    (hnone : ∀ p, (t.pages p).cache ≠ some cache) (hlow : 512 ≤ sectorSize)
    (hhigh : sectorSize ≤ 4096) (hdvd : sectorSize ∣ 4096) :
    CacheInv hash managed cache (.create t cache store pageSet sectorSize) (.ofStore store) := by
  have hsector : ∃ shift groups, sectorSize = 512 * shift ∧ shift * groups = 8 := by
    obtain ⟨groups, hgroups⟩ := hdvd
    have hle : groups ≤ 8 := by
      by_contra hlt
      have := Nat.mul_le_mul hlow (show 9 ≤ groups by omega)
      omega
    have hpos : groups ≠ 0 := by
      rintro rfl
      simp at hgroups
    obtain rfl | rfl | rfl | rfl : sectorSize = 512 ∨ sectorSize = 1024 ∨ sectorSize = 2048 ∨
        sectorSize = 4096 := by
      interval_cases groups <;> omega
    · exact ⟨1, 8, rfl, rfl⟩
    · exact ⟨2, 4, rfl, rfl⟩
    · exact ⟨4, 2, rfl, rfl⟩
    · exact ⟨8, 1, rfl, rfl⟩
  have hbyte : ∀ {x b}, (File.ofStore store).content x = some b →
      x < store.size ∧ store.data x = b := by
    intro x b hb
    simp only [File.ofStore] at hb
    split at hb
    · rename_i hx
      exact ⟨hx.2, Option.some.inj hb⟩
    · cases hb
  have hown : ∀ q, ¬(create t cache store pageSet sectorSize).Own hash q :=
    fun q hq => hnone q hq.2
  refine ⟨⟨pageSystem_inv hrun, pageSystem_map_lt hrun, hsector, List.nodup_nil, fun q => ?_,
    fun q hq => absurd hq (hown q), fun q hq => absurd hq (hown q),
    fun q hq => absurd hq (hown q), fun x b hb => .inl ?_, fun x b hb => ?_⟩, rfl, rfl,
    Int.le_refl _, fun x b hb => ?_⟩
  · exact iff_of_false List.not_mem_nil fun hq => hown q hq.1
  · exact (hbyte hb).2
  · exact (hbyte hb).1
  · exact (hbyte hb).1

end CacheState

/-- In every state of every run of a cache, a read of a part of the file returns all of it that there
    is, and every byte of it that is defined; it does return when a page can be had; and a flush
    leaves every byte that is defined in the stream. -/
theorem cache_coherence (hash : HashCode) (managed : List Nat) (cache : Nat) (s : CacheState)
    (file : File) (hrun : (cacheSystem hash managed cache).Reachable (s, file)) :
    s.size = file.size ∧
    (∀ (count : Nat) (offset : Int) (waits waits' : List (Interference hash managed cache))
      (s' : CacheState) (bytes : List UInt8), offset < s.size →
      s.read count offset waits = some (s', bytes, waits') →
      (bytes.length : Int) = min (count : Int) (s.size - offset) ∧
      ∀ i : Nat, i < bytes.length → ∀ b, file.content (offset + i) = some b →
        bytes[i]? = some b) ∧
    (s.Obtainable → ∀ (count : Nat) (offset : Int) (waits : List (Interference hash managed cache)),
      (s.read count offset (.idle :: waits)).isSome) ∧
    ∀ x b, file.content x = some b →
      x < s.flush.backingStore.size ∧ s.flush.backingStore.data x = b := by
  have hinv : CacheState.CacheInv hash managed cache s file := by
    refine hrun.invariant (fun st => CacheState.CacheInv hash managed cache st.1 st.2) ?_ ?_
    · rintro _ ⟨t, store, pageSet, sectorSize, htable, -, hnone, hlow, hhigh, hdvd, rfl⟩
      exact CacheState.create_inv htable hnone hlow hhigh hdvd
    · exact fun _ _ _ h _ hstep => h.step hstep
  refine ⟨hinv.size, fun count offset waits waits' s' bytes hlt hread => ?_,
    fun hget count offset waits => ?_, fun x b hb => ?_⟩
  · obtain ⟨-, -, hlen, hbytes⟩ := hinv.coherent.readLoop hinv.number (Nat.le_refl _) hread
    exact ⟨by omega, hbytes⟩
  · exact hinv.coherent.readLoop_isSome hinv.number (hinv.coherent.ready hget waits)
  · obtain ⟨hflush, -, hnil, -⟩ := hinv.coherent.flush
    exact (hflush.stored hnil hb).symm

/-- A byte in the middle of a stream of three bytes is written, and is in the stream behind a
    flush. -/
theorem cache_coherence_write :
    let hash : HashCode := fun _ _ => 0
    let store : Store := ⟨3, fun x => if x = 0 then 1 else 2, 2, by decide⟩
    ∃ s : CacheState, (cacheSystem hash [1] 7).Reachable (s, (File.ofStore store).write [9] 1) ∧
      s.flush.backingStore.data 1 = 9 ∧ s.flush.backingStore.data 0 = 1 := by
  intro hash store
  let fresh : CacheState := .create (.init [1] fun _ _ => 0) 7 store 0 512
  have hstart : (cacheSystem hash [1] 7).Reachable (fresh, .ofStore store) :=
    .start ⟨_, store, 0, 512, .start ⟨List.nodup_singleton 1, fun _ _ => 0, rfl⟩, rfl, nofun,
      by decide, by decide, by decide, rfl⟩
  let op : CacheOp hash [1] 7 := .write [9] 1 (fun _ => 0) []
  obtain ⟨s, hs⟩ : ∃ s, CacheState.step (fresh, .ofStore store) op =
      some (s, (File.ofStore store).write [9] 1) := ⟨_, rfl⟩
  have hrun : (cacheSystem hash [1] 7).Reachable (s, (File.ofStore store).write [9] 1) :=
    hstart.next (l := op) trivial hs
  have hflushed := (cache_coherence hash [1] 7 s _ hrun).2.2.2
  exact ⟨s, hrun, (hflushed 1 9 rfl).2, (hflushed 0 1 rfl).2⟩

end EsOs.Kernel
