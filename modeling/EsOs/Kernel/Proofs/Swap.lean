import EsOs.Lib.Chain
import EsOs.Kernel.Swap

/-!
# The slots of the swap space over any run

The free slots of a record are those without references, and its links lead over each of them once.
A slot's count of references is what the calls on it have taken and not put back, as long as a slot
is restored only while it is held, by fewer than 65535 references.
-/

namespace EsOs.Kernel

open EsOs.Lib

namespace Swap

/-- The links of a record lead over its free slots. -/
def SwapUse.Linked (use : SwapUse) : Prop :=
  ∃ l, Chain use.map (NUM_ENTRIES ≤ ·) use.freeIndex l ∧ l.length = use.freeCount ∧
    ∀ n < NUM_ENTRIES, n ∈ l ↔ use.ref n = 0

namespace SwapUse

variable {use : SwapUse} {n : Nat}

/-- The free slots are counted. -/
theorem Linked.freeCount_eq (h : use.Linked) :
    use.freeCount = (List.range NUM_ENTRIES).countP fun n => use.ref n = 0 := by
  obtain ⟨l, hchain, hlength, hfree⟩ := h
  rw [← hlength, List.countP_eq_length_filter]
  refine List.Perm.length_eq ((List.perm_ext_iff_of_nodup hchain.nodup
    (List.nodup_range.filter _)).mpr fun n => ?_)
  rw [List.mem_filter, List.mem_range, decide_eq_true_eq]
  refine ⟨fun hn => ?_, fun hn => (hfree n hn.1).mpr hn.2⟩
  have hlt := Nat.lt_of_not_ge (hchain.nodes n hn)
  exact ⟨hlt, (hfree n hlt).mp hn⟩

theorem Linked.freeCount_le (h : use.Linked) : use.freeCount ≤ NUM_ENTRIES := by
  rw [h.freeCount_eq]
  exact Nat.le_trans List.countP_le_length (Nat.le_of_eq List.length_range)

/-- The links of a new record. -/
theorem path_range (k n : Nat) : Path (· + 1) k (List.range' k n) (k + n) := by
  induction n generalizing k with
  | zero => rfl
  | succ n ih =>
    rw [List.range'_succ]
    refine ⟨rfl, ?_⟩
    have := ih (k + 1)
    rwa [Nat.add_right_comm] at this

theorem new_linked (offset : Nat) : (SwapUse.new offset).Linked := by
  show ∃ l, Chain (· + 1) (NUM_ENTRIES ≤ ·) 0 l ∧ l.length = NUM_ENTRIES ∧
    ∀ n < NUM_ENTRIES, n ∈ l ↔ 0 = 0
  generalize NUM_ENTRIES = count
  refine ⟨List.range' 0 count, ⟨fun n hn => ?_, 0 + count, path_range 0 count, ?_⟩,
    List.length_range', fun n hn => ?_⟩
  · rw [List.mem_range'_1] at hn
    omega
  · omega
  · rw [List.mem_range'_1]
    exact iff_of_true (by omega) rfl

/-- The first free slot is taken. -/
theorem Linked.takeFirst (h : use.Linked) (hpos : 0 < use.freeCount) :
    use.freeIndex < NUM_ENTRIES ∧ use.ref use.freeIndex = 0 ∧ use.takeFirst.Linked ∧
      use.takeFirst.freeCount + 1 = use.freeCount := by
  obtain ⟨l, hchain, hlength, hfree⟩ := h
  obtain _ | ⟨a, l⟩ := l
  · exact absurd hlength (Nat.ne_of_lt hpos)
  obtain ⟨rfl, hrest⟩ := hchain.head
  have hlt : use.freeIndex < NUM_ENTRIES := Nat.lt_of_not_ge (hchain.nodes _ List.mem_cons_self)
  have hzero : use.ref use.freeIndex = 0 := (hfree _ hlt).mp List.mem_cons_self
  have hout := (List.nodup_cons.mp hchain.nodup).1
  have hcount : use.takeFirst.freeCount + 1 = use.freeCount := by
    simp only [SwapUse.takeFirst, decrement, if_neg (Nat.ne_of_gt hpos)]
    omega
  refine ⟨hlt, hzero, ⟨l, hrest, ?_, fun n hn => ?_⟩, hcount⟩
  · rw [List.length_cons] at hlength
    omega
  · by_cases hna : n = use.freeIndex
    · subst hna
      refine iff_of_false hout ?_
      simp [SwapUse.takeFirst, hzero]
    · have href : use.takeFirst.ref n = use.ref n := Function.update_of_ne hna _ _
      rw [href, ← hfree n hn, List.mem_cons]
      exact (or_iff_right hna).symm

/-- A slot that is held gets one more reference. -/
theorem Linked.addRef (h : use.Linked) (hpos : 0 < use.ref n) (hlt : use.ref n < 65535) :
    (use.addRef n).Linked ∧ (use.addRef n).ref n = use.ref n + 1 := by
  have hself : (use.addRef n).ref n = use.ref n + 1 := by
    simp only [SwapUse.addRef, Function.update_self]
    omega
  obtain ⟨l, hchain, hlength, hfree⟩ := h
  refine ⟨⟨l, hchain, hlength, fun m hm => ?_⟩, hself⟩
  rw [hfree m hm]
  by_cases hmn : m = n
  · subst hmn
    omega
  · have href : (use.addRef n).ref m = use.ref m := Function.update_of_ne hmn _ _
    rw [href]

/-- A reference is dropped that is not the last one. -/
theorem Linked.dropRef (h : use.Linked) (hmore : 1 < use.ref n) :
    (use.dropRef n).Linked ∧ (use.dropRef n).ref n + 1 = use.ref n := by
  have hself : (use.dropRef n).ref n + 1 = use.ref n := by
    simp only [SwapUse.dropRef, decrement, Function.update_self, if_neg (by omega : use.ref n ≠ 0)]
    omega
  obtain ⟨l, hchain, hlength, hfree⟩ := h
  refine ⟨⟨l, hchain, hlength, fun m hm => ?_⟩, hself⟩
  rw [hfree m hm]
  by_cases hmn : m = n
  · subst hmn
    omega
  · have href : (use.dropRef n).ref m = use.ref m := Function.update_of_ne hmn _ _
    rw [href]

/-- The last reference to a slot is dropped. -/
theorem Linked.linkFirst (h : use.Linked) (hn : n < NUM_ENTRIES) (hlast : use.ref n = 1) :
    ((use.dropRef n).linkFirst n).Linked ∧
      ((use.dropRef n).linkFirst n).freeCount = use.freeCount + 1 := by
  have hself : (use.dropRef n).ref n = 0 := by
    simp [SwapUse.dropRef, decrement, hlast]
  have hle := h.freeCount_le
  have hcount : ((use.dropRef n).linkFirst n).freeCount = use.freeCount + 1 := by
    simp only [SwapUse.linkFirst, SwapUse.dropRef, NUM_ENTRIES] at hle ⊢
    omega
  obtain ⟨l, hchain, hlength, hfree⟩ := h
  have hout : n ∉ l := by
    rw [hfree n hn]
    omega
  refine ⟨⟨n :: l, hchain.push hout (Nat.not_le_of_gt hn), ?_, fun m hm => ?_⟩, hcount⟩
  · rw [List.length_cons, hcount, hlength]
  · rw [List.mem_cons, hfree m hm]
    by_cases hmn : m = n
    · subst hmn
      exact iff_of_true (.inl rfl) hself
    · have href : ((use.dropRef n).linkFirst n).ref m = use.ref m :=
        Function.update_of_ne hmn _ _
      rw [href]
      exact or_iff_right hmn

end SwapUse

section slots

variable {base offset n : Nat}

theorem recordOf_mod (offset : Nat) : recordOf offset % STRETCH = 0 := by
  unfold recordOf STRETCH
  omega

theorem slot_of_offset (hbase : base % STRETCH = 0) (hn : n < NUM_ENTRIES) :
    recordOf (base + 4096 * (1 + n)) = base ∧ indexOf (base + 4096 * (1 + n)) = n := by
  unfold recordOf indexOf
  unfold STRETCH at *
  unfold NUM_ENTRIES at hn
  omega

theorem indexOf_toNat (h : ¬ indexOf offset < 0) :
    ((indexOf offset).toNat : Int) = indexOf offset ∧ (indexOf offset).toNat < NUM_ENTRIES := by
  unfold indexOf at *
  unfold NUM_ENTRIES
  unfold STRETCH at *
  omega

end slots

/-- A record is in the list that its count of free slots tells. -/
structure Listed (s : Swap) : Prop where
  nodup_free : s.freeList.Nodup
  nodup_full : s.fullList.Nodup
  mem_free : ∀ base, base ∈ s.freeList ↔ ∃ use, s.uses base = some use ∧ 0 < use.freeCount
  mem_full : ∀ base, base ∈ s.fullList ↔ ∃ use, s.uses base = some use ∧ use.freeCount = 0

theorem nodup_snoc {l : List Nat} {a : Nat} (hl : l.Nodup) (ha : a ∉ l) : (l ++ [a]).Nodup := by
  refine List.nodup_append.mpr ⟨hl, List.nodup_cons.mpr ⟨List.not_mem_nil, List.nodup_nil⟩, ?_⟩
  rintro b hb c hc rfl
  rw [List.mem_singleton.mp hc] at hb
  exact ha hb

section lists

variable {s : Swap} {use use' : SwapUse} {base : Nat}

theorem setUse_self (s : Swap) (use : SwapUse) : (s.setUse use).uses use.offset = some use :=
  Function.update_self _ _ _

theorem setUse_of_ne (s : Swap) (h : base ≠ use.offset) : (s.setUse use).uses base = s.uses base :=
  Function.update_of_ne h _ _

theorem taken_uses (s : Swap) (use : SwapUse) : (s.taken use).uses = s.uses := by
  unfold taken
  split <;> rfl

theorem taken_size (s : Swap) (use : SwapUse) : (s.taken use).size = s.size := by
  unfold taken
  split <;> rfl

theorem putBack_uses (s : Swap) (use : SwapUse) : (s.putBack use).uses = s.uses := by
  unfold putBack
  split <;> rfl

theorem putBack_size (s : Swap) (use : SwapUse) : (s.putBack use).size = s.size := by
  unfold putBack
  split <;> rfl

/-- Lists that differ from those before at one record only. -/
theorem Listed.change (h : s.Listed) (hoffset : use'.offset = base) {free full : List Nat}
    (hfree : free.Nodup) (hfull : full.Nodup)
    (hne : ∀ b, b ≠ base → (b ∈ free ↔ b ∈ s.freeList) ∧ (b ∈ full ↔ b ∈ s.fullList))
    (hself : (base ∈ free ↔ 0 < use'.freeCount) ∧ (base ∈ full ↔ use'.freeCount = 0)) :
    Listed { s.setUse use' with freeList := free, fullList := full } := by
  subst hoffset
  have hrecord : ∀ b (P : SwapUse → Prop), b = use'.offset →
      ((∃ u, (s.setUse use').uses b = some u ∧ P u) ↔ P use') := by
    rintro b P rfl
    rw [setUse_self]
    exact ⟨fun ⟨u, hu, hP⟩ => Option.some.inj hu ▸ hP, fun hP => ⟨use', rfl, hP⟩⟩
  refine ⟨hfree, hfull, fun b => ?_, fun b => ?_⟩
  · show b ∈ free ↔ ∃ u, (s.setUse use').uses b = some u ∧ 0 < u.freeCount
    by_cases hb : b = use'.offset
    · rw [hrecord b (fun u => 0 < u.freeCount) hb, hb]
      exact hself.1
    · rw [setUse_of_ne s hb, (hne b hb).1]
      exact h.mem_free b
  · show b ∈ full ↔ ∃ u, (s.setUse use').uses b = some u ∧ u.freeCount = 0
    by_cases hb : b = use'.offset
    · rw [hrecord b (fun u => u.freeCount = 0) hb, hb]
      exact hself.2
    · rw [setUse_of_ne s hb, (hne b hb).2]
      exact h.mem_full b

theorem Listed.free_iff (h : s.Listed) (huse : s.uses base = some use) :
    base ∈ s.freeList ↔ 0 < use.freeCount := by
  rw [h.mem_free]
  exact ⟨fun ⟨u, hu, hpos⟩ => Option.some.inj (huse.symm.trans hu) ▸ hpos,
    fun hpos => ⟨use, huse, hpos⟩⟩

theorem Listed.full_iff (h : s.Listed) (huse : s.uses base = some use) :
    base ∈ s.fullList ↔ use.freeCount = 0 := by
  rw [h.mem_full]
  exact ⟨fun ⟨u, hu, hzero⟩ => Option.some.inj (huse.symm.trans hu) ▸ hzero,
    fun hzero => ⟨use, huse, hzero⟩⟩

/-- A record whose count of free slots stays. -/
theorem Listed.setUse (h : s.Listed) (huse : s.uses base = some use) (hoffset : use'.offset = base)
    (hcount : use'.freeCount = use.freeCount) : (s.setUse use').Listed := by
  refine h.change hoffset h.nodup_free h.nodup_full (fun _ _ => ⟨Iff.rfl, Iff.rfl⟩) ?_
  rw [hcount]
  exact ⟨h.free_iff huse, h.full_iff huse⟩

/-- A record with one free slot less. -/
theorem Listed.taken (h : s.Listed) (huse : s.uses base = some use) (hoffset : use'.offset = base)
    (hcount : use'.freeCount + 1 = use.freeCount) : ((s.setUse use').taken use').Listed := by
  have hfree := (h.free_iff huse).mpr (by omega)
  have hfull : base ∉ s.fullList := by
    rw [h.full_iff huse]
    omega
  unfold Swap.taken
  split
  · rename_i hzero
    rw [hoffset]
    refine h.change hoffset (h.nodup_free.erase base)
      (nodup_snoc h.nodup_full hfull) (fun b hb => ⟨?_, ?_⟩)
      ⟨iff_of_false (h.nodup_free.not_mem_erase) (by omega), iff_of_true ?_ (by omega)⟩
    · exact List.mem_erase_of_ne hb
    · rw [List.mem_append, List.mem_singleton]
      exact or_iff_left hb
    · exact List.mem_append_right _ (List.mem_singleton.mpr rfl)
  · exact h.change hoffset h.nodup_free h.nodup_full (fun _ _ => ⟨Iff.rfl, Iff.rfl⟩)
      ⟨iff_of_true hfree (by omega), iff_of_false hfull (by omega)⟩

/-- A record with one free slot more. -/
theorem Listed.putBack (h : s.Listed) (huse : s.uses base = some use) (hoffset : use'.offset = base)
    (hcount : use'.freeCount = use.freeCount + 1) : ((s.setUse use').putBack use').Listed := by
  unfold Swap.putBack
  split
  · rename_i hone
    have hfree : base ∉ s.freeList := by
      rw [h.free_iff huse]
      omega
    rw [hoffset]
    refine h.change hoffset
      (nodup_snoc h.nodup_free hfree) (h.nodup_full.erase base) (fun b hb => ⟨?_, ?_⟩)
      ⟨iff_of_true ?_ (by omega), iff_of_false (h.nodup_full.not_mem_erase) (by omega)⟩
    · rw [List.mem_append, List.mem_singleton]
      exact or_iff_left hb
    · exact List.mem_erase_of_ne hb
    · exact List.mem_append_right _ (List.mem_singleton.mpr rfl)
  · refine h.change hoffset h.nodup_free h.nodup_full (fun _ _ => ⟨Iff.rfl, Iff.rfl⟩) ⟨?_, ?_⟩
    · rw [h.free_iff huse]
      omega
    · rw [h.full_iff huse]
      omega

end lists

end Swap

namespace SwapRun

open Swap

variable {s s' : SwapRun} {use use' : SwapUse} {base offset n : Nat}

/-- What holds after every call. -/
structure Kept (s : SwapRun) : Prop where
  listed : s.swap.Listed
  size_mod : s.swap.size % STRETCH = 0
  size_lt : s.swap.size < 2147483648
  record : ∀ base use, s.swap.uses base = some use →
    base % STRETCH = 0 ∧ base < s.swap.size ∧ use.offset = base ∧ use.Linked
  refs : ∀ base use, s.swap.uses base = some use → ∀ n < NUM_ENTRIES,
    (use.ref n : Int) = s.held (base, (n : Int)) ∧ use.ref n < 65536
  outside : ∀ base n, s.swap.uses base = none ∨ n < 0 → s.held (base, n) = 0

/-- A record changes at one slot, as what is held of that slot does. -/
theorem Kept.change (hs : s.Kept) (huse : s.swap.uses base = some use)
    (hn : n < NUM_ENTRIES) (hlinked : use'.Linked) (hoffset : use'.offset = use.offset)
    (hother : ∀ m, m ≠ n → use'.ref m = use.ref m) (hlt : use'.ref n < 65536)
    (hlisted : s'.swap.Listed) (huses : s'.swap.uses = (s.swap.setUse use').uses)
    (hsize : s'.swap.size = s.swap.size)
    (hheld : ∀ slot, s'.held slot =
      s.held slot + if slot = (base, (n : Int)) then (use'.ref n : Int) - use.ref n else 0) :
    s'.Kept := by
  obtain ⟨hmod, hbound, hbase, -⟩ := hs.record base use huse
  have hself : s'.swap.uses base = some use' := by
    rw [huses, ← hbase, ← hoffset]
    exact setUse_self _ _
  have hrest : ∀ b, b ≠ base → s'.swap.uses b = s.swap.uses b := by
    intro b hb
    rw [huses]
    exact setUse_of_ne _ (by rw [hoffset, hbase]; exact hb)
  refine ⟨hlisted, by rw [hsize]; exact hs.size_mod, by rw [hsize]; exact hs.size_lt,
    fun b u hu => ?_, fun b u hu m hm => ?_, fun b m hu => ?_⟩
  · rw [hsize]
    by_cases hb : b = base
    · subst hb
      obtain rfl := Option.some.inj (hself.symm.trans hu)
      exact ⟨hmod, hbound, hoffset.trans hbase, hlinked⟩
    · rw [hrest b hb] at hu
      exact hs.record b u hu
  · rw [hheld]
    by_cases hb : b = base
    · subst hb
      obtain rfl := Option.some.inj (hself.symm.trans hu)
      have hold := hs.refs b use huse m hm
      by_cases hmn : m = n
      · subst hmn
        rw [if_pos rfl]
        omega
      · rw [if_neg (fun h => hmn (Int.ofNat_inj.mp (Prod.mk.inj h).2)), hother m hmn]
        omega
    · rw [hrest b hb] at hu
      rw [if_neg (fun h => hb (Prod.mk.inj h).1), Int.add_zero]
      exact hs.refs b u hu m hm
  · have hne : (b, m) ≠ (base, (n : Int)) := by
      intro h
      obtain ⟨rfl, rfl⟩ := Prod.mk.inj h
      rw [hself] at hu
      rcases hu with hu | hu
      · cases hu
      · omega
    rw [hheld, if_neg hne, Int.add_zero]
    refine hs.outside b m (hu.imp_left fun hu => ?_)
    by_cases hb : b = base
    · rw [hb, hself] at hu
      cases hu
    · exact (hrest b hb).symm.trans hu

theorem held_take (s : SwapRun) (swap : Swap) (slot slot' : Nat × Int) :
    held { s with swap := swap, takes := slot :: s.takes } slot' =
      s.held slot' + if slot' = slot then 1 else 0 := by
  unfold held
  rw [List.count_cons]
  by_cases h : slot' = slot
  · rw [if_pos h, if_pos (by simp [h])]
    dsimp only
    omega
  · rw [if_neg h, if_neg (by simpa using Ne.symm h)]
    dsimp only
    omega

theorem held_put (s : SwapRun) (swap : Swap) (slot slot' : Nat × Int) :
    held { s with swap := swap, puts := slot :: s.puts } slot' =
      s.held slot' + if slot' = slot then -1 else 0 := by
  unfold held
  rw [List.count_cons]
  by_cases h : slot' = slot
  · rw [if_pos h, if_pos (by simp [h])]
    dsimp only
    omega
  · rw [if_neg h, if_neg (by simpa using Ne.symm h)]
    dsimp only
    omega

theorem Fresh.kept (h : s.Fresh) : s.Kept := by
  obtain ⟨cacheSize, rfl⟩ := h
  refine ⟨⟨List.nodup_nil, List.nodup_nil, fun b => ?_, fun b => ?_⟩, rfl, Nat.two_pow_pos 31, nofun,
    nofun, fun _ _ _ => rfl⟩
  · exact iff_of_false List.not_mem_nil nofun
  · exact iff_of_false List.not_mem_nil nofun

/-- A slot that is taken from a record. -/
structure Took (s : SwapRun) (offset : Nat) (swap : Swap) : Prop where
  free : ∀ use, s.swap.uses (recordOf offset) = some use → use.ref (indexOf offset).toNat = 0
  unheld : s.held (slotOf offset) = 0
  kept : Kept { s with swap := swap, takes := slotOf offset :: s.takes }

theorem take_spec (hs : s.Kept) (hfree : s.swap.freeList ≠ []) :
    ∃ offset page swap, s.swap.take = some (offset, page, swap) ∧ s.Took offset swap := by
  unfold Swap.take
  cases hlist : s.swap.freeList with
  | nil => exact absurd hlist hfree
  | cons base l =>
    have hmem : base ∈ s.swap.freeList := by
      rw [hlist]
      exact List.mem_cons_self
    obtain ⟨use, huse, hpos⟩ := (hs.listed.mem_free base).mp hmem
    obtain ⟨hmod, -, hbase, hlinked⟩ := hs.record base use huse
    obtain ⟨hlt, hzero, hlinked', hcount⟩ := hlinked.takeFirst hpos
    obtain ⟨hrecord, hindex⟩ := slot_of_offset hmod hlt
    have hslot : slotOf (base + 4096 * (1 + use.freeIndex)) = (base, (use.freeIndex : Int)) :=
      Prod.ext hrecord hindex
    have hself : use.takeFirst.ref use.freeIndex = 1 := by
      simp [SwapUse.takeFirst, hzero]
    have hrefs := (hs.refs base use huse use.freeIndex hlt).1
    dsimp only
    rw [huse]
    dsimp only
    rw [if_neg (Nat.not_le_of_gt hlt), hbase]
    refine ⟨_, _, _, rfl, fun u hu => ?_, ?_, ?_⟩
    · rw [hrecord] at hu
      obtain rfl := Option.some.inj (huse.symm.trans hu)
      rw [hindex]
      exact hzero
    · rw [hslot, ← hrefs, hzero]
      rfl
    · rw [hslot]
      refine hs.change huse hlt hlinked' rfl
        (fun m hm => Function.update_of_ne hm _ _) (by rw [hself]; decide)
        (hs.listed.taken huse hbase hcount) (taken_uses _ _) (taken_size _ _) fun slot => ?_
      rw [held_take, hself, hzero]
      rfl

theorem extend_kept (hs : s.Kept) (hroom : s.swap.size + STRETCH < 2147483648) :
    Kept { s with swap := s.swap.extend } := by
  have hnew : s.swap.uses s.swap.size = none := by
    cases h : s.swap.uses s.swap.size with
    | none => rfl
    | some use => exact absurd (hs.record _ _ h).2.1 (Nat.lt_irrefl _)
  have hout : ∀ u, s.swap.uses s.swap.size ≠ some u := by
    intro u hu
    rw [hnew] at hu
    cases hu
  have hfree : s.swap.size ∉ s.swap.freeList := by
    rw [hs.listed.mem_free]
    exact fun ⟨u, hu, _⟩ => hout u hu
  have hfull : s.swap.size ∉ s.swap.fullList := by
    rw [hs.listed.mem_full]
    exact fun ⟨u, hu, _⟩ => hout u hu
  have hself : s.swap.extend.uses s.swap.size = some (SwapUse.new s.swap.size) :=
    setUse_self s.swap (SwapUse.new s.swap.size)
  have hrest : ∀ b, b ≠ s.swap.size → s.swap.extend.uses b = s.swap.uses b :=
    fun b hb => @setUse_of_ne (SwapUse.new s.swap.size) b s.swap hb
  have hmod := hs.size_mod
  have hsize : s.swap.extend.size = s.swap.size + STRETCH := rfl
  have hoffset : (SwapUse.new s.swap.size).offset = s.swap.size := rfl
  have hlisted := hs.listed.change hoffset (nodup_snoc hs.listed.nodup_free hfree)
    hs.listed.nodup_full
    (fun b hb => ⟨List.mem_append.trans (or_iff_left fun h => hb (List.mem_singleton.mp h)), Iff.rfl⟩)
    ⟨iff_of_true (List.mem_append_right _ (List.mem_singleton.mpr rfl)) (Nat.zero_lt_succ _),
      iff_of_false hfull (Nat.succ_ne_zero _)⟩
  refine ⟨?_, ?_, hroom, fun b u hu => ?_, fun b u hu n hn => ?_, fun b n hu => ?_⟩
  · exact ⟨hlisted.nodup_free, hlisted.nodup_full, hlisted.mem_free, hlisted.mem_full⟩
  · show s.swap.extend.size % STRETCH = 0
    rw [hsize, Nat.add_mod_right]
    exact hmod
  · show b % STRETCH = 0 ∧ b < s.swap.extend.size ∧ _
    rw [hsize]
    by_cases hb : b = s.swap.size
    · subst hb
      obtain rfl := Option.some.inj (hself.symm.trans hu)
      exact ⟨hmod, Nat.lt_add_of_pos_right (by decide), rfl, SwapUse.new_linked _⟩
    · obtain ⟨h₁, h₂, h₃, h₄⟩ := hs.record b u ((hrest b hb).symm.trans hu)
      exact ⟨h₁, Nat.lt_add_right _ h₂, h₃, h₄⟩
  · by_cases hb : b = s.swap.size
    · subst hb
      obtain rfl := Option.some.inj (hself.symm.trans hu)
      exact ⟨(hs.outside _ _ (.inl hnew)).symm, Nat.zero_lt_succ _⟩
    · exact hs.refs b u ((hrest b hb).symm.trans hu) n hn
  · refine hs.outside b n (hu.imp_left fun hu => ?_)
    by_cases hb : b = s.swap.size
    · rw [hb, hself] at hu
      cases hu
    · exact (hrest b hb).symm.trans hu

/-- The record of a slot that is held. -/
theorem Kept.record_of_held (hs : s.Kept) (hheld : 0 < s.held (slotOf offset)) :
    ¬ indexOf offset < 0 ∧ ∃ use, s.swap.uses (recordOf offset) = some use ∧
      (use.ref (indexOf offset).toNat : Int) = s.held (slotOf offset) := by
  have hindex : ¬ indexOf offset < 0 := by
    intro h
    have := hs.outside (recordOf offset) (indexOf offset) (.inr h)
    unfold slotOf at hheld
    omega
  obtain ⟨hn, hlt⟩ := indexOf_toNat hindex
  refine ⟨hindex, ?_⟩
  cases h : s.swap.uses (recordOf offset) with
  | none =>
    have := hs.outside (recordOf offset) (indexOf offset) (.inl h)
    unfold slotOf at hheld
    omega
  | some use =>
    have hrefs := (hs.refs _ use h _ hlt).1
    rw [hn] at hrefs
    exact ⟨use, rfl, hrefs⟩

theorem restore_spec (hs : s.Kept) (hheld : 0 < s.held (slotOf offset))
    (hlt : s.held (slotOf offset) < 65535) :
    ∃ page swap, s.swap.restore offset = some (page, swap) ∧
      (page = false → swap = s.swap) ∧
      (page = true → Kept { s with swap := swap, takes := slotOf offset :: s.takes }) := by
  obtain ⟨hindex, use, huse, href⟩ := hs.record_of_held hheld
  obtain ⟨hn, hbound⟩ := indexOf_toNat hindex
  obtain ⟨-, -, hbase, hlinked⟩ := hs.record _ use huse
  unfold Swap.restore
  split
  · exact ⟨false, s.swap, rfl, fun _ => rfl, nofun⟩
  · simp only [huse]
    refine ⟨true, _, rfl, nofun, fun _ => ?_⟩
    have hslot : slotOf offset = (recordOf offset, ((indexOf offset).toNat : Int)) :=
      Prod.ext rfl hn.symm
    generalize hm : (indexOf offset).toNat = n at *
    obtain ⟨hlinked', hself⟩ := hlinked.addRef (n := n) (by omega) (by omega)
    refine hs.change huse hbound hlinked' rfl
      (fun m hm => Function.update_of_ne hm _ _) (by rw [hself]; omega)
      (hs.listed.setUse huse hbase rfl) rfl rfl fun slot => ?_
    rw [held_take, hslot, hself]
    split <;> omega

theorem put_spec (hs : s.Kept) (hheld : 0 < s.held (slotOf offset)) :
    ∃ swap, s.swap.put offset = some swap ∧
      Kept { s with swap := swap, puts := slotOf offset :: s.puts } := by
  obtain ⟨hindex, use, huse, href⟩ := hs.record_of_held hheld
  obtain ⟨hn, hbound⟩ := indexOf_toNat hindex
  obtain ⟨-, -, hbase, hlinked⟩ := hs.record _ use huse
  unfold Swap.put
  rw [huse]
  dsimp only
  rw [if_neg hindex]
  have hslot : slotOf offset = (recordOf offset, ((indexOf offset).toNat : Int)) :=
    Prod.ext rfl hn.symm
  generalize hm : (indexOf offset).toNat = n at *
  by_cases hlast : use.ref n = 1
  · have hself : (use.dropRef n).ref n = 0 := by
      simp [SwapUse.dropRef, decrement, hlast]
    obtain ⟨hlinked', hcount⟩ := hlinked.linkFirst hbound hlast
    rw [if_pos hself]
    refine ⟨_, rfl, hs.change huse hbound hlinked' rfl
      (fun m hm => Function.update_of_ne hm _ _) (Nat.lt_of_le_of_lt (Nat.le_of_eq hself) (by decide))
      (hs.listed.putBack huse hbase hcount) (putBack_uses _ _) (putBack_size _ _) fun slot => ?_⟩
    rw [held_put, hslot, hlast, show ((use.dropRef n).linkFirst n).ref n = 0 from hself]
    rfl
  · obtain ⟨hlinked', hself⟩ := hlinked.dropRef (n := n) (by omega)
    rw [if_neg (by omega)]
    have hbelow := (hs.refs _ use huse n hbound).2
    refine ⟨_, rfl, hs.change huse hbound hlinked' rfl
      (fun m hm => Function.update_of_ne hm _ _) (by omega)
      (hs.listed.setUse huse hbase rfl) rfl rfl fun slot => ?_⟩
    rw [held_put, hslot]
    split <;> omega

theorem Took.of_extend (hs : s.Kept) {swap : Swap}
    (h : Took { s with swap := s.swap.extend } offset swap) : s.Took offset swap := by
  refine ⟨fun use huse => h.free use ?_, h.unheld, h.kept⟩
  have hlt := (hs.record _ use huse).2.1
  have hne : recordOf offset ≠ (SwapUse.new s.swap.size).offset := Nat.ne_of_lt hlt
  exact (setUse_of_ne s.swap hne).trans huse

/-- `get` takes a free slot, or nothing. -/
theorem get_spec (hs : s.Kept) {slot : Option (Nat × Bool)} {swap : Swap}
    (h : s.swap.get = some (slot, swap)) :
    (slot = none ∧ swap = s.swap) ∨ ∃ offset page, slot = some (offset, page) ∧ s.Took offset swap := by
  unfold Swap.get at h
  split at h
  · split at h
    · cases h
      exact .inl ⟨rfl, rfl⟩
    · split at h
      · cases h
      · rename_i hroom
        have hroom : s.swap.size + STRETCH < 2147483648 := by omega
        obtain ⟨offset, page, swap', htake, htook⟩ :=
          take_spec (extend_kept hs hroom) (List.append_ne_nil_of_right_ne_nil _ (List.cons_ne_nil _ _))
        rw [show s.swap.extend.take = _ from htake] at h
        cases h
        exact .inr ⟨offset, page, rfl, htook.of_extend hs⟩
  · rename_i hlist
    obtain ⟨offset, page, swap', htake, htook⟩ :=
      take_spec hs (fun hnil => hlist (by rw [hnil]; rfl))
    rw [htake] at h
    cases h
    exact .inr ⟨offset, page, rfl, htook⟩

theorem get_result (hs : s.Kept) (hroom : s.swap.size + STRETCH < 2147483648) :
    ∃ r, s.swap.get = some r := by
  unfold Swap.get
  split
  · split
    · exact ⟨_, rfl⟩
    · rw [if_neg (Nat.not_le_of_gt hroom)]
      obtain ⟨offset, page, swap', htake, -⟩ :=
        take_spec (extend_kept hs hroom) (List.append_ne_nil_of_right_ne_nil _ (List.cons_ne_nil _ _))
      rw [show s.swap.extend.take = _ from htake]
      exact ⟨_, rfl⟩
  · rename_i hlist
    obtain ⟨offset, page, swap', htake, -⟩ :=
      take_spec hs (fun hnil => hlist (by rw [hnil]; rfl))
    rw [htake]
    exact ⟨_, rfl⟩

/-- A put or a restore is of a slot that is held, and a restore of one with less than 65535
    references. -/
def Meets (s : SwapRun) : SwapCall → Prop
  | .get => True
  | .restore offset => 0 < s.held (slotOf offset) ∧ s.held (slotOf offset) < 65535
  | .put offset => 0 < s.held (slotOf offset)

instance (s : SwapRun) (call : SwapCall) : Decidable (s.Meets call) :=
  match call with
  | .get => inferInstanceAs (Decidable True)
  | .restore _ => inferInstanceAs (Decidable (_ ∧ _))
  | .put _ => inferInstanceAs (Decidable (_ < _))

/-- A call that meets the condition keeps what holds. -/
theorem Kept.step (hs : s.Kept) {call : SwapCall} (hmeets : s.Meets call)
    (h : s.step call = some s') : s'.Kept := by
  cases call with
  | get =>
    obtain ⟨⟨slot, swap⟩, hget, rfl⟩ := Option.map_eq_some_iff.mp h
    rcases get_spec hs hget with ⟨rfl, rfl⟩ | ⟨offset, page, rfl, htook⟩
    · exact hs
    · exact htook.kept
  | restore offset =>
    obtain ⟨page, swap, hrestore, hmissing, hkept⟩ := restore_spec hs hmeets.1 hmeets.2
    simp only [SwapRun.step, hrestore, Option.map_some] at h
    cases h
    cases page with
    | false =>
      rw [hmissing rfl]
      exact hs
    | true => exact hkept rfl
  | put offset =>
    obtain ⟨swap, hput, hkept⟩ := put_spec hs hmeets
    simp only [SwapRun.step, hput, Option.map_some] at h
    cases h
    exact hkept

theorem kept_of_run (h : system.RunWith Meets s) : s.Kept :=
  h.invariant Kept (fun _ => Fresh.kept) fun _ _ _ hs hmeets hstep => hs.step hmeets hstep

/-- In every run whose calls meet the condition the references to a slot are those that are held, the
    links of a record lead over its free slots, and the two lists tell the records with a free slot
    from those without; `get` takes a slot that nobody holds, and every call has a result while the
    swap space has room below 2 GB. -/
theorem slots_kept (s : SwapRun) (h : system.RunWith Meets s) :
    (∀ base use, s.swap.uses base = some use →
      (∀ n < NUM_ENTRIES, (use.ref n : Int) = s.held (base, (n : Int))) ∧
      use.freeCount = ((List.range NUM_ENTRIES).countP fun n => use.ref n = 0) ∧
      (∃ l, Chain use.map (NUM_ENTRIES ≤ ·) use.freeIndex l ∧ l.Nodup ∧
        ∀ n, n ∈ l ↔ n < NUM_ENTRIES ∧ use.ref n = 0) ∧
      (base ∈ s.swap.freeList ↔ 0 < use.freeCount) ∧
      (base ∈ s.swap.fullList ↔ ¬ 0 < use.freeCount)) ∧
    s.swap.freeList.Nodup ∧ s.swap.fullList.Nodup ∧
    (∀ base, base ∈ s.swap.freeList ∨ base ∈ s.swap.fullList → (s.swap.uses base).isSome) ∧
    (∀ offset page swap, s.swap.get = some (some (offset, page), swap) →
      s.held (slotOf offset) = 0 ∧
      ∀ use, s.swap.uses (recordOf offset) = some use → use.ref (indexOf offset).toNat = 0) ∧
    ∀ call, s.Meets call → s.swap.size + STRETCH < 2147483648 → ∃ s', s.step call = some s' := by
  have hs := kept_of_run h
  refine ⟨fun base use huse => ⟨fun n hn => (hs.refs base use huse n hn).1, ?_, ?_,
    hs.listed.free_iff huse, ?_⟩, hs.listed.nodup_free, hs.listed.nodup_full, ?_, ?_, ?_⟩
  · exact (hs.record base use huse).2.2.2.freeCount_eq
  · obtain ⟨l, hchain, -, hfree⟩ := (hs.record base use huse).2.2.2
    refine ⟨l, hchain, hchain.nodup, fun n => ⟨fun hn => ?_, fun hn => (hfree n hn.1).mpr hn.2⟩⟩
    have hlt := Nat.lt_of_not_ge (hchain.nodes n hn)
    exact ⟨hlt, (hfree n hlt).mp hn⟩
  · rw [hs.listed.full_iff huse]
    omega
  · rintro base (hbase | hbase)
    · obtain ⟨use, huse, -⟩ := (hs.listed.mem_free base).mp hbase
      rw [huse]
      rfl
    · obtain ⟨use, huse, -⟩ := (hs.listed.mem_full base).mp hbase
      rw [huse]
      rfl
  · intro offset page swap hget
    rcases get_spec hs hget with ⟨h, -⟩ | ⟨_, _, h, htook⟩
    · cases h
    · cases h
      exact ⟨htook.unheld, htook.free⟩
  · intro call hmeets hroom
    cases call with
    | get =>
      obtain ⟨r, hr⟩ := get_result hs hroom
      exact ⟨_, by rw [step, hr]; rfl⟩
    | restore offset =>
      obtain ⟨page, swap, hrestore, -⟩ := restore_spec hs hmeets.1 hmeets.2
      exact ⟨_, by rw [step, hrestore]; rfl⟩
    | put offset =>
      obtain ⟨swap, hput, -⟩ := put_spec hs hmeets
      exact ⟨_, by rw [step, hput]; rfl⟩

/-- A put is of a slot that is held. -/
def PutMatches (s : SwapRun) : SwapCall → Prop
  | .put offset => 0 < s.held (slotOf offset)
  | _ => True

instance (s : SwapRun) (call : SwapCall) : Decidable (s.PutMatches call) :=
  match call with
  | .get => inferInstanceAs (Decidable True)
  | .restore _ => inferInstanceAs (Decidable True)
  | .put _ => inferInstanceAs (Decidable (_ < _))

/-- A swap space in the cache of `Process::initialize`. -/
def inZero : SwapRun :=
  ⟨.new 9223372036854775807, [], []⟩

/-- A slot that is taken, put back and restored is on the links still, so that `get` takes it with a
    reference. -/
theorem slots_fail :
    ∃ s, system.RunWith PutMatches s ∧
      ∃ offset page swap, s.swap.get = some (some (offset, page), swap) ∧
        (s.swap.uses (recordOf offset)).map (fun use => use.ref (indexOf offset).toNat) = some 1 := by
  have hrun : ([.get, .put 4096, .restore 4096].foldlM
      (fun s l => if PutMatches s l then step s l else none) inZero).bind (fun s =>
        s.swap.get.bind fun r => r.1.map fun slot => (slot,
          (s.swap.uses (recordOf slot.1)).map fun use => use.ref (indexOf slot.1).toNat)) =
      some ((4096, true), some 1) := by decide
  obtain ⟨s, hs, hget⟩ := Option.bind_eq_some_iff.mp hrun
  obtain ⟨⟨slot, swap⟩, hget, hslot⟩ := Option.bind_eq_some_iff.mp hget
  obtain ⟨⟨offset, page⟩, rfl, hpair⟩ := Option.map_eq_some_iff.mp hslot
  have href := (Prod.mk.inj hpair).2
  exact ⟨s, System.runWith_of_foldlM (.start ⟨_, rfl⟩) hs, offset, page, swap, hget, href⟩

theorem slots_kept_twice :
    ∃ s : SwapRun, s.takes = [(0, 0), (0, 0)] ∧ (s.swap.uses 0).isSome ∧ s.swap.freeList.Nodup ∧
      ∀ use, s.swap.uses 0 = some use → (use.ref 0 : Int) = s.held (0, 0) := by
  have hrun : (([.get, .restore 4096].foldlM
      (fun s l => if Meets s l then step s l else none) inZero).map fun s =>
        (s.takes, (s.swap.uses 0).isSome)) = some ([(0, 0), (0, 0)], true) := by decide
  obtain ⟨s, hs, hpair⟩ := Option.map_eq_some_iff.mp hrun
  obtain ⟨htakes, huse⟩ := Prod.mk.inj hpair
  obtain ⟨hrecords, hnodup, -⟩ := slots_kept s (System.runWith_of_foldlM (.start ⟨_, rfl⟩) hs)
  exact ⟨s, htakes, huse, hnodup, fun use hu => (hrecords 0 use hu).1 0 (by decide)⟩

end SwapRun

end EsOs.Kernel
