import Mathlib
import EsOs.Net.Proofs.Ring
import EsOs.Net.Received

/-! # What a ring has received

A write puts its bytes at their place and folds the blocks it touches. Between two calls the blocks
touch neither each other nor the data, so the data ends at the first byte that did not arrive, as
long as no block was given up. -/

namespace EsOs.Net

open EsOs.Lib Extent

/-! ## Folding blocks -/

namespace Ring

variable {r : Ring} {src : List UInt8} {offset n : Nat} {blocks : List Vec}

/-- The bytes of a block, counted from the end of the data. -/
def extent (r : Ring) (b : Vec) : Extent := ⟨r.blockPos b, b.count⟩

/-- `mergeLoop` collects what touches the data. -/
theorem mergeLoop_eq (r : Ring) (n : Nat) (blocks : List Vec) :
    (absorb r.extent ⟨0, n⟩ blocks).1.left = 0 ∧
      r.mergeLoop r.tail n blocks =
        ((absorb r.extent ⟨0, n⟩ blocks).1.right, (absorb r.extent ⟨0, n⟩ blocks).2) := by
  induction blocks generalizing n with
  | nil => exact ⟨rfl, by simp [mergeLoop, absorb, right]⟩
  | cons b blocks ih =>
    have hpos : r.pos r.tail b.data = r.blockPos b := rfl
    have hclear : Clear ⟨0, n⟩ (r.extent b) ↔ ¬ r.blockPos b ≤ n := by
      unfold Clear right extent
      dsimp only
      omega
    simp only [mergeLoop, absorb, hpos, hclear]
    by_cases hle : r.blockPos b ≤ n
    · have hjoin : join ⟨0, n⟩ (r.extent b) = ⟨0, max (r.blockPos b + b.count) n⟩ := by
        simp only [join, right, extent, Extent.mk.injEq]
        omega
      rw [if_pos hle, if_neg (not_not_intro hle), hjoin]
      exact ih _
    · rw [if_neg hle, if_pos hle, (ih n).2]
      exact ⟨(ih n).1, rfl⟩

/-- `joinLoop` collects what touches the new block. -/
theorem joinLoop_eq {adv pl pr : Nat} (hadv : adv < r.size) (hpl : r.pos r.tail adv = pl)
    (hle : pl ≤ pr) (hblocks : ∀ b ∈ blocks, b.data < r.size) :
    r.extent (r.joinLoop r.tail adv pl pr blocks).1
        = (absorb r.extent ⟨pl, pr - pl⟩ blocks).1 ∧
      (r.joinLoop r.tail adv pl pr blocks).2 = (absorb r.extent ⟨pl, pr - pl⟩ blocks).2 ∧
      (r.joinLoop r.tail adv pl pr blocks).1.data < r.size := by
  induction blocks generalizing adv pl pr with
  | nil =>
    refine ⟨?_, rfl, hadv⟩
    simp only [joinLoop, absorb, extent, blockPos, hpl]
  | cons b blocks ih =>
    obtain ⟨hb, hblocks⟩ := List.forall_mem_cons.mp hblocks
    have hpos : r.pos r.tail b.data = r.blockPos b := rfl
    have hclear : Clear ⟨pl, pr - pl⟩ (r.extent b) ↔
        ¬ (pl ≤ r.blockPos b + b.count ∧ r.blockPos b ≤ pr) := by
      unfold Clear right extent
      dsimp only
      omega
    simp only [joinLoop, absorb, hpos, hclear]
    by_cases htouch : pl ≤ r.blockPos b + b.count ∧ r.blockPos b ≤ pr
    · rw [if_pos htouch, if_neg (not_not_intro htouch)]
      have hjoin : join ⟨pl, pr - pl⟩ (r.extent b) =
          ⟨min pl (r.blockPos b), max (r.blockPos b + b.count) pr - min pl (r.blockPos b)⟩ := by
        simp only [join, right, extent, Extent.mk.injEq, true_and]
        rw [Nat.max_comm, Nat.add_sub_cancel' hle]
      rw [hjoin]
      split
      · rename_i hleft
        rw [Nat.min_eq_right (by omega)]
        exact ih hb hpos (by omega) hblocks
      · rename_i hleft
        rw [Nat.min_eq_left (by omega)]
        exact ih hadv hpl (by omega) hblocks
    · rw [if_neg htouch, if_pos htouch]
      obtain ⟨h1, h2, h3⟩ := ih hadv hpl hle hblocks
      exact ⟨h1, by rw [h2], h3⟩

/-- The ring when `src` stands behind its data and the data goes on for `n` bytes. -/
def grown (r : Ring) (src : List UInt8) (n : Nat) : Ring :=
  { r.placed src 0 with used := r.used + n }

/-- A write at the end of the data. -/
theorem writeAt_grown (blocks : List Vec) (maxblock : Nat) (h : r.Wf) (hfit : r.used + src.length ≤ r.size)
    (hsrc : 0 < src.length) :
    ∃ n, r.writeAt src 0 blocks maxblock
        = (n, r.grown src n, (absorb r.extent ⟨0, src.length⟩ blocks).2) ∧
      (absorb r.extent ⟨0, src.length⟩ blocks).1 = ⟨0, n⟩ := by
  obtain ⟨hleft, hmerge⟩ := mergeLoop_eq r src.length blocks
  refine ⟨(absorb r.extent ⟨0, src.length⟩ blocks).1.right, ?_, ?_⟩
  · rw [writeAt_eq maxblock h (by omega) hsrc, Nat.add_zero, ← tail_eq]
    unfold marge
    rw [if_pos rfl]
    have hpos : (r.copyIn r.tail src).pos r.tail r.tail = 0 := by simp [pos, distance]
    have hloop : (r.copyIn r.tail src).mergeLoop r.tail src.length blocks =
        r.mergeLoop r.tail src.length blocks := by
      have hext : (r.copyIn r.tail src).extent = r.extent := rfl
      have hcopied := (mergeLoop_eq (r.copyIn r.tail src) src.length blocks).2
      rw [hext] at hcopied
      exact hcopied.trans hmerge.symm
    simp only [hpos, Nat.zero_add, hloop, hmerge, Nat.sub_zero]
    rw [grown, placed, Nat.add_zero, ← tail_eq]
    rfl
  · unfold right
    rw [hleft, Nat.zero_add]
    cases hfirst : (absorb r.extent ⟨0, src.length⟩ blocks).1
    rw [hfirst] at hleft
    exact congrArg (Extent.mk · _) hleft

/-- A write beyond the data: the collected block comes last, and the oldest of the others makes
    room when there is no free entry. -/
theorem writeAt_placed (blocks : List Vec) (maxblock : Nat) (h : r.Wf) (hoffset : 0 < offset)
    (hfit : r.used + offset + src.length ≤ r.size) (hsrc : 0 < src.length)
    (hblocks : ∀ b ∈ blocks, b.data < r.size) :
    ∃ block kept, r.writeAt src offset blocks maxblock
        = (0, r.placed src offset,
          (if kept.length < maxblock then kept else kept.drop 1) ++ [block]) ∧
      absorb r.extent ⟨offset, src.length⟩ blocks = (r.extent block, kept) ∧
      block.data < r.size := by
  have hhead := h.head_lt
  have hadv : slot r.size r.head (r.used + offset) < r.size := slot_lt hhead (by omega)
  have hne : r.tail ≠ slot r.size r.head (r.used + offset) := by
    rw [tail_eq]
    intro heq
    have := (slot_inj hhead (by omega) (by omega)).mp heq
    omega
  have hpos : r.pos r.tail (slot r.size r.head (r.used + offset)) = offset := by
    rw [tail_eq, ← slot_slot hhead (by omega)]
    exact distance_slot (slot_lt hhead h.used_le) (by omega)
  obtain ⟨hblock, hkept, hdata⟩ :=
    joinLoop_eq hadv hpos (Nat.le_add_right offset src.length) hblocks
  rw [Nat.add_sub_cancel_left] at hblock hkept
  refine ⟨_, _, ?_, Prod.ext hblock.symm hkept.symm, hdata⟩
  rw [writeAt_eq maxblock h hfit hsrc]
  unfold marge
  rw [if_neg hne]
  have hpos' : (r.copyIn (slot r.size r.head (r.used + offset)) src).pos r.tail
      (slot r.size r.head (r.used + offset)) = offset := hpos
  simp only [hpos', joinLoop_copyIn]
  rfl

/-- What the table of `maxblock` entries keeps of the blocks that are left, and what it gives up. -/
theorem exists_forgotten {maxblock : Nat} {kept : List Vec} (hmax : 0 < maxblock)
    (hsub : kept.Sublist blocks) (hlen : blocks.length ≤ maxblock) :
    ∃ forgotten rest, kept = forgotten ++ rest ∧
      (if kept.length < maxblock then kept else kept.drop 1) = rest ∧ rest.length < maxblock ∧
      forgotten.length ≤ 1 ∧ (blocks.length < maxblock → forgotten = []) := by
  have hkept := hsub.length_le
  split
  · rename_i hroom
    exact ⟨[], kept, rfl, rfl, hroom, by simp, fun _ => rfl⟩
  · refine ⟨kept.take 1, kept.drop 1, (List.take_append_drop 1 kept).symm, rfl, ?_, ?_, ?_⟩
    · rw [List.length_drop]
      omega
    · rw [List.length_take]
      omega
    · intro hroom
      omega

/-- `write` puts its bytes behind the data. -/
theorem write_grown (h : r.Wf) (hfit : r.used + src.length ≤ r.size) (hsrc : 0 < src.length) :
    r.write src = (src.length, r.grown src src.length) := by
  have hcount : (if r.size < r.used + src.length then r.size - r.used else src.length)
      = src.length := if_neg (by omega)
  unfold write
  simp only [hcount]
  rw [if_neg (by omega), List.take_length, grown, placed, Nat.add_zero, ← tail_eq]

/-- What is left of the way to a block when the data has grown. -/
theorem grown_blockPos (h : r.Wf) (hfit : r.used + n ≤ r.size) {b : Vec} (hb : b.data < r.size)
    (hn : n ≤ r.blockPos b) : (r.grown src n).blockPos b = r.blockPos b - n := by
  have htail : (r.grown src n).tail = slot r.size r.tail n := by
    rw [tail_eq, tail_eq, slot_slot h.head_lt hfit]
    rfl
  rw [blockPos, htail]
  exact distance_slot_left (tail_lt h) hb hn

end Ring
/-! ## The invariant -/

namespace Receiving

variable {stream : Nat → UInt8} {maxblock : Nat} {s : Receiving}

/-- What every state of a run keeps. -/
structure Sound (stream : Nat → UInt8) (maxblock : Nat) (s : Receiving) : Prop where
  room : 1 < maxblock
  wf : s.ring.Wf
  length : s.blocks.length ≤ maxblock
  readable : ∀ i < s.ring.used, s.ring.cell i = stream (s.base + i)
  stored : ∀ b ∈ s.blocks,
    s.ring.Stored (fun i => s.ring.cell (s.ring.used + i) = stream (s.front + i)) b
  beyond : ∀ b ∈ s.blocks, 0 < s.ring.blockPos b ∧ 0 < b.count
  apart : s.blocks.Pairwise fun a b => Clear (s.ring.extent a) (s.ring.extent b)
  covered : ∀ pos, s.Kept pos → s.Got pos
  whole : s.full = false → ∀ pos, s.Got pos → s.Kept pos

theorem mem_part {pos : Nat} {b : Vec} :
    pos ∈ s.part b ↔ s.front ≤ pos ∧ pos - s.front ∈ s.ring.extent b := by
  rw [mem_iff, mem_iff]
  simp only [part, Ring.extent, Ring.blockPos]
  omega

theorem got_cons {pos : Nat} {e : Extent} {received : List Extent} :
    (∃ x ∈ e :: received, pos ∈ x) ↔ pos ∈ e ∨ ∃ x ∈ received, pos ∈ x := by
  simp only [List.mem_cons, exists_eq_or_imp]

theorem slice_length (stream : Nat → UInt8) (pos count : Nat) :
    (slice stream pos count).length = count := by
  simp [slice]

namespace Sound

/-- A byte that is written, or that was right before, is right when the bytes are in place. -/
theorem placed_good (h : Sound stream maxblock s) {offset count i : Nat}
    (hfit : s.ring.used + offset + count ≤ s.ring.size) (hcount : 0 < count)
    (hi : i < s.ring.size)
    (hgood : (s.ring.used + offset ≤ i ∧ i < s.ring.used + offset + count) ∨
      s.ring.cell i = stream (s.base + i)) :
    (s.ring.placed (s.bytes stream offset count) offset).cell i = stream (s.base + i) := by
  have hlen : (s.bytes stream offset count).length = count := slice_length _ _ _
  rw [Ring.placed_cell h.wf (by omega) (by omega) hi]
  split
  · rename_i hle
    by_cases hin : i - (s.ring.used + offset) < count
    · rw [List.getD_eq_getElem _ _ (by omega)]
      simp only [bytes, slice, List.getElem_map, List.getElem_range, front]
      congr 1
      omega
    · rw [List.getD_eq_default _ _ (by omega)]
      rcases hgood with hgood | hgood
      · omega
      · exact hgood
  · rcases hgood with hgood | hgood
    · omega
    · exact hgood

/-- A write of no bytes. -/
theorem nothing (h : Sound stream maxblock s) (pos : Nat) (full : Bool)
    (hfull : full = false → s.full = false) :
    Sound stream maxblock { s with received := ⟨pos, 0⟩ :: s.received, full := full } where
  room := h.room
  wf := h.wf
  length := h.length
  readable := h.readable
  stored := h.stored
  beyond := h.beyond
  apart := h.apart
  covered x hx := got_cons.mpr (.inr (h.covered x hx))
  whole hf x hx := by
    rcases got_cons.mp hx with hx | hx
    · rw [mem_iff] at hx
      simp only at hx
      omega
    · exact h.whole (hfull hf) x hx

theorem taken_front {n : Nat} (hn : n ≤ s.ring.used) :
    ({ s with ring := s.ring.advance n, base := s.base + n } : Receiving).front = s.front := by
  simp only [front, Ring.advance]
  omega

theorem taken_part (h : s.ring.Wf) {n : Nat} (hn : n ≤ s.ring.used) :
    ({ s with ring := s.ring.advance n, base := s.base + n } : Receiving).part = s.part := by
  funext b
  simp only [part, taken_front hn]
  exact congrArg (fun k => Extent.mk (s.front + k) b.count) (Ring.advance_blockPos h hn b)

/-- Reading takes bytes from the front of the ring. -/
theorem taken (h : Sound stream maxblock s) {n : Nat} (hn : n ≤ s.ring.used) :
    Sound stream maxblock { s with ring := s.ring.advance n, base := s.base + n } := by
  have hused := h.wf.used_le
  have hfront := taken_front hn
  have hpart := taken_part h.wf hn
  have hblock := Ring.advance_blockPos h.wf hn
  have hext : (s.ring.advance n).extent = s.ring.extent := by
    funext b
    simp only [Ring.extent, hblock]
  refine ⟨h.room, Ring.advance_wf h.wf hn, h.length, ?_, ?_, ?_, ?_, ?_, ?_⟩
  · intro i hi
    have hi : i < s.ring.used - n := hi
    rw [Ring.advance_cell h.wf (by omega), h.readable (n + i) (by omega)]
    exact congrArg stream (by simp only; omega)
  · intro b hb
    have hstored := h.stored b hb
    have hfits := hstored.fits
    refine ⟨hstored.data_lt, ?_, ?_⟩
    · rw [hblock]
      change s.ring.used - n + s.ring.blockPos b + b.count ≤ s.ring.size
      omega
    · intro i hlo hhi
      rw [hblock] at hlo hhi
      have hgood := hstored.good i hlo hhi
      rw [hfront]
      change (s.ring.advance n).cell (s.ring.used - n + i) = _
      rw [Ring.advance_cell h.wf (by omega), ← hgood]
      congr 1
      omega
  · intro b hb
    simp only [hblock]
    exact h.beyond b hb
  · simp only [hext]
    exact h.apart
  · intro pos hpos
    simp only [Kept, hfront, Pending, hpart] at hpos
    exact h.covered pos hpos
  · intro hf pos hpos
    simp only [Kept, hfront, Pending, hpart]
    exact h.whole hf pos hpos

theorem taken_kept (h : Sound stream maxblock s) {n pos : Nat} (hn : n ≤ s.ring.used) :
    ({ s with ring := s.ring.advance n, base := s.base + n } : Receiving).Kept pos ↔
      s.Kept pos := by
  simp only [Kept, Pending, taken_front hn, taken_part h.wf hn]

/-- The state after a write at the end of the data, which then goes on for `n` bytes. -/
def afterTail (stream : Nat → UInt8) (s : Receiving) (count n : Nat) (kept : List Vec) :
    Receiving :=
  { s with
    ring := s.ring.grown (s.bytes stream 0 count) n
    blocks := kept
    received := ⟨s.front, count⟩ :: s.received }

/-- A write at the end of the data takes in the blocks it touches. -/
theorem grown (h : Sound stream maxblock s) {count n : Nat} {kept : List Vec}
    (hfit : s.ring.used + count ≤ s.ring.size) (hcount : 0 < count)
    (habsorb : absorb s.ring.extent ⟨0, count⟩ s.blocks = (⟨0, n⟩, kept)) :
    Sound stream maxblock (afterTail stream s count n kept) ∧
      ∀ pos, (afterTail stream s count n kept).Kept pos ↔
        pos ∈ (⟨s.front, count⟩ : Extent) ∨ s.Kept pos := by
  have hused := h.wf.used_le
  have hsub : kept.Sublist s.blocks := by
    have := absorb_sublist (f := s.ring.extent) (e := ⟨0, count⟩) (l := s.blocks)
    rwa [habsorb] at this
  have hpast : ∀ b ∈ kept, n < s.ring.blockPos b := by
    intro b hb
    have hclear := absorb_clear (e := ⟨0, count⟩) h.apart
    rw [habsorb] at hclear
    have hb := hclear b hb
    unfold Clear right Ring.extent at hb
    simp only at hb
    omega
  have hmem : ∀ x, (x < n ∨ ∃ b ∈ kept, x ∈ s.ring.extent b) ↔
      x < count ∨ ∃ b ∈ s.blocks, x ∈ s.ring.extent b := by
    intro x
    have := absorb_mem (f := s.ring.extent) (e := ⟨0, count⟩) (l := s.blocks) (x := x)
    rw [habsorb] at this
    simpa only [mem_iff, Nat.zero_le, true_and, Nat.zero_add] using this
  have hn : s.ring.used + n ≤ s.ring.size := by
    have hin : Within (⟨0, n⟩ : Extent) ⟨0, s.ring.size - s.ring.used⟩ := by
      have hwithin := absorb_within (f := s.ring.extent) (e := ⟨0, count⟩) (l := s.blocks)
        (s := ⟨0, s.ring.size - s.ring.used⟩) ⟨Nat.le_refl _, by simp only [right]; omega⟩
        fun b hb => ⟨Nat.zero_le _, by
          have := (h.stored b hb).fits
          simp only [right, Ring.extent]
          omega⟩
      rwa [habsorb] at hwithin
    have := hin.2
    simp only [right] at this
    omega
  have hgood : ∀ i < s.ring.size, i < s.ring.used + n ∨ s.ring.cell i = stream (s.base + i) →
      (s.ring.placed (s.bytes stream 0 count) 0).cell i = stream (s.base + i) := by
    intro i hi hor
    apply h.placed_good (by omega) hcount hi
    by_cases hold : s.ring.cell i = stream (s.base + i)
    · exact .inr hold
    have hlt := hor.resolve_right hold
    by_cases hfirst : i < s.ring.used
    · exact .inr (h.readable i hfirst)
    rcases (hmem (i - s.ring.used)).mp (.inl (by omega)) with hnew | ⟨b, hb, hin⟩
    · exact .inl (by omega)
    · refine absurd ?_ hold
      rw [mem_iff] at hin
      have := (h.stored b hb).good _ hin.1 hin.2
      rwa [front, Nat.add_assoc, Nat.add_sub_cancel' (by omega)] at this
  have hblock : ∀ b ∈ kept,
      (afterTail stream s count n kept).ring.blockPos b = s.ring.blockPos b - n := fun b hb =>
    Ring.grown_blockPos h.wf hn (h.stored b (hsub.subset hb)).data_lt (Nat.le_of_lt (hpast b hb))
  have hfront : (afterTail stream s count n kept).front = s.front + n := by
    simp only [front, afterTail, Ring.grown, Nat.add_assoc]
  have hpart : ∀ b ∈ kept, (afterTail stream s count n kept).part b = s.part b := by
    intro b hb
    have hpast := hpast b hb
    have hblock := hblock b hb
    unfold Ring.blockPos at hblock hpast
    simp only [part, hblock, hfront, Extent.mk.injEq, and_true]
    omega
  have hpending : ∀ pos, (afterTail stream s count n kept).Pending pos ↔
      ∃ b ∈ kept, pos ∈ s.part b := fun pos =>
    exists_congr fun b => and_congr_right fun hb => by rw [← hpart b hb]
  have hcover : ∀ pos, (afterTail stream s count n kept).Kept pos ↔
      pos ∈ (⟨s.front, count⟩ : Extent) ∨ s.Kept pos := by
    intro pos
    have hx := hmem (pos - s.front)
    rw [Kept, hfront, hpending, mem_iff (e := ⟨s.front, count⟩)]
    simp only [Kept, Pending, mem_part]
    by_cases hlt : pos < s.front
    · exact ⟨fun _ => .inr (.inl hlt), fun _ => .inl (by omega)⟩
    have hle : s.front ≤ pos := by omega
    simp only [hle, true_and, hlt, false_or]
    rw [show pos < s.front + n ↔ pos - s.front < n by omega,
      show pos < s.front + count ↔ pos - s.front < count by omega]
    exact hx
  refine ⟨⟨h.room, ⟨h.wf.head_lt, hn⟩, Nat.le_trans hsub.length_le h.length, ?_, ?_, ?_, ?_,
    ?_, ?_⟩, hcover⟩
  · intro i hi
    have hi : i < s.ring.used + n := hi
    exact hgood i (by omega) (.inl hi)
  · intro b hb
    have hstored := h.stored b (hsub.subset hb)
    have hfits := hstored.fits
    have hpast := hpast b hb
    refine ⟨hstored.data_lt, ?_, ?_⟩
    · rw [hblock b hb]
      change s.ring.used + n + (s.ring.blockPos b - n) + b.count ≤ s.ring.size
      omega
    · intro i hlo hhi
      rw [hblock b hb] at hlo hhi
      have hold := hstored.good (n + i) (by omega) (by omega)
      rw [front, Nat.add_assoc, ← Nat.add_assoc s.ring.used] at hold
      have hnew := hgood (s.ring.used + n + i) (by omega) (.inr hold)
      rw [hfront, front]
      change (s.ring.placed _ 0).cell (s.ring.used + n + i) = _
      rw [hnew]
      congr 1
      omega
  · intro b hb
    rw [hblock b hb]
    have := hpast b hb
    exact ⟨by omega, (h.beyond b (hsub.subset hb)).2⟩
  · refine (h.apart.sublist hsub).imp_of_mem ?_
    intro a b ha hb hclear
    have := hpast a ha
    have := hpast b hb
    unfold Clear right Ring.extent at *
    simp only [hblock a ha, hblock b hb] at *
    omega
  · intro pos hpos
    refine got_cons.mpr ?_
    rcases (hcover pos).mp hpos with hnew | hold
    · exact .inl hnew
    · exact .inr (h.covered pos hold)
  · intro hf pos hpos
    refine (hcover pos).mpr ?_
    rcases got_cons.mp hpos with hnew | hold
    · exact .inl hnew
    · exact .inr (h.whole hf pos hold)

/-- The state after a write beyond the data. -/
def afterBeyond (stream : Nat → UInt8) (maxblock : Nat) (s : Receiving) (offset count : Nat)
    (blocks : List Vec) : Receiving :=
  { s with
    ring := s.ring.placed (s.bytes stream offset count) offset
    blocks := blocks
    received := ⟨s.front + offset, count⟩ :: s.received
    full := s.full || decide (maxblock ≤ s.blocks.length) }

/-- Nothing but the blocks that are given up is lost by a write beyond the data. -/
theorem pending_iff (stream : Nat → UInt8) (maxblock : Nat) {offset count : Nat} {block : Vec} {forgotten rest : List Vec}
    (habsorb : absorb s.ring.extent ⟨offset, count⟩ s.blocks
      = (s.ring.extent block, forgotten ++ rest)) (pos : Nat) :
    ((afterBeyond stream maxblock s offset count (rest ++ [block])).Pending pos ∨
        ∃ b ∈ forgotten, pos ∈ s.part b) ↔
      pos ∈ (⟨s.front + offset, count⟩ : Extent) ∨ s.Pending pos := by
  have hpending : (afterBeyond stream maxblock s offset count (rest ++ [block])).Pending pos ↔
      (∃ b ∈ rest, pos ∈ s.part b) ∨ pos ∈ s.part block := by
    change (∃ b ∈ rest ++ [block], pos ∈ s.part b) ↔ _
    simp only [List.mem_append, List.mem_singleton, or_and_right, exists_or, exists_eq_left]
  have hmem := absorb_mem (f := s.ring.extent) (e := ⟨offset, count⟩) (l := s.blocks)
    (x := pos - s.front)
  rw [habsorb] at hmem
  simp only [List.mem_append, or_and_right, exists_or] at hmem
  rw [hpending]
  simp only [Pending, mem_part]
  by_cases hle : s.front ≤ pos
  · have hnew : pos ∈ (⟨s.front + offset, count⟩ : Extent) ↔
        pos - s.front ∈ (⟨offset, count⟩ : Extent) := by
      simp only [mem_iff]
      omega
    simp only [hle, true_and, hnew, ← hmem]
    exact or_assoc.trans (or_comm.trans or_assoc)
  · have hnew : ¬ pos ∈ (⟨s.front + offset, count⟩ : Extent) := by
      simp only [mem_iff]
      omega
    simp only [hle, false_and, and_false, exists_false, hnew, or_self]

/-- A write beyond the data makes one block of what it touches. -/
theorem placed (h : Sound stream maxblock s) {offset count : Nat} {block : Vec}
    {forgotten rest : List Vec} (hoffset : 0 < offset)
    (hfit : s.ring.used + offset + count ≤ s.ring.size) (hcount : 0 < count)
    (habsorb : absorb s.ring.extent ⟨offset, count⟩ s.blocks
      = (s.ring.extent block, forgotten ++ rest))
    (hdata : block.data < s.ring.size) (hrest : rest.length < maxblock)
    (hforgotten : s.blocks.length < maxblock → forgotten = []) :
    Sound stream maxblock (afterBeyond stream maxblock s offset count (rest ++ [block])) := by
  have hused := h.wf.used_le
  have hsub : rest.Sublist s.blocks := by
    have := absorb_sublist (f := s.ring.extent) (e := ⟨offset, count⟩) (l := s.blocks)
    rw [habsorb] at this
    exact (List.sublist_append_right forgotten rest).trans this
  have hmem : ∀ x ∈ s.ring.extent block,
      x ∈ (⟨offset, count⟩ : Extent) ∨ ∃ b ∈ s.blocks, x ∈ s.ring.extent b := by
    intro x hx
    have := absorb_mem (f := s.ring.extent) (e := ⟨offset, count⟩) (l := s.blocks) (x := x)
    rw [habsorb] at this
    exact this.mp (.inl hx)
  have hin : Within (s.ring.extent block) ⟨1, s.ring.size - s.ring.used - 1⟩ := by
    have hwithin := absorb_within (f := s.ring.extent) (e := ⟨offset, count⟩) (l := s.blocks)
      (s := ⟨1, s.ring.size - s.ring.used - 1⟩)
      ⟨hoffset, by simp only [right]; omega⟩
      fun b hb => ⟨(h.beyond b hb).1, by
        have := (h.stored b hb).fits
        have := h.beyond b hb
        simp only [right, Ring.extent]
        omega⟩
    rwa [habsorb] at hwithin
  have hholds : Within ⟨offset, count⟩ (s.ring.extent block) := by
    have := le_absorb (f := s.ring.extent) (e := ⟨offset, count⟩) (l := s.blocks)
    rwa [habsorb] at this
  have hblockpos : 0 < s.ring.blockPos block ∧ 0 < block.count ∧
      s.ring.used + s.ring.blockPos block + block.count ≤ s.ring.size := by
    unfold Within right Ring.extent at hin hholds
    simp only at hin hholds
    omega
  have hgood : ∀ i < s.ring.size,
      (s.ring.used + offset ≤ i ∧ i < s.ring.used + offset + count) ∨
        s.ring.cell i = stream (s.base + i) →
      (s.ring.placed (s.bytes stream offset count) offset).cell i = stream (s.base + i) :=
    fun i hi hor => h.placed_good hfit hcount hi hor
  have hkeeps : ∀ b ∈ s.blocks, ∀ i, s.ring.blockPos b ≤ i → i < s.ring.blockPos b + b.count →
      (s.ring.placed (s.bytes stream offset count) offset).cell (s.ring.used + i)
        = stream (s.front + i) := by
    intro b hb i hlo hhi
    have hstored := h.stored b hb
    have hfits := hstored.fits
    have hold := hstored.good i hlo hhi
    rw [front, Nat.add_assoc] at hold ⊢
    exact hgood _ (by omega) (.inr hold)
  refine ⟨h.room, ⟨h.wf.head_lt, h.wf.used_le⟩, ?_, ?_, ?_, ?_, ?_, ?_, ?_⟩
  · simp only [afterBeyond, List.length_append, List.length_singleton]
    omega
  · intro i hi
    have hi : i < s.ring.used := hi
    exact hgood i (by omega) (.inr (h.readable i hi))
  · intro b hb
    rcases List.mem_append.mp hb with hb | hb
    · have hstored := h.stored b (hsub.subset hb)
      exact ⟨hstored.data_lt, hstored.fits, hkeeps b (hsub.subset hb)⟩
    · obtain rfl := List.mem_singleton.mp hb
      refine ⟨hdata, hblockpos.2.2, ?_⟩
      intro i hlo hhi
      rcases hmem i ⟨hlo, hhi⟩ with hnew | ⟨c, hc, hin⟩
      · rw [mem_iff] at hnew
        simp only at hnew
        have := hgood (s.ring.used + i) (by omega) (.inl (by omega))
        rwa [← Nat.add_assoc] at this
      · exact hkeeps c hc i hin.1 hin.2
  · intro b hb
    rcases List.mem_append.mp hb with hb | hb
    · exact h.beyond b (hsub.subset hb)
    · obtain rfl := List.mem_singleton.mp hb
      exact ⟨hblockpos.1, hblockpos.2.1⟩
  · have hclear := absorb_clear (e := ⟨offset, count⟩) h.apart
    rw [habsorb] at hclear
    refine List.pairwise_append.mpr ⟨h.apart.sublist hsub, List.pairwise_singleton _ _, ?_⟩
    intro a ha b hb
    obtain rfl := List.mem_singleton.mp hb
    exact (hclear a (List.mem_append_right _ ha)).symm
  · intro pos hpos
    refine got_cons.mpr ?_
    rcases hpos with hpos | hpos
    · exact .inr (h.covered pos (.inl hpos))
    · rcases (pending_iff stream maxblock habsorb pos).mp (.inl hpos) with hnew | hold
      · exact .inl hnew
      · exact .inr (h.covered pos (.inr hold))
  · intro hf pos hpos
    simp only [afterBeyond, Bool.or_eq_false_iff, decide_eq_false_iff_not, Nat.not_le] at hf
    have hpending := pending_iff stream maxblock habsorb pos
    rw [hforgotten hf.2] at hpending
    simp only [List.not_mem_nil, false_and, exists_false, or_false] at hpending
    rcases got_cons.mp hpos with hnew | hold
    · exact .inr (hpending.mpr (.inl hnew))
    · rcases h.whole hf.1 pos hold with hold | hold
      · exact .inl hold
      · exact .inr (hpending.mpr (.inr hold))

/-- What a call does to a sound state: it stays sound, and what was kept or is written is kept but
    for at most one block, which only a full table gives up. -/
theorem call (h : Sound stream maxblock s) {c : RingCall} (hfits : s.Fits c)
    (hshort : s.ShortOfBlocks c) :
    Sound stream maxblock (s.call stream maxblock c) ∧
      ∃ forgotten : List Vec, forgotten.Sublist s.blocks ∧ forgotten.length ≤ 1 ∧
        (s.blocks.length < maxblock → forgotten = []) ∧
        ∀ pos, ((s.call stream maxblock c).Kept pos ∨ ∃ b ∈ forgotten, pos ∈ s.part b) ↔
          pos ∈ s.written c ∨ s.Kept pos := by
  have hwf := h.wf
  have hnothing : ∀ (pos lo : Nat), ¬ pos ∈ (⟨lo, 0⟩ : Extent) := fun pos lo hin => by
    rw [mem_iff] at hin
    simp only at hin
    omega
  have hempty : ∀ offset, s.bytes stream offset 0 = [] := fun _ => rfl
  -- a call that gives up no block
  have hkeeps : ∀ {s' : Receiving} {e : Extent}, (∀ pos, s'.Kept pos ↔ pos ∈ e ∨ s.Kept pos) →
      ∃ forgotten : List Vec, forgotten.Sublist s.blocks ∧ forgotten.length ≤ 1 ∧
        (s.blocks.length < maxblock → forgotten = []) ∧
        ∀ pos, (s'.Kept pos ∨ ∃ b ∈ forgotten, pos ∈ s.part b) ↔ pos ∈ e ∨ s.Kept pos :=
    fun hkept => ⟨[], List.nil_sublist _, by simp, fun _ => rfl, fun pos => by
      simp only [List.not_mem_nil, false_and, exists_false, or_false]
      exact hkept pos⟩
  cases c with
  | writeBeyond offset count =>
    obtain ⟨hoffset, hfit⟩ := hfits
    rcases Nat.eq_zero_or_pos count with rfl | hcount
    · have hcall : s.call stream maxblock (.writeBeyond offset 0) =
          { s with
            received := ⟨s.front + offset, 0⟩ :: s.received
            full := s.full || decide (maxblock ≤ s.blocks.length) } := by
        simp only [Receiving.call, hempty, Ring.writeAt_nil]
      rw [hcall]
      refine ⟨h.nothing _ _ fun hf => (Bool.or_eq_false_iff.mp hf).1, hkeeps fun pos => ?_⟩
      exact (or_iff_right (hnothing pos _)).symm
    · have hlen : (s.bytes stream offset count).length = count := slice_length _ _ _
      obtain ⟨block, kept, hwrite, habsorb, hdata⟩ := Ring.writeAt_placed s.blocks
        maxblock hwf hoffset (hlen.symm ▸ hfit) (hlen.symm ▸ hcount)
        fun b hb => (h.stored b hb).data_lt
      rw [hlen] at habsorb
      have hsub : kept.Sublist s.blocks := by
        have := absorb_sublist (f := s.ring.extent) (e := ⟨offset, count⟩) (l := s.blocks)
        rwa [habsorb] at this
      obtain ⟨forgotten, rest, rfl, hrest, hroom, hone, hforgotten⟩ :=
        Ring.exists_forgotten (Nat.lt_of_succ_lt h.room) hsub h.length
      rw [hrest] at hwrite
      have hcall : s.call stream maxblock (.writeBeyond offset count) =
          afterBeyond stream maxblock s offset count (rest ++ [block]) := by
        simp only [Receiving.call, hwrite]
        rfl
      rw [hcall]
      refine ⟨h.placed hoffset hfit hcount habsorb hdata hroom hforgotten, forgotten,
        (List.sublist_append_left _ _).trans hsub, hone, hforgotten, fun pos => ?_⟩
      have hpending := pending_iff stream maxblock habsorb pos
      have hfront : (afterBeyond stream maxblock s offset count (rest ++ [block])).front
        = s.front := rfl
      rw [Kept, hfront, or_assoc, hpending, or_left_comm]
      rfl
  | writeTail count =>
    have hfit : s.ring.used + count ≤ s.ring.size := hfits
    rcases Nat.eq_zero_or_pos count with rfl | hcount
    · have hcall : s.call stream maxblock (.writeTail 0) =
          { s with received := ⟨s.front, 0⟩ :: s.received } := by
        simp only [Receiving.call, hempty, Ring.writeAt_nil]
      rw [hcall]
      refine ⟨h.nothing _ _ id, hkeeps fun pos => ?_⟩
      exact (or_iff_right (hnothing pos _)).symm
    · have hlen : (s.bytes stream 0 count).length = count := slice_length _ _ _
      obtain ⟨n, hwrite, habsorb⟩ := Ring.writeAt_grown s.blocks maxblock hwf
        (hlen.symm ▸ hfit) (hlen.symm ▸ hcount)
      rw [hlen] at habsorb hwrite
      have hcall : s.call stream maxblock (.writeTail count) = afterTail stream s count n
          (absorb s.ring.extent ⟨0, count⟩ s.blocks).2 := by
        simp only [Receiving.call, hwrite]
        rfl
      rw [hcall]
      obtain ⟨hsound, hkept⟩ := h.grown hfit hcount (Prod.ext habsorb rfl)
      exact ⟨hsound, hkeeps hkept⟩
  | write count =>
    have hfit : s.ring.used + count ≤ s.ring.size := hfits
    rcases Nat.eq_zero_or_pos count with rfl | hcount
    · have hcall : s.call stream maxblock (.write 0) =
          { s with received := ⟨s.front, 0⟩ :: s.received } := by
        simp only [Receiving.call, hempty, Ring.write, List.length_nil]
        rw [if_pos (by split <;> omega)]
      rw [hcall]
      refine ⟨h.nothing _ _ id, hkeeps fun pos => ?_⟩
      exact (or_iff_right (hnothing pos _)).symm
    · have hlen : (s.bytes stream 0 count).length = count := slice_length _ _ _
      have hwrite := Ring.write_grown hwf (hlen.symm ▸ hfit) (hlen.symm ▸ hcount)
      rw [hlen] at hwrite
      have habsorb : absorb s.ring.extent ⟨0, count⟩ s.blocks = (⟨0, count⟩, s.blocks) := by
        apply absorb_of_clear
        intro b hb
        have hshort : count < s.ring.blockPos b := hshort b hb
        exact .inl (by simpa only [right, Ring.extent, Nat.zero_add] using hshort)
      have hcall : s.call stream maxblock (.write count) =
          afterTail stream s count count s.blocks := by
        simp only [Receiving.call, hwrite]
        rfl
      rw [hcall]
      obtain ⟨hsound, hkept⟩ := h.grown hfit hcount habsorb
      exact ⟨hsound, hkeeps hkept⟩
  | read count =>
    have hn := s.ring.taken_le count
    have hcall : s.call stream maxblock (.read count) =
        { s with
          ring := s.ring.advance (s.ring.taken count)
          base := s.base + s.ring.taken count } := by
      simp only [Receiving.call, Ring.read_eq hwf, List.length_take, Ring.contents_length,
        Nat.min_eq_left hn]
    rw [hcall]
    exact ⟨h.taken hn, hkeeps fun pos => (taken_kept h hn).trans
      (or_iff_right (hnothing pos _)).symm⟩
  | skip count =>
    have hn := s.ring.taken_le count
    have hcall : s.call stream maxblock (.skip count) =
        { s with
          ring := s.ring.advance (s.ring.taken count)
          base := s.base + s.ring.taken count } := by
      simp only [Receiving.call, Ring.skip_eq hwf]
    rw [hcall]
    exact ⟨h.taken hn, hkeeps fun pos => (taken_kept h hn).trans
      (or_iff_right (hnothing pos _)).symm⟩

/-- A write beyond the data leaves the number of used bytes. -/
theorem beyond_used (h : Sound stream maxblock s) {offset count : Nat}
    (hfits : s.Fits (.writeBeyond offset count)) :
    (s.call stream maxblock (.writeBeyond offset count)).ring.used = s.ring.used := by
  obtain ⟨hoffset, hfit⟩ := hfits
  have hlen : (s.bytes stream offset count).length = count := slice_length _ _ _
  change (s.ring.writeAt (s.bytes stream offset count) offset s.blocks maxblock).2.1.used = _
  rcases Nat.eq_zero_or_pos count with rfl | hcount
  · change (s.ring.writeAt [] offset s.blocks maxblock).2.1.used = _
    rw [Ring.writeAt_nil]
  · obtain ⟨block, kept, hwrite, -, -⟩ := Ring.writeAt_placed s.blocks
      maxblock h.wf hoffset (hlen.symm ▸ hfit) (hlen.symm ▸ hcount)
      fun b hb => (h.stored b hb).data_lt
    rw [hwrite]
    rfl

/-- The first byte behind the data is in no block. -/
theorem front_not_kept (h : Sound stream maxblock s) : ¬ s.Kept s.front := by
  rintro (hlt | ⟨b, hb, hin⟩)
  · omega
  · have := (h.beyond b hb).1
    rw [mem_part, Nat.sub_self, mem_iff] at hin
    unfold Ring.extent at hin
    simp only at hin
    omega

theorem contents (h : Sound stream maxblock s) :
    s.ring.contents = slice stream s.base s.ring.used :=
  List.map_congr_left fun i hi => h.readable i (List.mem_range.mp hi)

end Sound

/-- A run keeps its states sound. -/
theorem run_sound (hrun : (system stream maxblock).RunWith ShortOfBlocks s) :
    Sound stream maxblock s := by
  refine hrun.invariant (Sound stream maxblock) ?_ ?_
  · intro s h
    obtain ⟨hroom, hsize, hhead, hused, hblocks, hbase, hreceived, -⟩ := h
    have hfront : s.front = 0 := by rw [front, hbase, hused]
    refine ⟨hroom, ⟨by omega, by omega⟩, ?_, ?_, ?_, ?_, ?_, ?_, ?_⟩
    · simp [hblocks]
    · simp [hused]
    · simp [hblocks]
    · simp [hblocks]
    · simp [hblocks]
    · simp [Kept, Pending, hfront, hblocks]
    · simp [Got, hreceived]
  · rintro s c s' h hshort ⟨hfits, rfl⟩
    exact (h.call hfits hshort).1

/-- The blocks of a sound state touch neither each other nor the data, and lie in the ring. -/
theorem Sound.parts (h : Sound stream maxblock s) :
    (s.blocks.Pairwise fun a b => Clear (s.part a) (s.part b)) ∧
      ∀ b ∈ s.blocks, s.front < (s.part b).left ∧ 0 < (s.part b).size ∧
        (s.part b).right ≤ s.base + s.ring.size := by
  refine ⟨h.apart.imp fun hclear => ?_, fun b hb => ?_⟩
  · unfold Clear right part Ring.extent Ring.blockPos at *
    simp only at *
    omega
  · have hbeyond := h.beyond b hb
    have hfits := (h.stored b hb).fits
    simp only [part, right, front, Ring.blockPos] at *
    omega

/-- In every run whose writes without blocks end before the blocks, the ring shows the stream from
    where it was read, as far as it arrived without a gap unless a table was full, and a call gives
    up at most one block, whole, and only when the table is full. -/
theorem ring_receives (hrun : (system stream maxblock).RunWith ShortOfBlocks s) :
    s.ring.contents = slice stream s.base s.ring.used ∧
      (s.full = false → s.LongestPrefix (s.base + s.ring.used)) ∧
      (s.blocks.Pairwise fun a b => Clear (s.part a) (s.part b)) ∧
      (∀ b ∈ s.blocks, s.front < (s.part b).left ∧ 0 < (s.part b).size ∧
        (s.part b).right ≤ s.base + s.ring.size) ∧
      ∀ c s', s.ShortOfBlocks c → (system stream maxblock).step s c s' →
        (∀ offset count, c = .writeBeyond offset count →
          s'.base = s.base ∧ s'.ring.contents = s.ring.contents) ∧
        ∃ forgotten : List Vec, forgotten.Sublist s.blocks ∧ forgotten.length ≤ 1 ∧
          (s.blocks.length < maxblock → forgotten = []) ∧
          ∀ pos, (s'.Kept pos ∨ ∃ b ∈ forgotten, pos ∈ s.part b) ↔
            pos ∈ s.written c ∨ s.Kept pos := by
  have h := run_sound hrun
  refine ⟨h.contents, fun hfull => ⟨fun pos hpos => h.covered pos (.inl hpos), fun hgot => ?_⟩,
    h.parts.1, h.parts.2, ?_⟩
  · exact h.front_not_kept (h.whole hfull _ hgot)
  · rintro c s' hshort ⟨hfits, rfl⟩
    obtain ⟨hsound, hforgotten⟩ := h.call hfits hshort
    refine ⟨?_, hforgotten⟩
    rintro offset count rfl
    have hbase : (s.call stream maxblock (.writeBeyond offset count)).base = s.base := rfl
    have hcontents := hsound.contents
    rw [hbase] at hcontents
    refine ⟨hbase, ?_⟩
    rw [hcontents, h.contents]
    exact congrArg (slice stream s.base) (h.beyond_used hfits)

/-- An empty ring of eight bytes. -/
def emptied : Receiving := ⟨⟨fun _ => 0, 8, 0, 0⟩, [], 0, [], false⟩

/-- A run that writes beyond the data, fills the gap and reads. -/
theorem ring_receives_filled :
    ((emptied.call (fun _ => 7) 4 (.writeBeyond 2 3)).call (fun _ => 7) 4 (.writeTail 2)
      ).ring.contents = slice (fun _ => 7) 0 5 := by
  have hempty : (system (fun _ => 7) 4).RunWith ShortOfBlocks emptied :=
    .start ⟨by decide, by decide, rfl, rfl, rfl, rfl, rfl, rfl⟩
  have hbeyond : (system (fun _ => 7) 4).RunWith ShortOfBlocks
      (emptied.call (fun _ => 7) 4 (.writeBeyond 2 3)) :=
    hempty.next (l := .writeBeyond 2 3) trivial ⟨⟨by decide, by decide⟩, rfl⟩
  have hfilled : (system (fun _ => 7) 4).RunWith ShortOfBlocks
      ((emptied.call (fun _ => 7) 4 (.writeBeyond 2 3)).call (fun _ => 7) 4 (.writeTail 2)) :=
    hbeyond.next (l := .writeTail 2) trivial ⟨by unfold Fits; decide, rfl⟩
  exact (ring_receives hfilled).1

/-- A write without blocks may run into one: the data then ends where bytes have arrived. -/
theorem write_meets_block : ∃ s : Receiving, (system (fun _ => 7) 4).Reachable s ∧
    s.full = false ∧ ¬ s.LongestPrefix (s.base + s.ring.used) := by
  have hempty : (system (fun _ => 7) 4).Reachable emptied :=
    .start ⟨by decide, by decide, rfl, rfl, rfl, rfl, rfl, rfl⟩
  have hbeyond : (system (fun _ => 7) 4).Reachable
      (emptied.call (fun _ => 7) 4 (.writeBeyond 2 3)) :=
    hempty.next (l := .writeBeyond 2 3) trivial ⟨⟨by decide, by decide⟩, rfl⟩
  have hmet : (system (fun _ => 7) 4).Reachable
      ((emptied.call (fun _ => 7) 4 (.writeBeyond 2 3)).call (fun _ => 7) 4 (.write 2)) :=
    hbeyond.next (l := .write 2) trivial ⟨by unfold Fits; decide, rfl⟩
  refine ⟨_, hmet, rfl, fun hlongest => hlongest.2 ⟨⟨2, 3⟩, ?_, by decide, by decide⟩⟩
  exact List.mem_cons_of_mem _ List.mem_cons_self

end Receiving

end EsOs.Net
