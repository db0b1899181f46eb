import EsOs.Net.Ring

/-! # The bytes of a ring buffer

The bytes are counted from the head, whatever index the head has. What lies behind the used bytes
is free, but a block that was written there keeps its bytes until the data reaches it. -/

namespace EsOs.Net.Ring

open EsOs.Lib

/-- The head is an index of the buffer, and the used bytes fit. -/
structure Wf (r : Ring) : Prop where
  head_lt : r.head < r.size
  used_le : r.used ≤ r.size

/-- The `i`th byte from the head. -/
def cell (r : Ring) (i : Nat) : UInt8 := r.buf (slot r.size r.head i)

/-- The used bytes, which can be read. -/
def contents (r : Ring) : List UInt8 := (List.range r.used).map r.cell

/-- How far behind the used bytes a block starts. -/
def blockPos (r : Ring) (b : Vec) : Nat := r.pos r.tail b.data

theorem contents_length (r : Ring) : r.contents.length = r.used := by
  simp [contents]

theorem tail_eq {r : Ring} : r.tail = slot r.size r.head r.used := by
  unfold tail slot
  split <;> split <;> omega

theorem tail_lt {r : Ring} (h : r.Wf) : r.tail < r.size := by
  rw [tail_eq]
  exact slot_lt h.head_lt h.used_le

/-! ## Reading -/

theorem copyOut_eq (r : Ring) {src count : Nat} (hsrc : src < r.size) (hcount : count ≤ r.size) :
    r.copyOut src count = (List.range count).map fun i => r.buf (slot r.size src i) := by
  unfold copyOut
  split
  · rename_i hfit
    apply List.map_congr_left
    intro i hi
    have hi := List.mem_range.mp hi
    rw [slot, if_pos (by omega)]
  · rename_i hwrap
    apply List.ext_getElem
    · simp only [List.length_append, List.length_map, List.length_range]
      omega
    · intro i h1 h2
      simp only [List.length_map, List.length_range] at h2
      rw [List.getElem_append]
      simp only [List.length_map, List.length_range, List.getElem_map, List.getElem_range, slot]
      split
      · rw [if_pos (by omega)]
      · rw [if_neg (by omega)]
        congr 1
        omega

/-- How many bytes `read` and `skip` take away. -/
def taken (r : Ring) (count : Int) : Nat := (min (r.used : Int) count).toNat

theorem taken_le (r : Ring) (count : Int) : r.taken count ≤ r.used := by
  unfold taken
  omega

/-- What is left when the first `n` bytes are gone. -/
def advance (r : Ring) (n : Nat) : Ring :=
  { r with head := slot r.size r.head n, used := r.used - n }

/-- `read` copies the first bytes and takes them away. -/
theorem read_eq {r : Ring} (h : r.Wf) (count : Int) :
    r.read count = (r.contents.take (r.taken count), r.advance (r.taken count)) := by
  have hhead := h.head_lt
  have hused := h.used_le
  have hclamp : (if (r.used : Int) < count then (r.used : Int) else count)
      = min (r.used : Int) count := by
    split <;> omega
  simp only [read, hclamp]
  split
  · rename_i hle
    have hzero : r.taken count = 0 := by
      unfold taken
      omega
    rw [hzero, List.take_zero]
    simp [advance, slot_zero hhead]
  · rename_i hpos
    have hn : r.taken count ≤ r.used := r.taken_le count
    change (r.copyOut r.head (r.taken count), _) = _
    rw [copyOut_eq r hhead (by omega)]
    have hcontents : r.contents.take (r.taken count) = (List.range (r.taken count)).map r.cell := by
      rw [contents, List.map_take.symm, List.take_range, Nat.min_eq_left hn]
    rw [hcontents]
    congr 1
    simp only [advance]
    congr 1
    change (if r.head + r.taken count < r.size then r.head + r.taken count
      else r.taken count - (r.size - r.head)) = _
    unfold slot
    split <;> omega

/-- `peek` at the head copies the first bytes and leaves them. -/
theorem peek_zero {r : Ring} (h : r.Wf) (count : Int) :
    r.peek count 0 = r.contents.take (r.taken count) := by
  have hread : (r.read count).1 = r.contents.take (r.taken count) := by
    rw [read_eq h]
  rw [← hread]
  have hhead := h.head_lt
  unfold peek read
  simp only [Int.natCast_zero, Int.sub_zero, Int.zero_add, Nat.add_zero]
  rw [if_neg (show ¬ r.size ≤ r.head by omega), apply_ite Prod.fst]

theorem skip_eq {r : Ring} (h : r.Wf) (count : Int) :
    r.skip count = (r.taken count, r.advance (r.taken count)) := by
  have hread := congrArg Prod.snd (read_eq h count)
  simp only [read, skip] at hread ⊢
  have hclamp : (if (r.used : Int) < count then (r.used : Int) else count)
      = min (r.used : Int) count := by
    split <;> omega
  rw [hclamp] at hread ⊢
  split at hread
  · rename_i hle
    rw [if_pos hle]
    have hzero : r.taken count = 0 := by
      unfold taken
      omega
    rw [hzero] at hread ⊢
    rw [← hread]
  · rename_i hpos
    rw [if_neg hpos]
    exact Prod.ext rfl hread

section Advance

variable {r : Ring} {n : Nat}

theorem advance_wf (h : r.Wf) (hn : n ≤ r.used) : (r.advance n).Wf :=
  ⟨slot_lt h.head_lt (Nat.le_trans hn h.used_le), by
    have := h.used_le
    simp only [advance]
    omega⟩

theorem advance_cell (h : r.Wf) {i : Nat} (hn : n + i ≤ r.size) :
    (r.advance n).cell i = r.cell (n + i) := by
  simp only [cell, advance]
  rw [slot_slot h.head_lt hn]

theorem advance_tail (h : r.Wf) (hn : n ≤ r.used) : (r.advance n).tail = r.tail := by
  have hused := h.used_le
  rw [tail_eq, tail_eq]
  simp only [advance]
  rw [slot_slot h.head_lt (by omega)]
  congr 1
  omega

theorem advance_blockPos (h : r.Wf) (hn : n ≤ r.used) (b : Vec) :
    (r.advance n).blockPos b = r.blockPos b := by
  simp only [blockPos, advance_tail h hn]
  rfl

theorem advance_contents (h : r.Wf) (hn : n ≤ r.used) :
    (r.advance n).contents = r.contents.drop n := by
  have hused := h.used_le
  apply List.ext_getElem
  · simp [contents, advance]
  · intro i h1 h2
    have hi : i < r.used - n := by simpa [contents, advance] using h1
    simp only [contents, List.getElem_map, List.getElem_range, List.getElem_drop]
    exact advance_cell h (by omega)

end Advance

/-! ## Writing behind the used bytes -/

section CopyIn

variable {r : Ring} {src : List UInt8} {k : Nat}

/-- The copy that does not wrap, before the head, is the same as the one that may. -/
theorem copyIn_buf (h : r.Wf) (hfit : k + src.length ≤ r.size) (hk : k < r.size) :
    (r.copyIn (slot r.size r.head k) src).buf
      = copyAround r.buf r.size (slot r.size r.head k) src := by
  have hhead := h.head_lt
  unfold copyIn
  simp only
  split
  · rfl
  · rename_i hlt
    have hslot : slot r.size r.head k = r.head + k - r.size := by
      unfold slot at hlt ⊢
      split at hlt
      · omega
      · rw [if_neg (by omega)]
    rw [hslot] at hlt ⊢
    unfold copyAround
    rw [if_pos (by omega)]

/-- The copied bytes stand from the place `k` on, and every other byte is unchanged. -/
theorem copyIn_cell (h : r.Wf) (hfit : k + src.length ≤ r.size) (hk : k < r.size) {i : Nat}
    (hi : i < r.size) :
    (r.copyIn (slot r.size r.head k) src).cell i =
      if k ≤ i then src.getD (i - k) (r.cell i) else r.cell i := by
  have hhead := h.head_lt
  have hslot : slot r.size r.head k < r.size := slot_lt hhead (by omega)
  simp only [cell]
  rw [copyIn_buf h hfit hk]
  change copyAround r.buf r.size (slot r.size r.head k) src (slot r.size r.head i) = _
  split
  · rename_i hki
    have hback : slot r.size r.head i = slot r.size (slot r.size r.head k) (i - k) := by
      rw [slot_slot hhead (by omega)]
      congr 1
      omega
    rw [hback]
    by_cases hin : i - k < src.length
    · rw [copyAround_of_lt hslot (by omega) hin, List.getD_eq_getElem _ _ hin]
    · rw [copyAround_of_ge hslot (by omega) (by omega), List.getD_eq_default _ _ (by omega)]
  · rename_i hki
    -- counted from the copy, the byte lies behind the end of the store
    have hback : slot r.size r.head i
        = slot r.size (slot r.size r.head k) (r.size - k + i) := by
      unfold slot
      split <;> split <;> split <;> omega
    rw [hback, copyAround_of_ge hslot (by omega) (by omega)]

end CopyIn

/-! ## Stored blocks

`P i` says something of the `i`th byte behind the used ones. -/

/-- A stored block lies in the free part, and each of its bytes is a good one. -/
structure Stored (r : Ring) (P : Nat → Prop) (b : Vec) : Prop where
  data_lt : b.data < r.size
  fits : r.used + r.blockPos b + b.count ≤ r.size
  good : ∀ i, r.blockPos b ≤ i → i < r.blockPos b + b.count → P i

section Loops

variable {r : Ring} {P : Nat → Prop}

/-- A block that the data reaches only partly: taking it in moves the end of the data on. -/
def Overlaps (r : Ring) (n : Nat) (b : Vec) : Prop :=
  r.blockPos b ≤ n ∧ n < r.blockPos b + b.count

/-- When no block reaches behind the data, the data ends where it did, and the blocks that start in
    it are gone. -/
theorem mergeLoop_of_within {pr : Nat} {blocks : List Vec}
    (h : ∀ b ∈ blocks, ¬ r.Overlaps pr b) :
    r.mergeLoop r.tail pr blocks = (pr, blocks.filter fun b => decide (pr < r.blockPos b)) := by
  induction blocks with
  | nil => rfl
  | cons b blocks ih =>
    have hb := h b List.mem_cons_self
    have hrest := ih fun c hc => h c (List.mem_cons_of_mem b hc)
    have hpos : r.pos r.tail b.data = r.blockPos b := rfl
    rw [Overlaps] at hb
    simp only [mergeLoop, List.filter_cons, hpos]
    split
    · rename_i hle
      rw [Nat.max_eq_right (by omega), hrest]
      simp [hle]
    · rename_i hlt
      rw [hrest]
      simp only [Nat.not_le] at hlt
      simp [hlt]

/-- Two runs of good bytes that overlap or touch are one. -/
theorem good_join {P : Nat → Prop} {lo hi lo' hi' : Nat}
    (h : ∀ i, lo ≤ i → i < hi → P i) (h' : ∀ i, lo' ≤ i → i < hi' → P i)
    (htouch : lo ≤ hi') (htouch' : lo' ≤ hi) :
    ∀ i, min lo lo' ≤ i → i < max hi' hi → P i := by
  intro i hlo hhi
  by_cases hin : lo ≤ i ∧ i < hi
  · exact h i hin.1 hin.2
  · exact h' i (by omega) (by omega)

/-- The joined block and the blocks that are left are stored blocks again. -/
theorem joinLoop_stored {adv pl pr : Nat} (blocks : List Vec)
    (hadv : adv < r.size) (hpl : r.pos r.tail adv = pl) (hle : pl ≤ pr)
    (hfit : r.used + pr ≤ r.size) (hgood : ∀ i, pl ≤ i → i < pr → P i)
    (hblocks : ∀ b ∈ blocks, r.Stored P b) :
    r.Stored P (r.joinLoop r.tail adv pl pr blocks).1 ∧
      ∀ b ∈ (r.joinLoop r.tail adv pl pr blocks).2, b ∈ blocks := by
  induction blocks generalizing adv pl pr with
  | nil =>
    refine ⟨⟨hadv, ?_, ?_⟩, by simp [joinLoop]⟩
    · simp only [joinLoop, blockPos, hpl]
      omega
    · intro i hlo hhi
      simp only [joinLoop, blockPos, hpl] at hlo hhi
      exact hgood i hlo (by omega)
  | cons b blocks ih =>
    have hb := hblocks b List.mem_cons_self
    have hrest : ∀ c ∈ blocks, r.Stored P c := fun c hc => hblocks c (List.mem_cons_of_mem b hc)
    have hbfit := hb.fits
    simp only [blockPos] at hbfit
    simp only [joinLoop]
    split
    · rename_i htouch
      have hjoin := good_join hgood hb.good htouch.1 htouch.2
      simp only [blockPos] at hjoin
      split
      · rename_i hleft
        rw [Nat.min_eq_right (by omega)] at hjoin
        obtain ⟨h1, h2⟩ := ih hb.data_lt rfl (by omega) (by omega) hjoin hrest
        exact ⟨h1, fun c hc => List.mem_cons_of_mem b (h2 c hc)⟩
      · rename_i hleft
        rw [Nat.min_eq_left (by omega)] at hjoin
        obtain ⟨h1, h2⟩ := ih hadv hpl (by omega) (by omega) hjoin hrest
        exact ⟨h1, fun c hc => List.mem_cons_of_mem b (h2 c hc)⟩
    · obtain ⟨h1, h2⟩ := ih hadv hpl hle hfit hgood hrest
      refine ⟨h1, fun c hc => ?_⟩
      rcases List.mem_cons.mp hc with rfl | hc
      · exact List.mem_cons_self
      · exact List.mem_cons_of_mem b (h2 c hc)

end Loops

/-- The loops look at the places of the blocks only. -/
theorem joinLoop_copyIn (r : Ring) (dst : Nat) (src : List UInt8) :
    (r.copyIn dst src).joinLoop = r.joinLoop := by
  funext tail adv pl pr blocks
  have hpos : ∀ org ptr, (r.copyIn dst src).pos org ptr = r.pos org ptr := fun _ _ => rfl
  induction blocks generalizing adv pl pr with
  | nil => rfl
  | cons b blocks ih => simp only [joinLoop, hpos, ih]

/-! ## Writing at the tail and beyond it -/

section WriteAt

variable {r : Ring} {src : List UInt8} {offset : Nat} {blocks : List Vec}

/-- The index that `writeAt` computes for its copy. -/
theorem adv_eq (h : r.Wf) (hlt : r.used + offset < r.size) :
    (if r.size ≤ r.tail + offset then r.tail + offset - r.size else r.tail + offset)
      = slot r.size r.head (r.used + offset) := by
  have hhead := h.head_lt
  rw [tail_eq]
  unfold slot
  split <;> split <;> split <;> omega

/-- What `writeAt` does with bytes that fit: it copies them and merges the blocks. -/
theorem writeAt_eq (maxblock : Nat) (h : r.Wf) (hfit : r.used + offset + src.length ≤ r.size)
    (hsrc : 0 < src.length) :
    r.writeAt src offset blocks maxblock =
      (r.copyIn (slot r.size r.head (r.used + offset)) src).marge
        (slot r.size r.head (r.used + offset)) src.length blocks maxblock r.tail := by
  have hcount : (if r.size < r.used + offset + src.length then r.size - r.used - offset
      else src.length) = src.length := if_neg (by omega)
  unfold writeAt
  simp only [hcount]
  rw [if_neg (by omega), adv_eq h (by omega), List.take_length]

theorem writeAt_nil (r : Ring) (offset : Nat) (blocks : List Vec) (maxblock : Nat) :
    r.writeAt [] offset blocks maxblock = (0, r, blocks) := by
  unfold writeAt
  split
  · rename_i hlt
    simp only [List.length_nil] at hlt
    rw [if_pos (by omega)]
  · rfl

theorem mergeLoop_length (r : Ring) (tail pr : Nat) (blocks : List Vec) :
    (r.mergeLoop tail pr blocks).2.length ≤ blocks.length := by
  induction blocks generalizing pr with
  | nil => exact Nat.le_refl _
  | cons b blocks ih =>
    simp only [mergeLoop]
    split
    · exact Nat.le_succ_of_le (ih _)
    · exact Nat.succ_le_succ (ih _)

theorem joinLoop_length (r : Ring) (tail adv pl pr : Nat) (blocks : List Vec) :
    (r.joinLoop tail adv pl pr blocks).2.length ≤ blocks.length := by
  induction blocks generalizing adv pl pr with
  | nil => exact Nat.le_refl _
  | cons b blocks ih =>
    simp only [joinLoop]
    split
    · split
      · exact Nat.le_succ_of_le (ih _ _ _)
      · exact Nat.le_succ_of_le (ih _ _ _)
    · exact Nat.succ_le_succ (ih _ _ _)

theorem marge_length (r : Ring) (adv count tail : Nat) {blocks : List Vec} {maxblock : Nat}
    (hmax : 0 < maxblock) (h : blocks.length ≤ maxblock) :
    (r.marge adv count blocks maxblock tail).2.2.length ≤ maxblock := by
  unfold marge
  simp only
  split
  · exact Nat.le_trans (mergeLoop_length _ _ _ _) h
  · have hjoin := joinLoop_length r tail adv (r.pos tail adv) (r.pos tail adv + count) blocks
    rw [List.length_append, List.length_singleton]
    split
    · omega
    · rw [List.length_drop]
      omega

/-- The blocks stay within their array. -/
theorem writeAt_length (r : Ring) (src : List UInt8) (offset : Nat) {blocks : List Vec}
    {maxblock : Nat} (hmax : 0 < maxblock) (h : blocks.length ≤ maxblock) :
    (r.writeAt src offset blocks maxblock).2.2.length ≤ maxblock := by
  unfold writeAt
  simp only
  generalize (if r.size < r.used + offset + src.length then r.size - r.used - offset
    else src.length) = count
  split
  · exact h
  · exact marge_length _ _ _ _ hmax h

/-- The ring with `src` copied `offset` bytes behind the used ones. -/
def placed (r : Ring) (src : List UInt8) (offset : Nat) : Ring :=
  r.copyIn (slot r.size r.head (r.used + offset)) src

theorem placed_cell (h : r.Wf) (hfit : r.used + offset + src.length ≤ r.size)
    (hlt : r.used + offset < r.size) {i : Nat} (hi : i < r.size) :
    (r.placed src offset).cell i =
      if r.used + offset ≤ i then src.getD (i - (r.used + offset)) (r.cell i) else r.cell i :=
  copyIn_cell h hfit hlt hi

/-- A write at the tail that takes in no part of a block makes its bytes the last used ones. -/
theorem writeAt_tail (maxblock : Nat) (h : r.Wf) (hfit : r.used + src.length ≤ r.size) (hsrc : 0 < src.length)
    (hblocks : ∀ b ∈ blocks, ¬ r.Overlaps src.length b) :
    r.writeAt src 0 blocks maxblock =
      (src.length, { r.placed src 0 with used := r.used + src.length },
        blocks.filter fun b => decide (src.length < r.blockPos b)) := by
  rw [writeAt_eq maxblock h (by omega) hsrc, Nat.add_zero, ← tail_eq]
  unfold marge
  rw [if_pos rfl]
  have hpos : (r.copyIn r.tail src).pos r.tail r.tail = 0 := by
    simp [pos, distance]
  have hloop : (r.copyIn r.tail src).mergeLoop (r.copyIn r.tail src).tail src.length blocks
      = (src.length, blocks.filter fun b => decide (src.length < r.blockPos b)) :=
    mergeLoop_of_within hblocks
  have htail : (r.copyIn r.tail src).tail = r.tail := rfl
  rw [htail] at hloop
  simp only [hpos, Nat.zero_add, hloop, Nat.sub_zero]
  have hplaced : r.placed src 0 = r.copyIn r.tail src := by
    rw [placed, Nat.add_zero, ← tail_eq]
  rw [hplaced]
  rfl

/-- A write beyond the tail changes no used byte: it adds one block and drops or joins others. -/
theorem writeAt_beyond (maxblock : Nat) (h : r.Wf) {P : Nat → Prop} (hoffset : 0 < offset)
    (hfit : r.used + offset + src.length ≤ r.size) (hsrc : 0 < src.length)
    (hgood : ∀ i, offset ≤ i → i < offset + src.length → P i)
    (hblocks : ∀ b ∈ blocks, r.Stored P b) :
    ∃ blocks', r.writeAt src offset blocks maxblock = (0, r.placed src offset, blocks') ∧
      ∀ b ∈ blocks', r.Stored P b := by
  have hhead := h.head_lt
  rw [writeAt_eq maxblock h hfit hsrc]
  have hne : r.tail ≠ slot r.size r.head (r.used + offset) := by
    rw [tail_eq]
    intro heq
    have := (slot_inj hhead (by omega) (by omega)).mp heq
    omega
  have hpos : r.pos r.tail (slot r.size r.head (r.used + offset)) = offset := by
    rw [tail_eq, ← slot_slot hhead (by omega)]
    exact distance_slot (slot_lt hhead h.used_le) (by omega)
  have hjoin := joinLoop_stored blocks (slot_lt hhead (by omega)) hpos
    (Nat.le_add_right offset src.length) (by omega) hgood hblocks
  unfold marge
  rw [if_neg hne]
  have hpos' : (r.copyIn (slot r.size r.head (r.used + offset)) src).pos r.tail
      (slot r.size r.head (r.used + offset)) = offset := hpos
  simp only [hpos', joinLoop_copyIn]
  refine ⟨_, rfl, ?_⟩
  intro b hb
  rcases List.mem_append.mp hb with hb | hb
  · apply hblocks b
    apply hjoin.2 b
    split at hb
    · exact hb
    · exact List.mem_of_mem_drop hb
  · rw [List.mem_singleton.mp hb]
    exact hjoin.1

end WriteAt

end EsOs.Net.Ring
