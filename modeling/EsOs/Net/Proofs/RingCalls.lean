import EsOs.Net.Proofs.Ring
import EsOs.Net.Ring

/-! # The ring buffer is a queue of bytes

Each call is compared with the queue that holds the used bytes of the ring. Only `peek` can go
wrong by itself, when its offset leads behind the end of the buffer, and only `peek` and `write`
add two of the numbers given to them. -/

namespace EsOs.Net.Ring

open EsOs.Lib

/-- The ring has the capacity and the bytes of the queue. A buffer without any byte has no head
    in it. -/
structure Represents (r : Ring) (q : Fifo UInt8) : Prop where
  size : r.size = q.capacity
  used_le : r.used ≤ r.size
  head_lt : 0 < r.size → r.head < r.size
  contents : r.contents = q.contents

/-- What a call may ask for: sums that a `long` holds, and for `peek` a place from which there is
    nothing to copy or whose index lies before the end of the buffer. -/
def Allows (r : Ring) : QueueCall → Prop
  | .write _ count => (r.used : Int) + count.toInt < 2147483648
  | .read _ => True
  | .peek count offset =>
      0 ≤ offset.toInt ∧ offset.toInt + count.toInt < 2147483648 ∧
        (count.toInt ≤ 0 ∨ r.used ≤ offset.toInt ∨ r.head + offset.toInt < r.size)
  | .skip _ => True

instance (r : Ring) (c : QueueCall) : Decidable (r.Allows c) :=
  match c with
  | .write _ count => inferInstanceAs (Decidable ((r.used : Int) + count.toInt < 2147483648))
  | .read _ => .isTrue trivial
  | .peek count offset =>
      inferInstanceAs (Decidable (0 ≤ offset.toInt ∧ offset.toInt + count.toInt < 2147483648 ∧
        (count.toInt ≤ 0 ∨ r.used ≤ offset.toInt ∨ r.head + offset.toInt < r.size)))
  | .skip _ => .isTrue trivial

/-- Every call of the run is allowed in the state before it. -/
def AllowsAll (r : Ring) : List QueueCall → Prop
  | [] => True
  | c :: cs => r.Allows c ∧ ∀ a r', r.call c = some (a, r') → r'.AllowsAll cs

theorem long_of_lt {n : Int} (h : -2147483648 ≤ n) (h' : n < 2147483648) : long n = n :=
  Int.bmod_eq_of_le (by omega) (by omega)

namespace Represents

variable {r : Ring} {q : Fifo UInt8}

theorem used (h : r.Represents q) : r.used = q.used := by
  rw [← contents_length, h.contents, Fifo.used]

/-- A ring that holds a byte is well formed. -/
theorem wf (h : r.Represents q) (hpos : 0 < r.size) : r.Wf := ⟨h.head_lt hpos, h.used_le⟩

/-- The number of bytes taken is the count as far as there are bytes. -/
theorem taken_eq (r : Ring) (count : Int) : r.taken count = min count.toNat r.used := by
  unfold taken
  omega

theorem advance (h : r.Represents q) (hpos : 0 < r.size) {n : Nat} (hn : n ≤ r.used) :
    (r.advance n).Represents (q.drop n) where
  size := h.size
  used_le := (advance_wf (h.wf hpos) hn).used_le
  head_lt := fun _ => (advance_wf (h.wf hpos) hn).head_lt
  contents := by rw [advance_contents (h.wf hpos) hn, h.contents]; rfl

/-- In a buffer without bytes nothing is used. -/
theorem used_eq_zero (h : r.Represents q) (hsize : ¬ 0 < r.size) : r.used = 0 := by
  have := h.used_le
  omega

theorem drop_zero (q : Fifo UInt8) : q.drop 0 = q := rfl

theorem read (h : r.Represents q) (count : Int) :
    ∃ r', r.read count = (q.peek count.toNat 0, r') ∧
      r'.Represents (q.drop (q.peek count.toNat 0).length) := by
  have hbytes : q.peek count.toNat 0 = r.contents.take (r.taken count) := by
    rw [taken_eq, Fifo.peek, List.drop_zero, ← h.contents, List.take_eq_take_iff,
      contents_length]
    omega
  have hlength : (q.peek count.toNat 0).length = r.taken count := by
    rw [hbytes, List.length_take, contents_length]
    exact Nat.min_eq_left (r.taken_le count)
  by_cases hpos : 0 < r.size
  · refine ⟨r.advance (r.taken count), ?_, ?_⟩
    · rw [hbytes]
      exact read_eq (h.wf hpos) count
    · rw [hlength]
      exact h.advance hpos (r.taken_le count)
  · have hused := h.used_eq_zero hpos
    have hnone : r.taken count = 0 := by
      rw [taken_eq, hused, Nat.min_zero]
    refine ⟨r, ?_, ?_⟩
    · rw [hbytes, hnone, List.take_zero, Ring.read]
      exact if_pos (by rw [hused]; split <;> omega)
    · rw [hlength, hnone]
      exact h

theorem skip (h : r.Represents q) (count : Int) :
    ∃ r', r.skip count = (min count.toNat q.used, r') ∧
      r'.Represents (q.drop (min count.toNat q.used)) := by
  rw [← h.used, ← taken_eq]
  by_cases hpos : 0 < r.size
  · exact ⟨_, skip_eq (h.wf hpos) count, h.advance hpos (r.taken_le count)⟩
  · have hused := h.used_eq_zero hpos
    have hnone : r.taken count = 0 := by
      rw [taken_eq, hused, Nat.min_zero]
    refine ⟨r, ?_, ?_⟩
    · rw [hnone, Ring.skip]
      exact if_pos (by rw [hused]; split <;> omega)
    · rw [hnone]
      exact h

/-- `peek` copies the bytes from its offset on when their index does not wrap. -/
theorem peek (h : r.Represents q) {count offset : Int} (hoffset : 0 ≤ offset)
    (hmin : -2147483648 ≤ count) (hsum : offset + count < 2147483648)
    (hplace : count ≤ 0 ∨ r.used ≤ offset ∨ r.head + offset < r.size) :
    r.peekCall count offset = some (q.peek count.toNat offset.toNat) := by
  have hbytes : q.peek count.toNat offset.toNat
      = (r.contents.drop offset.toNat).take count.toNat := by
    rw [Fifo.peek, h.contents]
  rw [hbytes, peekCall, if_neg (by omega), long_of_lt (by omega) hsum]
  simp only
  by_cases hnone : count ≤ 0 ∨ r.used ≤ offset
  · have hempty : (r.contents.drop offset.toNat).take count.toNat = [] := by
      rw [List.take_eq_nil_iff, List.drop_eq_nil_iff, contents_length]
      omega
    rw [hempty]
    exact if_pos (by split <;> omega)
  · have hhead : r.head + offset < r.size := by omega
    have hpos : 0 < r.size := by omega
    have hused := h.used_le
    have hcount : (if (r.used : Int) < offset + count then (r.used : Int) - offset else count)
        = min count (r.used - offset) := by
      split <;> omega
    have hsrc : (if r.size ≤ r.head + offset.toNat then
        offset.toNat + (r.head + offset.toNat - r.size) else r.head + offset.toNat)
        = r.head + offset.toNat := if_neg (by omega)
    rw [hcount, if_neg (by omega), if_neg (by omega), hsrc, if_neg (by omega), if_neg (by omega),
      copyOut_eq r (by omega) (by omega), Ring.contents, ← List.map_drop, ← List.map_take]
    congr 1
    apply List.ext_getElem
    · simp only [List.length_map, List.length_range, List.length_take, List.length_drop]
      omega
    · intro i h1 h2
      simp only [List.length_map, List.length_range] at h1
      simp only [List.getElem_map, List.getElem_take, List.getElem_drop, List.getElem_range, cell]
      congr 1
      unfold slot
      split <;> split <;> omega

/-- `write` appends the first bytes of the source as far as there is room. -/
theorem write (h : r.Represents q) (src : Nat → UInt8) {count : Int}
    (hmin : -2147483648 ≤ count) (hsum : (r.used : Int) + count < 2147483648) :
    ∃ r', r.writeCall src count = some (min count.toNat q.unused, r') ∧
      r'.Represents (q.write ((List.range count.toNat).map src)) := by
  have hused := h.used_le
  have hunused : q.unused = r.size - r.used := by
    rw [h.used, h.size]
    rfl
  have hcount : (if (r.size : Int) < r.used + count then (r.size : Int) - r.used else count)
      = min count (r.size - r.used) := by
    split <;> omega
  rw [writeCall, long_of_lt (by omega) hsum, hcount, hunused]
  simp only
  by_cases hnone : min count ((r.size : Int) - r.used) ≤ 0
  · refine ⟨r, ?_, ⟨h.size, hused, h.head_lt, ?_⟩⟩
    · rw [if_pos hnone]
      congr 2
      omega
    · rw [Fifo.write_contents, hunused, ← List.map_take, List.take_range,
        show min (r.size - r.used) count.toNat = 0 by omega]
      simpa using h.contents
  · have hpos : 0 < r.size := by omega
    have hwf := h.wf hpos
    have hn : (min count ((r.size : Int) - r.used)).toNat = min count.toNat (r.size - r.used) := by
      omega
    rw [if_neg hnone, if_neg (by omega), hn]
    refine ⟨_, rfl, ⟨h.size, ?_, h.head_lt, ?_⟩⟩
    · show r.used + _ ≤ r.size
      omega
    · have hlen : ((List.range (min count.toNat (r.size - r.used))).map src).length
          = min count.toNat (r.size - r.used) := by simp
      have hcells := fun {i : Nat} (hi : i < r.size) =>
        copyIn_cell hwf (show r.used + _ ≤ r.size by rw [hlen]; omega) (by omega) hi
      rw [Fifo.write_contents, hunused, ← List.map_take, List.take_range,
        Nat.min_comm (r.size - r.used), ← h.contents]
      apply List.ext_getElem
      · simp [Ring.contents]
      · intro i h1 h2
        simp only [Ring.contents, List.length_map, List.length_range] at h1
        have hi := hcells (show i < r.size by omega)
        rw [← tail_eq] at hi
        simp only [Ring.contents, List.getElem_map, List.getElem_range, List.getElem_append,
          List.length_map, List.length_range]
        refine Eq.trans hi ?_
        by_cases hold : i < r.used
        · rw [if_neg (by omega), dif_pos hold]
        · rw [if_pos (by omega), dif_neg hold, List.getD_eq_getElem _ _ (by rw [hlen]; omega)]
          simp

/-- One call that is allowed. -/
theorem call (h : r.Represents q) {c : QueueCall} (hallows : r.Allows c) :
    ∃ r', r.call c = some ((byteQueue q c).1, r') ∧ r'.Represents (byteQueue q c).2 := by
  cases c with
  | write src count =>
    obtain ⟨r', hwrite, hr'⟩ := h.write src count.le_toInt hallows
    exact ⟨r', by simp [Ring.call, hwrite, byteQueue], hr'⟩
  | read count =>
    obtain ⟨r', hread, hr'⟩ := h.read count.toInt
    exact ⟨r', by simp [Ring.call, hread, byteQueue], hr'⟩
  | peek count offset =>
    obtain ⟨hoffset, hsum, hplace⟩ := hallows
    have hpeek := h.peek hoffset count.le_toInt hsum hplace
    exact ⟨r, by simp [Ring.call, hpeek, byteQueue], h⟩
  | skip count =>
    obtain ⟨r', hskip, hr'⟩ := h.skip count.toInt
    exact ⟨r', by simp [Ring.call, hskip, byteQueue], hr'⟩

/-- A run of allowed calls answers like the queue. -/
theorem calls (h : r.Represents q) {cs : List QueueCall} (hallows : r.AllowsAll cs) :
    ∃ r', r.calls cs = some ((byteQueues q cs).1, r') ∧ r'.Represents (byteQueues q cs).2 := by
  induction cs generalizing r q with
  | nil => exact ⟨r, rfl, h⟩
  | cons c cs ih =>
    obtain ⟨hc, hcs⟩ := hallows
    obtain ⟨r', hcall, hr'⟩ := h.call hc
    obtain ⟨r'', hcalls, hr''⟩ := ih hr' (hcs _ r' hcall)
    refine ⟨r'', ?_, hr''⟩
    simp [Ring.calls, hcall, hcalls, byteQueues]

end Represents

theorem byteQueue_capacity (q : Fifo UInt8) (c : QueueCall) :
    (byteQueue q c).2.capacity = q.capacity := by
  cases c <;> rfl

theorem byteQueues_capacity (q : Fifo UInt8) (cs : List QueueCall) :
    (byteQueues q cs).2.capacity = q.capacity := by
  induction cs generalizing q with
  | nil => rfl
  | cons c cs ih => exact (ih _).trans (byteQueue_capacity q c)

theorem represents_create (buf : Nat → UInt8) (size : Nat) :
    (create buf size).Represents (.empty size) :=
  ⟨rfl, Nat.zero_le _, id, rfl⟩

/-- A run whose calls are all allowed, on a ring of any capacity: every answer is that of a queue
    of the capacity, the ring holds what the queue holds, and the used and the unused bytes make
    up the capacity. -/
theorem calls_refine (buf : Nat → UInt8) (size : Nat) (cs : List QueueCall)
    (hallows : (create buf size).AllowsAll cs) :
    ∃ r, (create buf size).calls cs = some ((byteQueues (.empty size) cs).1, r) ∧
      r.contents = (byteQueues (.empty size) cs).2.contents ∧
      r.getUsed + r.getUnused = size ∧ r.getSize = size := by
  obtain ⟨r, hcalls, hr⟩ := (represents_create buf size).calls hallows
  have hsize : r.size = size := hr.size.trans (byteQueues_capacity _ _)
  refine ⟨r, hcalls, hr.contents, ?_, hsize⟩
  simp only [getUsed, getUnused, hsize]
  omega

/-- Four bytes, three of which are read: the head stands on the last byte of the buffer. -/
def wrapped : List QueueCall :=
  [.write (fun i => UInt8.ofNat (i + 1)) 4, .read 3, .write (fun i => UInt8.ofNat (i + 5)) 3]

theorem calls_refine_wrapped :
    ((create (fun _ => 0) 4).AllowsAll wrapped) ∧
      ∃ r, (create (fun _ => 0) 4).calls wrapped = some ((byteQueues (.empty 4) wrapped).1, r) ∧
        r.contents = (byteQueues (.empty 4) wrapped).2.contents ∧
        r.getUsed + r.getUnused = 4 ∧ r.getSize = 4 := by
  have hallows : (create (fun _ => 0) 4).AllowsAll wrapped := by
    refine ⟨by decide, fun a r' h => ?_⟩
    cases h
    refine ⟨trivial, fun a r' h => ?_⟩
    cases h
    exact ⟨by decide, fun a r' h => trivial⟩
  exact ⟨hallows, calls_refine _ _ _ hallows⟩

/-- The second of the four bytes 4, 5, 6, 7 is asked for, and the third comes. -/
theorem peek_wrapped :
    ((create (fun _ => 0) 4).calls (wrapped ++ [.peek 1 1])).map Prod.fst ≠
      some (byteQueues (.empty 4) (wrapped ++ [.peek 1 1])).1 := by
  decide

end EsOs.Net.Ring
