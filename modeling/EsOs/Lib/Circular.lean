import Mathlib.Data.List.GetD

/-!
# Circular stores

A store of `size` cells whose cells are counted from a start cell and wrap around at the end. The
lemmas say how the count from one start cell relates to the count from another, and what a copy
into the store does to the cells when it is made in up to two parts.
-/

namespace EsOs.Lib

/-- The cell `i` places after `start`, for `i ≤ size`. -/
def slot (size start i : Nat) : Nat :=
  if start + i < size then start + i else start + i - size

/-- How many places after `org` the cell `ptr` comes. -/
def distance (size org ptr : Nat) : Nat :=
  if org ≤ ptr then ptr - org else ptr + size - org

section Slot

variable {size start i j : Nat}

theorem slot_lt (hs : start < size) (hi : i ≤ size) : slot size start i < size := by
  unfold slot
  split <;> omega

@[simp] theorem slot_zero (hs : start < size) : slot size start 0 = start := by
  simp [slot, hs]

/-- Counting on from a cell is counting from the start. -/
theorem slot_slot (hs : start < size) (h : i + j ≤ size) :
    slot size (slot size start i) j = slot size start (i + j) := by
  unfold slot
  split <;> split <;> split <;> omega

theorem slot_inj (hs : start < size) (hi : i < size) (hj : j < size) :
    slot size start i = slot size start j ↔ i = j := by
  unfold slot
  split <;> split <;> omega

theorem distance_slot (hs : start < size) (hi : i < size) :
    distance size start (slot size start i) = i := by
  unfold distance slot
  split <;> split <;> omega

theorem distance_lt (hs : start < size) (hj : j < size) : distance size start j < size := by
  unfold distance
  split <;> omega

/-- The distance from a later start cell. -/
theorem distance_slot_left (hs : start < size) (hj : j < size)
    (hi : i ≤ distance size start j) :
    distance size (slot size start i) j = distance size start j - i := by
  unfold distance slot at *
  split at hi <;> split <;> split <;> omega

end Slot

section Copy

variable {α : Type _}

/-- Copies `src` to the cells from `dst` on. -/
def copyTo (cells : Nat → α) (dst : Nat) (src : List α) : Nat → α :=
  fun x => if dst ≤ x then src.getD (x - dst) (cells x) else cells x

/-- A copy that goes on at the first cell when it reaches the end of the store. -/
def copyAround (cells : Nat → α) (size dst : Nat) (src : List α) : Nat → α :=
  if src.length ≤ size - dst then copyTo cells dst src
  else copyTo (copyTo cells dst (src.take (size - dst))) 0 (src.drop (size - dst))

theorem copyTo_of_lt {cells : Nat → α} {dst x : Nat} {src : List α} (h : x < dst) :
    copyTo cells dst src x = cells x := by
  simp only [copyTo]
  rw [if_neg (by omega)]

theorem copyTo_of_ge {cells : Nat → α} {dst x : Nat} {src : List α}
    (h : dst + src.length ≤ x) : copyTo cells dst src x = cells x := by
  simp only [copyTo]
  rw [if_pos (by omega), List.getD_eq_default _ _ (by omega)]

theorem copyTo_of_mem {cells : Nat → α} {dst i : Nat} {src : List α} (h : i < src.length) :
    copyTo cells dst src (dst + i) = src[i] := by
  simp only [copyTo]
  rw [if_pos (by omega), Nat.add_sub_cancel_left, List.getD_eq_getElem _ _ h]

/-- The copied bytes follow each other from `dst` on. -/
theorem copyAround_of_lt {cells : Nat → α} {size dst i : Nat} {src : List α}
    (hdst : dst < size) (hlen : src.length ≤ size) (hi : i < src.length) :
    copyAround cells size dst src (slot size dst i) = src[i] := by
  unfold copyAround slot
  by_cases hfit : src.length ≤ size - dst
  · rw [if_pos hfit, if_pos (by omega)]
    exact copyTo_of_mem hi
  · rw [if_neg hfit]
    by_cases hin : dst + i < size
    · rw [if_pos hin, copyTo_of_ge (by simp only [List.length_drop]; omega)]
      rw [copyTo_of_mem (by simp only [List.length_take]; omega), List.getElem_take]
    · rw [if_neg hin]
      have hback : dst + i - size = 0 + (i - (size - dst)) := by omega
      rw [hback, copyTo_of_mem (by simp only [List.length_drop]; omega), List.getElem_drop]
      congr 1
      omega

/-- The cells behind the copied bytes stay as they were. -/
theorem copyAround_of_ge {cells : Nat → α} {size dst i : Nat} {src : List α}
    (hdst : dst < size) (hlen : src.length ≤ i) (hi : i < size) :
    copyAround cells size dst src (slot size dst i) = cells (slot size dst i) := by
  unfold copyAround slot
  by_cases hfit : src.length ≤ size - dst
  · rw [if_pos hfit]
    split
    · exact copyTo_of_ge (by omega)
    · exact copyTo_of_lt (by omega)
  · rw [if_neg hfit, if_neg (by omega)]
    rw [copyTo_of_ge (by simp only [List.length_drop]; omega)]
    exact copyTo_of_lt (by omega)

end Copy

end EsOs.Lib
