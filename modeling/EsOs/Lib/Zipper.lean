import Mathlib.Data.List.Nodup
import Mathlib.Tactic.Common

/-!
# Zippers

A sequence with a gap, and the element that the last move went over. Moves shift the gap by one
element, `add` inserts before it, `remove` takes the last element out wherever it is.
-/

namespace EsOs.Lib

/-- The elements before and behind the gap. -/
structure Zipper (α : Type _) where
  before : List α
  after : List α
  last : Option α
deriving DecidableEq, Repr

namespace Zipper

variable {α : Type _}

/-- The sequence. -/
def toList (z : Zipper α) : List α := z.before ++ z.after

/-- Moves over the element behind the gap. -/
def next (z : Zipper α) : Option α × Zipper α :=
  match z.after with
  | [] => (none, { z with last := none })
  | x :: after => (some x, ⟨z.before ++ [x], after, some x⟩)

/-- Moves over the element before the gap. -/
def previous (z : Zipper α) : Option α × Zipper α :=
  match z.before.getLast? with
  | none => (none, { z with last := none })
  | some x => (some x, ⟨z.before.dropLast, x :: z.after, some x⟩)

def add (z : Zipper α) (x : α) : Zipper α := { z with before := z.before ++ [x] }

/-- Takes the last element out once. -/
def remove [DecidableEq α] (z : Zipper α) : Option α × Zipper α :=
  match z.last with
  | none => (none, z)
  | some x => (some x, ⟨z.before.erase x, z.after.erase x, none⟩)

variable {z : Zipper α}

@[simp] theorem next_toList : z.next.2.toList = z.toList := by
  unfold next toList
  cases z.after <;> simp

@[simp] theorem previous_toList : z.previous.2.toList = z.toList := by
  unfold previous toList
  rcases hlast : z.before.getLast? with - | x
  · rfl
  · simp only
    rw [List.append_cons, List.dropLast_append_getLast? x hlast]

@[simp] theorem add_toList_mem {x y : α} :
    y ∈ (z.add x).toList ↔ y = x ∨ y ∈ z.toList := by
  simp only [add, toList, List.mem_append, List.mem_singleton]
  tauto

section Erase

variable [DecidableEq α] {xs ys : List α} {x : α}

/-- An element of two sequences is in one of them only. -/
theorem erase_append_erase (h : (xs ++ ys).Nodup) :
    (xs ++ ys).erase x = xs.erase x ++ ys.erase x := by
  rw [List.erase_append]
  split
  · next hmem =>
    rw [List.erase_of_not_mem fun hy => (List.nodup_append.mp h).2.2 x hmem x hy rfl]
  · next hmem => rw [List.erase_of_not_mem hmem]

theorem head?_erase (h : xs.head? ≠ some x) : (xs.erase x).head? = xs.head? := by
  cases xs with
  | nil => rfl
  | cons y ys => rw [List.erase_cons_tail (by simpa using h), List.head?_cons, List.head?_cons]

theorem getLast?_erase (h : xs.getLast? ≠ some x) : (xs.erase x).getLast? = xs.getLast? := by
  rcases List.eq_nil_or_concat xs with rfl | ⟨ys, y, rfl⟩
  · rfl
  · rw [List.concat_eq_append, List.getLast?_concat] at *
    have hne : x ≠ y := fun heq => h (by rw [heq])
    have hlast : [y].erase x = [y] := List.erase_of_not_mem (by simpa using hne)
    rw [List.erase_append, hlast]
    split <;> rw [List.getLast?_concat]

/-- `remove` takes out one element. -/
theorem remove_toList (h : z.toList.Nodup) (hlast : z.last = some x) :
    z.remove.2.toList = z.toList.erase x := by
  rw [remove, hlast, toList, toList, erase_append_erase h]

end Erase

end Zipper

end EsOs.Lib
