import Mathlib.Data.List.Basic

/-!
# Bounded queues

A queue holds at most `capacity` items. A write appends the first items of its source as far as
there is room, and a read takes the first items of the queue away.
-/

namespace EsOs.Lib

/-- A queue whose items fit into its capacity. -/
structure Fifo (α : Type _) where
  capacity : Nat
  contents : List α
  fits : contents.length ≤ capacity

namespace Fifo

variable {α : Type _}

def empty (capacity : Nat) : Fifo α := ⟨capacity, [], Nat.zero_le _⟩

def used (q : Fifo α) : Nat := q.contents.length

def unused (q : Fifo α) : Nat := q.capacity - q.contents.length

/-- Appends the first items of the source, as many as there is room for. -/
def write (q : Fifo α) (src : List α) : Fifo α where
  capacity := q.capacity
  contents := q.contents ++ src.take q.unused
  fits := by
    have := q.fits
    simp only [unused, List.length_append, List.length_take]
    omega

/-- Copies `count` items from the place `offset` on. -/
def peek (q : Fifo α) (count offset : Nat) : List α := (q.contents.drop offset).take count

/-- Takes the first `count` items away. -/
def drop (q : Fifo α) (count : Nat) : Fifo α where
  capacity := q.capacity
  contents := q.contents.drop count
  fits := by
    have := q.fits
    rw [List.length_drop]
    omega

@[simp] theorem write_capacity (q : Fifo α) (src : List α) : (q.write src).capacity = q.capacity :=
  rfl

@[simp] theorem drop_capacity (q : Fifo α) (count : Nat) : (q.drop count).capacity = q.capacity :=
  rfl

@[simp] theorem write_contents (q : Fifo α) (src : List α) :
    (q.write src).contents = q.contents ++ src.take q.unused := rfl

theorem used_add_unused (q : Fifo α) : q.used + q.unused = q.capacity :=
  Nat.add_sub_cancel' q.fits

/-- A write makes the queue longer by what it appends. -/
theorem write_used (q : Fifo α) (src : List α) :
    (q.write src).used = q.used + min src.length q.unused := by
  simp only [used, write, List.length_append, List.length_take]
  omega

end Fifo

end EsOs.Lib
