import EsOs.Es.TreeLinks

/-!
# The ordered map

`OrderedMap` (`include/es/orderedMap.h`) keeps its strings in a tree with a count of its own, and
finds an entry by its index with an iterator. A string is the list of its bytes. It has less than
2^31 of them, so that its length is an `int`. A loop is given a number of calls of the iterator.
-/

namespace EsOs.Es

open EsOs.Lib

/-- `std::less<std::string>`: the first byte that differs decides, else the length. -/
def stringLess : List UInt8 → List UInt8 → Bool
  | _, [] => false
  | [], _ :: _ => true
  | a :: as, b :: bs => decide (a < b) || (a == b && stringLess as bs)

/-- The order of the strings. -/
def stringOrder : StrictWeakOrder (List UInt8) where
  lt := stringLess
  irrefl a := by
    induction a with
    | nil => rfl
    | cons a as ih => simp [stringLess, ih]
  trans a b c := by
    induction a generalizing b c with
    | nil => cases b <;> cases c <;> simp [stringLess]
    | cons a as ih =>
      cases b with
      | nil => simp [stringLess]
      | cons b bs =>
        cases c with
        | nil => simp [stringLess]
        | cons c cs =>
          have := ih bs cs
          simp only [stringLess, Bool.or_eq_true, Bool.and_eq_true, decide_eq_true_eq, beq_iff_eq]
          rintro (hab | ⟨rfl, hab⟩) (hbc | ⟨rfl, hbc⟩)
          · exact .inl (UInt8.lt_trans hab hbc)
          · exact .inl hab
          · exact .inl hbc
          · exact .inr ⟨rfl, ih bs cs hab hbc⟩
  between a b c := by
    induction a generalizing b c with
    | nil => cases b <;> cases c <;> simp [stringLess]
    | cons a as ih =>
      cases c with
      | nil => simp [stringLess]
      | cons c cs =>
        cases b with
        | nil => simp [stringLess]
        | cons b bs =>
          have := ih bs cs
          simp only [stringLess, Bool.or_eq_true, Bool.and_eq_true, decide_eq_true_eq, beq_iff_eq]
          grind

/-- `OrderedMap` (`orderedMap.h:24-30`). -/
structure OrderedMap (A : Type _) where
  tree : LinkedTree A (List UInt8) (List UInt8)
  size : Int

namespace OrderedMap

variable {A : Type _}

/-- `OrderedMap::OrderedMap` (`orderedMap.h:33-36`). -/
def empty : OrderedMap A := ⟨.empty stringOrder, 0⟩

/-- `OrderedMap::getSize` (`orderedMap.h:42-45`). -/
def getSize (m : OrderedMap A) : Int := m.size

/-- The bytes that are copied to a buffer of a length (`orderedMap.h:56-57`, `94-95`). A length
    below zero is a size of almost 2^32 bytes. -/
def copy (str : List UInt8) (stringLength : Int) : Option (List UInt8) :=
  let len := min (str.length : Int) stringLength
  if len < 0 then none else some (str.take len.toNat)

section Loops

variable [DecidableEq A]

/-- The loop of `OrderedMap::getByIndex` (`orderedMap.h:51-63`): the value at the index. -/
def getLoop (t : LinkedNode A (List UInt8) (List UInt8)) (fuel index : Nat) :
    Nat → Nat → TreeIterator A → Option (Option (List UInt8))
  | 0, _, _ => none
  | calls + 1, count, it =>
      match it.next t fuel with
      | none => none
      | some (none, _) => some none
      | some (some a, it) =>
          match (t.find a).bind LinkedNode.record with
          | none => none
          | some (_, value) =>
              if count = index then some (some value)
              else getLoop t fuel index calls (count + 1) it

/-- `OrderedMap::getByIndex` (`orderedMap.h:47-65`). -/
def getByIndex (m : OrderedMap A) (fuel : Nat) (stringLength : Int) (index : Nat) :
    Option (Option (List UInt8)) :=
  match getLoop m.tree.root fuel index fuel 0 m.tree.begin with
  | none => none
  | some none => some none
  | some (some str) => (copy str stringLength).map some

/-- The loop of `OrderedMap::setByIndex` (`orderedMap.h:73-86`): the key it stops at. The count
    stays what it is. -/
def setLoop (t : LinkedNode A (List UInt8) (List UInt8)) (fuel index count : Nat) :
    Nat → TreeIterator A → Option (Option (List UInt8))
  | 0, _ => none
  | calls + 1, it =>
      match it.next t fuel with
      | none => none
      | some (none, _) => some none
      | some (some a, it) =>
          match (t.find a).bind LinkedNode.record with
          | none => none
          | some (key, _) =>
              if count = index then some (some key) else setLoop t fuel index count calls it

/-- `OrderedMap::setByIndex` (`orderedMap.h:67-87`). -/
def setByIndex (m : OrderedMap A) (fuel : Nat) (new : Fresh A) (index : Nat)
    (value : List UInt8) : Option (OrderedMap A) :=
  if m.size < index then some m
  else
    match setLoop m.tree.root fuel index 0 fuel m.tree.begin with
    | none => none
    | some none => some m
    | some (some key) => some { m with tree := (m.tree.remove key).call new (.add key value) }

/-- `OrderedMap::get` (`orderedMap.h:89-103`). -/
def get (m : OrderedMap A) (stringLength : Int) (name : List UInt8) :
    Option (Option (List UInt8)) :=
  match m.tree.get name with
  | .error _ => some none
  | .ok str => (copy str stringLength).map some

/-- `OrderedMap::set` (`orderedMap.h:105-116`). -/
def set (m : OrderedMap A) (new : Fresh A) (name value : List UInt8) : OrderedMap A :=
  let (tree, size) :=
    if m.tree.contains name then (m.tree.remove name, m.size - 1) else (m.tree, m.size)
  ⟨tree.call new (.add name value), size + 1⟩

end Loops

end OrderedMap

/-- The calls that change an ordered map, with the choice of `new`. -/
inductive MapOp (A : Type _) where
  | set (name value : List UInt8) (new : Fresh A)
  | setByIndex (index : Nat) (value : List UInt8) (new : Fresh A)

namespace OrderedMap

variable {A : Type _} [DecidableEq A]

/-- The map after a call. -/
def call (m : OrderedMap A) (fuel : Nat) : MapOp A → Option (OrderedMap A)
  | .set name value new => some (m.set new name value)
  | .setByIndex index value new => m.setByIndex fuel new index value

/-- The map after the calls given. -/
def calls (m : OrderedMap A) (fuel : Nat) : List (MapOp A) → Option (OrderedMap A)
  | [] => some m
  | op :: ops =>
      match m.call fuel op with
      | none => none
      | some m => m.calls fuel ops

end OrderedMap

/-- The entries of a map in the order of their names. -/
abbrev Entries := List (List UInt8 × List UInt8)

/-- The entries after a call: `set` puts the name in its place, `setByIndex` changes the value at a
    valid index. -/
def MapOp.entries {A : Type _} (l : Entries) : MapOp A → Entries
  | .set name value _ =>
      l.filter (fun e => stringOrder.lt e.1 name) ++
        (name, value) :: l.filter fun e => stringOrder.lt name e.1
  | .setByIndex index value _ => l.modify index fun e => (e.1, value)

end EsOs.Es
