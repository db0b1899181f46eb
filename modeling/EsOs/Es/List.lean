import EsOs.Lib.Linked
import EsOs.Lib.Zipper

/-!
# The linked list

`List` (`include/es/list.h`) links elements through a `Link` that they embody: an element is in one
list at a time. The links of all the elements are one map, the lists are their two ends. An operation
that uses a null pointer has no result.
-/

namespace EsOs.Es

open EsOs.Lib

/-- `ListBase` (`list.h:88-93`). -/
structure ListBase (α : Type _) where
  head : Option α
  tail : Option α
deriving DecidableEq, Repr

/-- `List::Iterator` (`list.h:200-208`), without the reference to its list. -/
structure ListIterator (α : Type _) where
  pre : Option α
  suc : Option α
  cur : Option α
deriving DecidableEq, Repr

variable {α : Type _}

namespace ListIterator

/-- `Iterator::hasNext` (`list.h:491-496`). -/
def hasNext (it : ListIterator α) : Bool := it.suc.isSome

/-- `Iterator::hasPrevious` (`list.h:511-516`). -/
def hasPrevious (it : ListIterator α) : Bool := it.pre.isSome

/-- `Iterator::next` (`list.h:498-509`). -/
def next (s : Links α) (it : ListIterator α) : Option α × ListIterator α :=
  match it.suc with
  | none => (none, { it with cur := none })
  | some x => (some x, { pre := some x, suc := (s x).next, cur := some x })

/-- `Iterator::previous` (`list.h:518-529`). -/
def previous (s : Links α) (it : ListIterator α) : Option α × ListIterator α :=
  match it.pre with
  | none => (none, { it with cur := none })
  | some x => (some x, { pre := (s x).prev, suc := some x, cur := some x })

end ListIterator

namespace ListBase

/-- `List::List` (`list.h:256-261`). -/
def empty : ListBase α := ⟨none, none⟩

/-- `List::begin` (`list.h:439-444`). -/
def begin (l : ListBase α) : ListIterator α := ⟨none, l.head, none⟩

/-- `List::end` (`list.h:446-451`). -/
def end_ (l : ListBase α) : ListIterator α := ⟨l.tail, none, none⟩

/-- `List::list` (`list.h:470-475`, `484-489`). -/
def list (s : Links α) (item : α) : ListIterator α := ⟨some item, (s item).next, some item⟩

/-- The loop of `List::contains` (`list.h:453-468`) for the calls of `next` given. -/
def containsLoop [DecidableEq α] (s : Links α) (item : α) : Nat → ListIterator α → Option Bool
  | 0, _ => none
  | calls + 1, it =>
      match it.next s with
      | (none, _) => some false
      | (some e, it) => if e = item then some true else containsLoop s item calls it

/-- The elements that `next` returns until it returns null. -/
def forward (s : Links α) : Nat → ListIterator α → Option (List α)
  | 0, _ => none
  | calls + 1, it =>
      match it.next s with
      | (none, _) => some []
      | (some e, it) => (forward s calls it).map (e :: ·)

/-- The elements that `previous` returns until it returns null. -/
def backward (s : Links α) : Nat → ListIterator α → Option (List α)
  | 0, _ => none
  | calls + 1, it =>
      match it.previous s with
      | (none, _) => some []
      | (some e, it) => (backward s calls it).map (e :: ·)

variable [DecidableEq α]

/-- `List::addAfter` (`list.h:284-299`). -/
def addAfter (s : Links α) (l : ListBase α) (before item : α) : Links α × ListBase α :=
  let s := s.setPrev item (some before)
  let s := s.setNext item (s before).next
  let s := s.setNext before (some item)
  match (s item).next with
  | none => (s, { l with tail := some item })
  | some n => (s.setPrev n (some item), l)

/-- `List::addBefore` (`list.h:301-316`). -/
def addBefore (s : Links α) (l : ListBase α) (item after : α) : Links α × ListBase α :=
  let s := s.setPrev item (s after).prev
  let s := s.setNext item (some after)
  let s := s.setPrev after (some item)
  match (s item).prev with
  | none => (s, { l with head := some item })
  | some p => (s.setNext p (some item), l)

/-- `List::addAll` (`list.h:318-332`): the result, the links, and the two lists. `none` is the use
    of a null `tail`. -/
def addAll (s : Links α) (l list : ListBase α) :
    Option (Bool × Links α × ListBase α × ListBase α) :=
  match list.head with
  | none => some (false, s, l, list)
  | some first =>
      match l.tail with
      | none => none
      | some last =>
          some (true, (s.setNext last (some first)).setPrev first (some last),
            { l with tail := list.tail }, empty)

/-- `List::addFirst` (`list.h:334-350`). -/
def addFirst (s : Links α) (l : ListBase α) (item : α) : Links α × ListBase α :=
  let next := l.head
  let (s, tail) := match next with
    | none => (s, some item)
    | some n => (s.setPrev n (some item), l.tail)
  ((s.setNext item next).setPrev item none, ⟨some item, tail⟩)

/-- `List::addLast` (`list.h:352-368`). -/
def addLast (s : Links α) (l : ListBase α) (item : α) : Links α × ListBase α :=
  let prev := l.tail
  let (s, head) := match prev with
    | none => (s, some item)
    | some p => (s.setNext p (some item), l.head)
  ((s.setPrev item prev).setNext item none, ⟨head, some item⟩)

/-- `List::remove` (`list.h:370-393`). -/
def remove (s : Links α) (l : ListBase α) (item : α) : Links α × ListBase α :=
  let next := (s item).next
  let prev := (s item).prev
  let (s, tail) := match next with
    | none => (s, prev)
    | some n => (s.setPrev n prev, l.tail)
  let (s, head) := match prev with
    | none => (s, next)
    | some p => (s.setNext p next, l.head)
  (s, ⟨head, tail⟩)

/-- `List::removeFirst` (`list.h:395-415`). -/
def removeFirst (s : Links α) (l : ListBase α) : Option α × Links α × ListBase α :=
  match l.head with
  | none => (none, s, l)
  | some item =>
      match (s item).next with
      | none => (some item, s, ⟨none, none⟩)
      | some n => (some item, s.setPrev n none, { l with head := some n })

/-- `List::removeLast` (`list.h:417-437`). -/
def removeLast (s : Links α) (l : ListBase α) : Option α × Links α × ListBase α :=
  match l.tail with
  | none => (none, s, l)
  | some item =>
      match (s item).prev with
      | none => (some item, s, ⟨none, none⟩)
      | some p => (some item, s.setNext p none, { l with tail := some p })

end ListBase

namespace ListIterator

variable [DecidableEq α]

/-- `Iterator::remove` (`list.h:531-550`). -/
def remove (s : Links α) (l : ListBase α) (it : ListIterator α) :
    Option α × Links α × ListBase α × ListIterator α :=
  match it.cur with
  | none => (none, s, l, it)
  | some cur =>
      let it :=
        if it.suc = some cur then { it with suc := (s cur).next }
        else if it.pre = some cur then { it with pre := (s cur).prev }
        else it
      let (s, l) := l.remove s cur
      (some cur, s, l, { it with cur := none })

/-- `Iterator::add` (`list.h:552-569`). -/
def add (s : Links α) (l : ListBase α) (it : ListIterator α) (item : α) :
    Links α × ListBase α × ListIterator α :=
  let (s, l) := match it.pre, it.suc with
    | some pre, _ => l.addAfter s pre item
    | none, some suc => l.addBefore s item suc
    | none, none => l.addFirst s item
  (s, l, { it with pre := some item })

end ListIterator

end EsOs.Es

/-!
## The calls of lists and of their iterators

The calls on one iterator, and those on several lists that share the links of their elements. Beside
each stands what a zipper and sequences answer to them.
-/

namespace EsOs.Es

open EsOs.Lib

variable {α ι : Type _}

/-! ## Iterators -/

/-- What an iterator is made from: `begin`, `end` or `list`. -/
inductive IteratorStart (α : Type _) where
  | begin
  | end_
  | list (item : α)

/-- A call of an iterator. -/
inductive IteratorCall (α : Type _) where
  | next
  | previous
  | hasNext
  | hasPrevious
  | add (item : α)
  | remove

/-- What a call of an iterator returns. -/
inductive IteratorAnswer (α : Type _) where
  | none
  | item (item : Option α)
  | flag (value : Bool)
deriving DecidableEq, Repr

/-- An iterator with its list and the links. -/
structure ListCursor (α : Type _) where
  links : Links α
  list : ListBase α
  iter : ListIterator α

/-- The iterator that a list makes. -/
def ListBase.iterator (s : Links α) (l : ListBase α) : IteratorStart α → ListIterator α
  | .begin => l.begin
  | .end_ => l.end_
  | .list item => ListBase.list s item

section Iterator

variable [DecidableEq α]

/-- One call of the iterator. -/
def ListCursor.call (c : ListCursor α) : IteratorCall α → IteratorAnswer α × ListCursor α
  | .next =>
      let (item, iter) := c.iter.next c.links
      (.item item, { c with iter })
  | .previous =>
      let (item, iter) := c.iter.previous c.links
      (.item item, { c with iter })
  | .hasNext => (.flag c.iter.hasNext, c)
  | .hasPrevious => (.flag c.iter.hasPrevious, c)
  | .add item =>
      let (links, list, iter) := c.iter.add c.links c.list item
      (.none, ⟨links, list, iter⟩)
  | .remove =>
      let (item, links, list, iter) := c.iter.remove c.links c.list
      (.item item, ⟨links, list, iter⟩)

/-- The calls one after the other. -/
def ListCursor.calls (c : ListCursor α) :
    List (IteratorCall α) → List (IteratorAnswer α) × ListCursor α
  | [] => ([], c)
  | call :: rest =>
      let (answer, c) := c.call call
      let (answers, c) := c.calls rest
      (answer :: answers, c)

/-- The zipper over a sequence where the iterator starts. -/
def IteratorStart.zipper (xs : List α) : IteratorStart α → Zipper α
  | .begin => ⟨[], xs, none⟩
  | .end_ => ⟨xs, [], none⟩
  | .list item => ⟨xs.take (xs.idxOf item + 1), xs.drop (xs.idxOf item + 1), some item⟩

/-- `list` is given an element of the list. -/
def IteratorStart.Legal (xs : List α) : IteratorStart α → Prop
  | .list item => item ∈ xs
  | _ => True

/-- What a zipper answers to a call of the iterator. -/
def zipperCall (z : Zipper α) : IteratorCall α → IteratorAnswer α × Zipper α
  | .next => (.item z.next.1, z.next.2)
  | .previous => (.item z.previous.1, z.previous.2)
  | .hasNext => (.flag !z.after.isEmpty, z)
  | .hasPrevious => (.flag !z.before.isEmpty, z)
  | .add item => (.none, z.add item)
  | .remove => (.item z.remove.1, z.remove.2)

/-- The calls on a zipper one after the other. -/
def zipperCalls (z : Zipper α) :
    List (IteratorCall α) → List (IteratorAnswer α) × Zipper α
  | [] => ([], z)
  | call :: rest =>
      let (answer, z) := zipperCall z call
      let (answers, z) := zipperCalls z rest
      (answer :: answers, z)

/-- An element that is added is not in the sequence. -/
def IteratorCall.Legal (z : Zipper α) : IteratorCall α → Prop
  | .add item => item ∉ z.toList
  | _ => True

/-- Each call is legal when its turn comes. -/
def IteratorCall.AllLegal (z : Zipper α) : List (IteratorCall α) → Prop
  | [] => True
  | call :: rest => call.Legal z ∧ AllLegal (zipperCall z call).2 rest

end Iterator

/-! ## Lists -/

/-- A call of one of several lists. `add` moves a fresh iterator before it adds. -/
inductive ListCall (ι α : Type _) where
  | addFirst (list : ι) (item : α)
  | addLast (list : ι) (item : α)
  | add (list : ι) (start : IteratorStart α) (moves : List Bool) (item : α)
  | addAll (list other : ι)
  | remove (list : ι) (item : α)
  | removeFirst (list : ι)
  | removeLast (list : ι)
  | contains (list : ι) (item : α)

/-- The links of all the elements, and the lists. -/
structure ListStore (ι α : Type _) where
  links : Links α
  lists : ι → ListBase α

/-- No element is linked, and every list has been constructed. -/
def ListStore.empty : ListStore ι α := ⟨fun _ => ⟨none, none⟩, fun _ => .empty⟩

/-- The calls that move an iterator forward or backward. -/
def moveCalls (moves : List Bool) : List (IteratorCall α) :=
  moves.map fun forward => if forward then .next else .previous

section List

variable [DecidableEq α] [DecidableEq ι]

/-- The links and one of the lists change. -/
def ListStore.set (st : ListStore ι α) (i : ι) (new : Links α × ListBase α) : ListStore ι α :=
  ⟨new.1, Function.update st.lists i new.2⟩

/-- One call. The loop of `contains` is given a number of calls of `next`. -/
def ListStore.call (fuel : Nat) (st : ListStore ι α) :
    ListCall ι α → Option (IteratorAnswer α × ListStore ι α)
  | .addFirst i item => some (.none, st.set i ((st.lists i).addFirst st.links item))
  | .addLast i item => some (.none, st.set i ((st.lists i).addLast st.links item))
  | .add i start moves item =>
      let l := st.lists i
      let c := (ListCursor.calls ⟨st.links, l, l.iterator st.links start⟩ (moveCalls moves)).2
      let c := (c.call (.add item)).2
      some (.none, st.set i (c.links, c.list))
  | .addAll i j =>
      ((st.lists i).addAll st.links (st.lists j)).map fun (changed, links, l, other) =>
        (.flag changed, (st.set i (links, l)).set j (links, other))
  | .remove i item => some (.item (some item), st.set i ((st.lists i).remove st.links item))
  | .removeFirst i =>
      let (item, new) := (st.lists i).removeFirst st.links
      some (.item item, st.set i new)
  | .removeLast i =>
      let (item, new) := (st.lists i).removeLast st.links
      some (.item item, st.set i new)
  | .contains i item =>
      (ListBase.containsLoop st.links item fuel (st.lists i).begin).map fun found =>
        (.flag found, st)

/-- The calls one after the other. -/
def ListStore.calls (fuel : Nat) (st : ListStore ι α) :
    List (ListCall ι α) → Option (List (IteratorAnswer α) × ListStore ι α)
  | [] => some ([], st)
  | call :: rest =>
      match st.call fuel call with
      | none => none
      | some (answer, st) => (st.calls fuel rest).map fun (answers, st) => (answer :: answers, st)

/-- The gap that an iterator over a sequence has moved to. -/
def IteratorStart.gap (xs : List α) (start : IteratorStart α) (moves : List Bool) : Zipper α :=
  (zipperCalls (start.zipper xs) (moveCalls moves)).2

/-- What sequences answer to a call of the lists. -/
def seqCall (seqs : ι → List α) : ListCall ι α → IteratorAnswer α × (ι → List α)
  | .addFirst i item => (.none, Function.update seqs i (item :: seqs i))
  | .addLast i item => (.none, Function.update seqs i (seqs i ++ [item]))
  | .add i start moves item =>
      (.none, Function.update seqs i ((start.gap (seqs i) moves).add item).toList)
  | .addAll i j =>
      (.flag !(seqs j).isEmpty,
        Function.update (Function.update seqs i (seqs i ++ seqs j)) j [])
  | .remove i item => (.item (some item), Function.update seqs i ((seqs i).erase item))
  | .removeFirst i => (.item (seqs i).head?, Function.update seqs i (seqs i).tail)
  | .removeLast i => (.item (seqs i).getLast?, Function.update seqs i (seqs i).dropLast)
  | .contains i item => (.flag (decide (item ∈ seqs i)), seqs)

/-- The calls on sequences one after the other. -/
def seqCalls (seqs : ι → List α) :
    List (ListCall ι α) → List (IteratorAnswer α) × (ι → List α)
  | [] => ([], seqs)
  | call :: rest =>
      let (answer, seqs) := seqCall seqs call
      let (answers, seqs) := seqCalls seqs rest
      (answer :: answers, seqs)

/-- An element is added to one list only, removed from the list it is in, and `addAll` is given
    another list. -/
def ListCall.Legal (seqs : ι → List α) : ListCall ι α → Prop
  | .addFirst _ item | .addLast _ item => ∀ i, item ∉ seqs i
  | .add i start _ item => start.Legal (seqs i) ∧ ∀ i, item ∉ seqs i
  | .addAll i j => i ≠ j
  | .remove i item => item ∈ seqs i
  | _ => True

/-- Each call is legal when its turn comes. -/
def ListCall.AllLegal (seqs : ι → List α) : List (ListCall ι α) → Prop
  | [] => True
  | call :: rest => call.Legal seqs ∧ AllLegal (seqCall seqs call).2 rest

/-- `addAll` appends nothing to an empty list. -/
def ListCall.Safe (seqs : ι → List α) : ListCall ι α → Prop
  | .addAll i j => seqs i = [] → seqs j = []
  | _ => True

/-- No call appends elements to an empty list. -/
def ListCall.AllSafe (seqs : ι → List α) : List (ListCall ι α) → Prop
  | [] => True
  | call :: rest => call.Safe seqs ∧ AllSafe (seqCall seqs call).2 rest

end List

end EsOs.Es
