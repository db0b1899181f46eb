import EsOs.Es.Tree

/-!
# The links of the tree to the parents

The tree of `include/es/tree.h` with what its iterators use: a node has an address and a link to its
parent, and the pointers of an iterator are addresses. The null link stands for the node `nil`. The
calls are those of `Tree`, with every assignment to a `parent`.
-/

namespace EsOs.Es

open EsOs.Lib

/-- `Tree::Node` (`tree.h:38-68`). -/
inductive LinkedNode (A K V : Type _) where
  | nil
  | node (addr : A) (level : Int) (key : K) (value : V) (parent : Option A)
      (left right : LinkedNode A K V)
deriving DecidableEq, Repr

/-- The two directions of an iteration. -/
inductive Direction where
  | forward
  | backward
deriving DecidableEq, Repr

def Direction.flip : Direction → Direction
  | forward => backward
  | backward => forward

variable {A K V : Type _}

namespace LinkedNode

/-- A pointer to the node. -/
def addr : LinkedNode A K V → Option A
  | nil => none
  | node a .. => some a

def level : LinkedNode A K V → Int
  | nil => 0
  | node _ level .. => level

def parent : LinkedNode A K V → Option A
  | nil => none
  | node _ _ _ _ parent _ _ => parent

def left : LinkedNode A K V → LinkedNode A K V
  | nil => nil
  | node _ _ _ _ _ left _ => left

def right : LinkedNode A K V → LinkedNode A K V
  | nil => nil
  | node _ _ _ _ _ _ right => right

/-- The key and the value of a node. -/
def record : LinkedNode A K V → Option (K × V)
  | nil => none
  | node _ _ key value .. => some (key, value)

/-- Assigns to `parent`. The parent of `nil` is never read. -/
def setParent (parent : Option A) : LinkedNode A K V → LinkedNode A K V
  | nil => nil
  | node addr level key value _ left right => node addr level key value parent left right

def setLevel (level : Int) : LinkedNode A K V → LinkedNode A K V
  | nil => nil
  | node addr _ key value parent left right => node addr level key value parent left right

/-- The number of nodes. -/
def size : LinkedNode A K V → Nat
  | nil => 0
  | node _ _ _ _ _ left right => left.size + right.size + 1

@[simp] theorem size_setParent (p : Option A) (t : LinkedNode A K V) :
    (t.setParent p).size = t.size := by
  cases t <;> rfl

/-- `Node::skew` (`tree.h:71-89`). The node that comes up has no parent until the caller sets one,
    and the recursion sets none. -/
def skew : LinkedNode A K V → LinkedNode A K V
  | nil => nil
  | node addr level key value parent left right =>
      if level = 0 then node addr level key value parent left right
      else
        match left with
        | nil => node addr level key value parent nil right.skew
        | node a l k v p x y =>
            if l = level then
              node a l k v none x
                (node addr level key value (some a) (y.setParent (some addr)) right).skew
            else node addr level key value parent (node a l k v p x y) right.skew
termination_by t => t.size
decreasing_by all_goals simp only [size, size_setParent] <;> omega

/-- `Node::split` (`tree.h:91-106`). -/
def split : LinkedNode A K V → LinkedNode A K V
  | nil => nil
  | node addr level key value parent left right =>
      match right with
      | nil => node addr level key value parent left nil
      | node a l k v p x y =>
          if level ≠ 0 ∧ y.level = level then
            node a (l + 1) k v none
              (node addr level key value (some a) left (x.setParent (some addr))) y.split
          else node addr level key value parent left (node a l k v p x y)

/-- `Node::insert` (`tree.h:108-135`). `new` is the address of the new node. -/
def insert (le : StrictWeakOrder K) (new : A) (key : K) (value : V) :
    LinkedNode A K V → Except TreeError (LinkedNode A K V)
  | nil => .ok (node new 1 key value none nil nil)
  | node a l k v p x y =>
      if le.lt k key then
        (insert le new key value y).map fun y =>
          (node a l k v p x (y.setParent (some a))).skew.split
      else if le.lt key k then
        (insert le new key value x).map fun x =>
          (node a l k v p (x.setParent (some a)) y).skew.split
      else .error .eexist

/-- The key and the value of the last node of a subtree (`tree.h:169-175`). -/
def heir (key : K) (value : V) : LinkedNode A K V → K × V
  | nil => (key, value)
  | node _ _ k v _ _ y => y.heir k v

/-- The end of `Node::remove` (`tree.h:182-191`). -/
def rebalance : LinkedNode A K V → LinkedNode A K V
  | nil => nil
  | node addr level key value parent left right =>
      if left.level < level - 1 ∨ right.level < level - 1 then
        let right := if level - 1 < right.level then right.setLevel (level - 1) else right
        (node addr (level - 1) key value parent left right).skew.split
      else node addr level key value parent left right

/-- `Node::remove` (`tree.h:137-193`). -/
def remove (le : StrictWeakOrder K) : LinkedNode A K V → K → LinkedNode A K V
  | nil, _ => nil
  | node a l k v p x y, key =>
      if le.lt k key then (node a l k v p x ((y.remove le key).setParent (some a))).rebalance
      else if le.lt key k then (node a l k v p ((x.remove le key).setParent (some a)) y).rebalance
      else
        match x with
        | nil => (y.setParent none).rebalance
        | node xa xl xk xv xp xx xy =>
            match y with
            | nil => ((node xa xl xk xv xp xx xy).setParent none).rebalance
            | node ya yl yk yv yp yx yy =>
                let last := (node xa xl xk xv xp xx xy).heir xk xv
                let left := (node xa xl xk xv xp xx xy).remove le last.1
                (node a l last.1 last.2 p (left.setParent (some a))
                  (node ya yl yk yv yp yx yy)).rebalance

/-- The loop of `Tree::get` (`tree.h:381-402`). -/
def get (le : StrictWeakOrder K) (key : K) : LinkedNode A K V → Except TreeError V
  | nil => .error .enoent
  | node _ _ k v _ x y =>
      if le.lt k key then y.get le key
      else if le.lt key k then x.get le key
      else .ok v

/-- The loop of `Tree::contains` (`tree.h:360-379`). -/
def contains (le : StrictWeakOrder K) (key : K) : LinkedNode A K V → Bool
  | nil => false
  | node _ _ k _ _ x y =>
      if le.lt k key then y.contains le key
      else if le.lt key k then x.contains le key
      else true

/-- The nodes from left to right. -/
def nodes : LinkedNode A K V → List (A × K × V)
  | nil => []
  | node a _ k v _ x y => x.nodes ++ (a, k, v) :: y.nodes

/-- The child on the side that an iteration goes to. -/
def child : Direction → LinkedNode A K V → LinkedNode A K V
  | .forward => right
  | .backward => left

/-- The last node of a branch that keeps to one side. -/
def extreme (d : Direction) : LinkedNode A K V → Option A
  | nil => none
  | node a _ _ _ _ x y =>
      (match d with
        | .forward => y.extreme d
        | .backward => x.extreme d).or (some a)

/-- `Node::getFirst` (`tree.h:201-209`). -/
def getFirst (t : LinkedNode A K V) : Option A := t.extreme .backward

/-- `Node::getLast` (`tree.h:211-219`). -/
def getLast (t : LinkedNode A K V) : Option A := t.extreme .forward

section Pointers

variable [DecidableEq A]

/-- The node at an address, with its subtree. -/
def find (a : A) : LinkedNode A K V → Option (LinkedNode A K V)
  | nil => none
  | node b l k v p x y =>
      if b = a then some (node b l k v p x y) else (x.find a).or (y.find a)

/-- The loop over the parents of `getNext` and `getPrevious` (`tree.h:229-239`, `250-260`), with a
    bound on the number of parents. It ends at a node that it does not reach from the side `d`. -/
def climb (t : LinkedNode A K V) (d : Direction) : Nat → A → Option (Option A)
  | 0, _ => none
  | fuel + 1, last =>
      match t.find last with
      | none => none
      | some n =>
          match n.parent with
          | none => some none
          | some a =>
              match t.find a with
              | none => none
              | some n => if (n.child d).addr = some last then climb t d fuel a else some a

/-- The next node in a direction. -/
def step (t : LinkedNode A K V) (d : Direction) (fuel : Nat) (a : A) : Option (Option A) :=
  match t.find a with
  | none => none
  | some n =>
      match n.child d with
      | nil => t.climb d fuel a
      | next => some (next.extreme d.flip)

/-- `Node::getNext` (`tree.h:221-240`). -/
def getNext (t : LinkedNode A K V) (fuel : Nat) (a : A) : Option (Option A) :=
  t.step .forward fuel a

/-- `Node::getPrevious` (`tree.h:242-261`). -/
def getPrevious (t : LinkedNode A K V) (fuel : Nat) (a : A) : Option (Option A) :=
  t.step .backward fuel a

end Pointers

end LinkedNode

/-- `Tree::Iterator` (`tree.h:279-290`). -/
structure TreeIterator (A : Type _) where
  pre : Option A
  suc : Option A
  cur : Option A
deriving DecidableEq, Repr

namespace TreeIterator

/-- The node that a call goes over. -/
def ahead (it : TreeIterator A) : Direction → Option A
  | .forward => it.suc
  | .backward => it.pre

/-- An iterator with the node ahead, the one behind, and the one returned. -/
def facing (ahead behind cur : Option A) : Direction → TreeIterator A
  | .forward => ⟨behind, ahead, cur⟩
  | .backward => ⟨ahead, behind, cur⟩

/-- `Iterator::hasNext` (`tree.h:292-295`). -/
def hasNext (it : TreeIterator A) : Bool := it.suc.isNone

/-- `Iterator::hasPrevious` (`tree.h:308-311`). -/
def hasPrevious (it : TreeIterator A) : Bool := it.pre.isNone

/-- `hasNext` or `hasPrevious`. -/
def has (it : TreeIterator A) : Direction → Bool
  | .forward => it.hasNext
  | .backward => it.hasPrevious

variable [DecidableEq A]

/-- A call of an iterator that goes on. -/
def move (t : LinkedNode A K V) (fuel : Nat) (d : Direction) (it : TreeIterator A) :
    Option (Option A × TreeIterator A) :=
  match it.ahead d with
  | none => some (none, { it with cur := none })
  | some a => (t.step d fuel a).map fun b => (some a, facing b (some a) (some a) d)

/-- `Iterator::next` (`tree.h:297-306`). -/
def next (t : LinkedNode A K V) (fuel : Nat) (it : TreeIterator A) :
    Option (Option A × TreeIterator A) :=
  it.move t fuel .forward

/-- `Iterator::previous` (`tree.h:313-322`). -/
def previous (t : LinkedNode A K V) (fuel : Nat) (it : TreeIterator A) :
    Option (Option A × TreeIterator A) :=
  it.move t fuel .backward

/-- Calls in the directions given, one after the other. -/
def moves (t : LinkedNode A K V) (fuel : Nat) (it : TreeIterator A) :
    List Direction → Option (TreeIterator A)
  | [] => some it
  | d :: ds =>
      match it.move t fuel d with
      | none => none
      | some (_, it) => it.moves t fuel ds

/-- The records of the nodes that the calls in one direction return until one returns null. -/
def traverse (t : LinkedNode A K V) (fuel : Nat) (d : Direction) :
    Nat → TreeIterator A → Option (List (K × V))
  | 0, _ => none
  | calls + 1, it =>
      match it.move t fuel d with
      | none => none
      | some (none, _) => some []
      | some (some a, it) =>
          match (t.find a).bind LinkedNode.record with
          | none => none
          | some r => (traverse t fuel d calls it).map (r :: ·)

end TreeIterator

/-- What `new` may return: an address that is not in use. -/
abbrev Fresh (A : Type _) := (used : List A) → { a : A // a ∉ used }

/-- `Tree` (`tree.h:327-330`): the comparison and the root. -/
structure LinkedTree (A K V : Type _) where
  le : StrictWeakOrder K
  root : LinkedNode A K V

namespace LinkedTree

/-- `Tree::Tree` (`tree.h:333-337`). -/
def empty (le : StrictWeakOrder K) : LinkedTree A K V := ⟨le, .nil⟩

def get (t : LinkedTree A K V) (key : K) : Except TreeError V := t.root.get t.le key

def contains (t : LinkedTree A K V) (key : K) : Bool := t.root.contains t.le key

/-- `Tree::add` (`tree.h:404-407`). -/
def add (t : LinkedTree A K V) (new : Fresh A) (key : K) (value : V) :
    Except TreeError (LinkedTree A K V) :=
  (t.root.insert t.le (new (t.root.nodes.map (·.1))).1 key value).map fun root =>
    { t with root := root }

/-- `Tree::remove` (`tree.h:409-412`). -/
def remove (t : LinkedTree A K V) (key : K) : LinkedTree A K V :=
  { t with root := t.root.remove t.le key }

/-- The tree after a call. A call that throws leaves it as it was. -/
def call (t : LinkedTree A K V) (new : Fresh A) : TreeOp K V → LinkedTree A K V
  | .add key value =>
      match t.add new key value with
      | .ok t' => t'
      | .error _ => t
  | .remove key => t.remove key

/-- The tree after the calls given, made one after the other on an empty tree. Each comes with the
    choice of `new`. -/
def after (le : StrictWeakOrder K) (ops : List (TreeOp K V × Fresh A)) : LinkedTree A K V :=
  ops.foldl (fun t op => t.call op.2 op.1) (.empty le)

/-- `Tree::begin` (`tree.h:414-417`). -/
def begin (t : LinkedTree A K V) : TreeIterator A := ⟨none, t.root.getFirst, none⟩

/-- `Tree::end` (`tree.h:419-422`). -/
def end_ (t : LinkedTree A K V) : TreeIterator A := ⟨t.root.getLast, none, none⟩

end LinkedTree

end EsOs.Es
