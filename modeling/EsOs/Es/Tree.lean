import EsOs.Lib.WeakOrder

/-!
# The balanced search tree

`Tree` (`include/es/tree.h`) is an Arne Andersson tree. A node is its level, its key, its value
and its two subtrees; the node `nil` of level 0 ends every branch. The links to the parent serve
the iterators only and are left out.
-/

namespace EsOs.Es

open EsOs.Lib

/-- `Tree::Node` (`tree.h:38-68`). -/
inductive Node (K V : Type _) where
  | nil
  | node (level : Int) (key : K) (value : V) (left right : Node K V)
deriving DecidableEq, Repr

/-- The errors the tree throws. -/
inductive TreeError where
  | eexist
  | enoent
deriving DecidableEq, Repr

variable {K V : Type _}

namespace Node

def level : Node K V → Int
  | nil => 0
  | node level .. => level

def left : Node K V → Node K V
  | nil => nil
  | node _ _ _ left _ => left

def right : Node K V → Node K V
  | nil => nil
  | node _ _ _ _ right => right

def setLevel (level : Int) : Node K V → Node K V
  | nil => nil
  | node _ key value left right => node level key value left right

/-- The rotations of `skew` along the left child: a left child of the node's level becomes the
    root, and the node takes over its right subtree and is skewed in turn. `right` is the skewed
    right subtree, which the node has when the rotations end. -/
def skewLeft (level : Int) (key : K) (value : V) (right : Node K V) : Node K V → Node K V
  | nil => node level key value nil right
  | node l k v a b =>
      if l = level then node l k v a (skewLeft level key value right b)
      else node level key value (node l k v a b) right

/-- `Node::skew` (`tree.h:71-89`): rotates right, down the right branch. -/
def skew : Node K V → Node K V
  | nil => nil
  | node level key value left right =>
      if level = 0 then node level key value left right
      else skewLeft level key value (skew right) left

/-- `Node::split` (`tree.h:91-106`): rotates left, down the right branch as long as it rotates. -/
def split : Node K V → Node K V
  | nil => nil
  | node level key value left right =>
      match right with
      | nil => node level key value left nil
      | node l k v a b =>
          if level ≠ 0 ∧ b.level = level then
            node (l + 1) k v (node level key value left a) (split b)
          else node level key value left (node l k v a b)

/-- `Node::insert` (`tree.h:108-135`). No node has changed when it throws. -/
def insert (le : StrictWeakOrder K) (key : K) (value : V) :
    Node K V → Except TreeError (Node K V)
  | nil => .ok (node 1 key value nil nil)
  | node l k v a b =>
      if le.lt k key then (insert le key value b).map fun b => (node l k v a b).skew.split
      else if le.lt key k then (insert le key value a).map fun a => (node l k v a b).skew.split
      else .error .eexist

/-- The last node of a subtree with its key and value (`tree.h:169-173`). -/
def heir (key : K) (value : V) : Node K V → K × V
  | nil => (key, value)
  | node _ k v _ b => b.heir k v

/-- The end of `Node::remove` (`tree.h:182-191`): a root two levels above a child comes down one
    level, its right child with it. -/
def rebalance : Node K V → Node K V
  | nil => nil
  | node level key value left right =>
      if left.level < level - 1 ∨ right.level < level - 1 then
        let right := if level - 1 < right.level then right.setLevel (level - 1) else right
        (node (level - 1) key value left right).skew.split
      else node level key value left right

/-- `Node::remove` (`tree.h:137-193`). -/
def remove (le : StrictWeakOrder K) : Node K V → K → Node K V
  | nil, _ => nil
  | node l k v a b, key =>
      if le.lt k key then (node l k v a (b.remove le key)).rebalance
      else if le.lt key k then (node l k v (a.remove le key) b).rebalance
      else
        match a with
        | nil => b.rebalance
        | node la ka va aa ab =>
            match b with
            | nil => (node la ka va aa ab).rebalance
            | node lb kb vb ba bb =>
                let last := (node la ka va aa ab).heir ka va
                (node l last.1 last.2 ((node la ka va aa ab).remove le last.1)
                  (node lb kb vb ba bb)).rebalance

/-- The loop of `Tree::get` (`tree.h:381-402`). -/
def get (le : StrictWeakOrder K) (key : K) : Node K V → Except TreeError V
  | nil => .error .enoent
  | node _ k v a b =>
      if le.lt k key then b.get le key
      else if le.lt key k then a.get le key
      else .ok v

/-- The loop of `Tree::contains` (`tree.h:360-379`). -/
def contains (le : StrictWeakOrder K) (key : K) : Node K V → Bool
  | nil => false
  | node _ k _ a b =>
      if le.lt k key then b.contains le key
      else if le.lt key k then a.contains le key
      else true

/-- The records of the tree from left to right. -/
def toList : Node K V → List (K × V)
  | nil => []
  | node _ k v a b => a.toList ++ (k, v) :: b.toList

/-- The number of nodes. -/
def size : Node K V → Nat
  | nil => 0
  | node _ _ _ a b => a.size + b.size + 1

end Node

/-- `Tree` (`tree.h:327-330`): the comparison and the root. -/
structure Tree (K V : Type _) where
  le : StrictWeakOrder K
  root : Node K V

namespace Tree

/-- `Tree::Tree` (`tree.h:333-337`). -/
def empty (le : StrictWeakOrder K) : Tree K V := ⟨le, .nil⟩

def isEmpty (t : Tree K V) : Bool :=
  match t.root with
  | .nil => true
  | .node .. => false

def get (t : Tree K V) (key : K) : Except TreeError V := t.root.get t.le key

def contains (t : Tree K V) (key : K) : Bool := t.root.contains t.le key

/-- `Tree::add` (`tree.h:404-407`). -/
def add (t : Tree K V) (key : K) (value : V) : Except TreeError (Tree K V) :=
  (t.root.insert t.le key value).map fun root => { t with root := root }

/-- `Tree::remove` (`tree.h:409-412`). -/
def remove (t : Tree K V) (key : K) : Tree K V :=
  { t with root := t.root.remove t.le key }

end Tree

/-- The calls that change a tree. -/
inductive TreeOp (K V : Type _) where
  | add (key : K) (value : V)
  | remove (key : K)
deriving DecidableEq, Repr

/-- The tree after a call. A call that throws leaves it as it was. -/
def Tree.call (t : Tree K V) : TreeOp K V → Tree K V
  | .add key value =>
      match t.add key value with
      | .ok t' => t'
      | .error _ => t
  | .remove key => t.remove key

/-- The tree after the calls given, made one after the other on an empty tree. -/
def Tree.after (le : StrictWeakOrder K) (ops : List (TreeOp K V)) : Tree K V :=
  ops.foldl Tree.call (.empty le)

end EsOs.Es
