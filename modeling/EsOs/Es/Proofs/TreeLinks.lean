import Mathlib.Data.List.Induction
import Mathlib.Data.List.Perm.Basic
import EsOs.Es.TreeLinks
import EsOs.Es.Proofs.Tree

/-!
# The tree with its links is the tree

Without addresses and links each call is the call of `Tree`, so that its levels and its order hold.
The addresses stay distinct. A node may lose its link to the parent, but only a right child does, and
no insertion makes it so.
-/

namespace EsOs.Es

open EsOs.Lib

variable {A K V : Type _}

namespace LinkedNode

/-- The tree without addresses and links. -/
def erase : LinkedNode A K V → Node K V
  | nil => .nil
  | node _ level key value _ left right => .node level key value left.erase right.erase

@[simp] theorem erase_nil : (nil : LinkedNode A K V).erase = .nil := rfl

@[simp] theorem erase_node (a : A) (l : Int) (k : K) (v : V) (p : Option A)
    (x y : LinkedNode A K V) : (node a l k v p x y).erase = .node l k v x.erase y.erase := rfl

@[simp] theorem erase_level (t : LinkedNode A K V) : t.erase.level = t.level := by
  cases t <;> rfl

@[simp] theorem erase_right (t : LinkedNode A K V) : t.erase.right = t.right.erase := by
  cases t <;> rfl

@[simp] theorem erase_setParent (p : Option A) (t : LinkedNode A K V) :
    (t.setParent p).erase = t.erase := by
  cases t <;> rfl

@[simp] theorem erase_setLevel (l : Int) (t : LinkedNode A K V) :
    (t.setLevel l).erase = t.erase.setLevel l := by
  cases t <;> rfl

theorem erase_eq_nil {t : LinkedNode A K V} : t.erase = .nil ↔ t = nil := by
  cases t <;> simp

/-! ## The calls without links -/

theorem skew_erase (t : LinkedNode A K V) : t.skew.erase = t.erase.skew := by
  fun_induction skew t with
  | case1 => rfl
  | case2 a k v p x y => simp [Node.skew]
  | case3 a l k v p y hl ih =>
    rw [erase_node, erase_node, ih, erase_nil]
    exact (Node.skew_of_ne hl (by simpa using Ne.symm hl)).symm
  | case4 a k v p y a' l' k' v' p' x z hl ih =>
    rw [erase_node, ih, erase_node, erase_node, erase_node, erase_setParent,
      Node.skew_of_eq hl]
  | case5 a l k v p y hl a' l' k' v' p' x z hne ih =>
    rw [erase_node, erase_node, ih]
    exact (Node.skew_of_ne hl (by simpa using hne)).symm

theorem split_erase (t : LinkedNode A K V) : t.split.erase = t.erase.split := by
  fun_induction split t with
  | case1 => rfl
  | case2 => rfl
  | case3 a l k v p x a' l' k' v' p' y z h ih =>
    simp only [erase_node, erase_setParent, ih, Node.split, erase_level, if_pos h]
  | case4 a l k v p x a' l' k' v' p' y z h =>
    simp only [erase_node, Node.split, erase_level, if_neg h]

theorem insert_erase (le : StrictWeakOrder K) (new : A) (key : K) (value : V)
    (t : LinkedNode A K V) :
    (t.insert le new key value).map erase = t.erase.insert le key value := by
  induction t with
  | nil => rfl
  | node a l k v p x y ihx ihy =>
    simp only [insert, erase_node, Node.insert]
    split
    · rw [← ihy]
      cases insert le new key value y <;> simp [Except.map, split_erase, skew_erase]
    split
    · rw [← ihx]
      cases insert le new key value x <;> simp [Except.map, split_erase, skew_erase]
    · rfl

theorem heir_erase (key : K) (value : V) (t : LinkedNode A K V) :
    t.erase.heir key value = t.heir key value := by
  induction t generalizing key value with
  | nil => rfl
  | node a l k v p x y _ ihy => exact ihy k v

theorem rebalance_erase (t : LinkedNode A K V) : t.rebalance.erase = t.erase.rebalance := by
  cases t with
  | nil => rfl
  | node a l k v p x y =>
    simp only [rebalance, erase_node, Node.rebalance, erase_level]
    split
    · rw [split_erase, skew_erase, erase_node]
      split <;> simp
    · rfl

theorem remove_erase (le : StrictWeakOrder K) (t : LinkedNode A K V) (key : K) :
    (t.remove le key).erase = t.erase.remove le key := by
  fun_induction remove le t key with
  | case1 => rfl
  | case2 a l k v p x y key hlt ih =>
    rw [rebalance_erase, erase_node, erase_setParent, ih, erase_node]
    conv_rhs => unfold Node.remove
    rw [if_pos hlt]
  | case3 a l k v p x y key hlt hgt ih =>
    rw [rebalance_erase, erase_node, erase_setParent, ih, erase_node]
    conv_rhs => unfold Node.remove
    rw [if_neg hlt, if_pos hgt]
  | case4 a l k v p y key hlt hgt =>
    simp only [rebalance_erase, erase_node, erase_setParent, Node.remove, if_neg hlt,
      if_neg hgt, erase_nil]
  | case5 a l k v p key hlt hgt =>
    simp only [rebalance_erase, erase_node, erase_setParent, Node.remove, if_neg hlt,
      if_neg hgt, erase_nil]
  | case6 a l k v p key hlt hgt xa xl xk xv xp xx xy ya yl yk yv yp yx yy last left ih =>
    have hlast : (Node.node xl xk xv xx.erase xy.erase).heir xk xv = last :=
      heir_erase xk xv (node xa xl xk xv xp xx xy)
    rw [erase_node] at ih
    simp only [rebalance_erase, erase_node, erase_setParent, left, ih, Node.remove, if_neg hlt,
      if_neg hgt, hlast]

theorem get_erase (le : StrictWeakOrder K) (key : K) (t : LinkedNode A K V) :
    t.get le key = t.erase.get le key := by
  induction t with
  | nil => rfl
  | node a l k v p x y ihx ihy => rw [get, erase_node, Node.get, ihx, ihy]

theorem contains_erase (le : StrictWeakOrder K) (key : K) (t : LinkedNode A K V) :
    t.contains le key = t.erase.contains le key := by
  induction t with
  | nil => rfl
  | node a l k v p x y ihx ihy => rw [contains, erase_node, Node.contains, ihx, ihy]

/-! ## Nodes -/

@[simp] theorem nodes_setParent (p : Option A) (t : LinkedNode A K V) :
    (t.setParent p).nodes = t.nodes := by
  cases t <;> rfl

@[simp] theorem nodes_setLevel (l : Int) (t : LinkedNode A K V) :
    (t.setLevel l).nodes = t.nodes := by
  cases t <;> rfl

theorem nodes_records (t : LinkedNode A K V) : t.nodes.map (·.2) = t.erase.toList := by
  induction t with
  | nil => rfl
  | node a l k v p x y ihx ihy => simp [nodes, ihx, ihy]

theorem size_eq_length (t : LinkedNode A K V) : t.size = t.nodes.length := by
  induction t with
  | nil => rfl
  | node a l k v p x y ihx ihy =>
    simp only [size, ihx, ihy, nodes, List.length_append, List.length_cons]
    omega

@[simp] theorem skew_nodes (t : LinkedNode A K V) : t.skew.nodes = t.nodes := by
  fun_induction skew t with
  | case1 => rfl
  | case2 => rfl
  | case3 a l k v p y hl ih => simp [nodes, ih]
  | case4 a k v p y a' l' k' v' p' x z hl ih => simp [nodes, ih]
  | case5 a l k v p y hl a' l' k' v' p' x z hne ih => simp [nodes, ih]

@[simp] theorem split_nodes (t : LinkedNode A K V) : t.split.nodes = t.nodes := by
  fun_induction split t with
  | case1 => rfl
  | case2 => rfl
  | case3 a l k v p x a' l' k' v' p' y z h ih => simp [nodes, ih]
  | case4 => rfl

@[simp] theorem rebalance_nodes (t : LinkedNode A K V) : t.rebalance.nodes = t.nodes := by
  cases t with
  | nil => rfl
  | node a l k v p x y =>
    rw [rebalance]
    split
    · rw [split_nodes, skew_nodes, nodes, nodes]
      split <;> simp
    · rfl

/-- The addresses of the nodes from left to right. -/
def addrs (t : LinkedNode A K V) : List A := t.nodes.map (·.1)

@[simp] theorem addrs_nil : (nil : LinkedNode A K V).addrs = [] := rfl

@[simp] theorem addrs_node (a : A) (l : Int) (k : K) (v : V) (p : Option A)
    (x y : LinkedNode A K V) : (node a l k v p x y).addrs = x.addrs ++ a :: y.addrs := by
  simp [addrs, nodes]

@[simp] theorem addrs_setParent (p : Option A) (t : LinkedNode A K V) :
    (t.setParent p).addrs = t.addrs := by
  rw [addrs, nodes_setParent, addrs]

@[simp] theorem addrs_rebalance (t : LinkedNode A K V) : t.rebalance.addrs = t.addrs := by
  rw [addrs, rebalance_nodes, addrs]

@[simp] theorem addrs_skew_split (t : LinkedNode A K V) : t.skew.split.addrs = t.addrs := by
  rw [addrs, split_nodes, skew_nodes, addrs]

/-- An insertion adds one address. -/
theorem insert_addrs {le : StrictWeakOrder K} {new : A} {key : K} {value : V}
    {t t' : LinkedNode A K V} (h : t.insert le new key value = .ok t') :
    t'.addrs.Perm (new :: t.addrs) := by
  induction t generalizing t' with
  | nil =>
    cases h
    exact List.Perm.refl _
  | node a l k v p x y ihx ihy =>
    rw [insert] at h
    split at h
    · rcases hy : insert le new key value y with e | y'
      · rw [hy] at h
        cases h
      · rw [hy] at h
        cases h
        rw [addrs_skew_split, addrs_node, addrs_node, addrs_setParent]
        refine ((List.Perm.cons a (ihy hy)).append_left x.addrs).trans ?_
        exact ((List.Perm.swap new a _).append_left _).trans List.perm_middle
    split at h
    · rcases hx : insert le new key value x with e | x'
      · rw [hx] at h
        cases h
      · rw [hx] at h
        cases h
        rw [addrs_skew_split, addrs_node, addrs_node, addrs_setParent]
        exact (ihx hx).append_right _
    · cases h

/-- A removal adds none. -/
theorem remove_addrs (le : StrictWeakOrder K) (t : LinkedNode A K V) (key : K) :
    (t.remove le key).addrs.Sublist t.addrs := by
  fun_induction remove le t key with
  | case1 => exact List.Sublist.refl _
  | case2 a l k v p x y key hlt ih =>
    rw [addrs_rebalance, addrs_node, addrs_node, addrs_setParent]
    exact (ih.cons_cons a).append_left _
  | case3 a l k v p x y key hlt hgt ih =>
    rw [addrs_rebalance, addrs_node, addrs_node, addrs_setParent]
    exact ih.append_right _
  | case4 a l k v p y key hlt hgt =>
    rw [addrs_rebalance, addrs_setParent, addrs_node]
    exact List.sublist_cons_self a y.addrs
  | case5 a l k v p key hlt hgt xa xl xk xv xp xx xy =>
    rw [addrs_rebalance, addrs_setParent, addrs_node a]
    exact List.sublist_append_left _ _
  | case6 a l k v p key hlt hgt xa xl xk xv xp xx xy ya yl yk yv yp yx yy last left ih =>
    rw [addrs_rebalance, addrs_node, addrs_node a, addrs_setParent]
    exact ih.append_right _

/-! ## Links -/

/-- A child whose link leads to the node. -/
def Under (a : A) (t : LinkedNode A K V) : Prop := t = nil ∨ t.parent = some a

/-- Every child leads to its parent. -/
def Linked : LinkedNode A K V → Prop
  | nil => True
  | node a _ _ _ _ x y => x.Under a ∧ y.Under a ∧ x.Linked ∧ y.Linked

/-- Every left child leads to its parent. A right child may lead to none. -/
def Loose : LinkedNode A K V → Prop
  | nil => True
  | node a _ _ _ _ x y => x.Under a ∧ (y.parent = some a ∨ y.parent = none) ∧ x.Loose ∧ y.Loose

theorem under_setParent (a : A) (t : LinkedNode A K V) : (t.setParent (some a)).Under a := by
  cases t
  · exact .inl rfl
  · exact .inr rfl

/-- A child whose link leads to the node or nowhere. -/
theorem Under.parent_or {a : A} {t : LinkedNode A K V} (h : t.Under a) :
    t.parent = some a ∨ t.parent = none := by
  rcases h with rfl | h
  · exact .inr rfl
  · exact .inl h

@[simp] theorem level_setParent (p : Option A) (t : LinkedNode A K V) :
    (t.setParent p).level = t.level := by
  cases t <;> rfl

@[simp] theorem right_setParent (p : Option A) (t : LinkedNode A K V) :
    (t.setParent p).right = t.right := by
  cases t <;> rfl

@[simp] theorem parent_setLevel (l : Int) (t : LinkedNode A K V) :
    (t.setLevel l).parent = t.parent := by
  cases t <;> rfl

@[simp] theorem loose_setParent {p : Option A} {t : LinkedNode A K V} :
    (t.setParent p).Loose ↔ t.Loose := by
  cases t <;> rfl

@[simp] theorem loose_setLevel {l : Int} {t : LinkedNode A K V} :
    (t.setLevel l).Loose ↔ t.Loose := by
  cases t <;> rfl

@[simp] theorem linked_setParent {p : Option A} {t : LinkedNode A K V} :
    (t.setParent p).Linked ↔ t.Linked := by
  cases t <;> rfl

/-- A rotation leaves the link of the root or sets it to null. -/
theorem skew_parent (t : LinkedNode A K V) : t.skew.parent = t.parent ∨ t.skew.parent = none := by
  fun_cases LinkedNode.skew t with
  | case4 => exact .inr rfl
  | _ => exact .inl rfl

theorem split_parent (t : LinkedNode A K V) :
    t.split.parent = t.parent ∨ t.split.parent = none := by
  cases t with
  | nil => exact .inl rfl
  | node a l k v p x y =>
    cases y with
    | nil => exact .inl rfl
    | node a' l' k' v' p' y z =>
      rw [split]
      split
      · exact .inr rfl
      · exact .inl rfl

theorem skew_split_parent (t : LinkedNode A K V) :
    t.skew.split.parent = t.parent ∨ t.skew.split.parent = none := by
  rcases split_parent t.skew with h | h
  · rw [h]
    exact skew_parent t
  · exact .inr h

theorem Loose.skew {t : LinkedNode A K V} (h : t.Loose) : t.skew.Loose := by
  fun_induction LinkedNode.skew t with
  | case1 => trivial
  | case2 => exact h
  | case3 a l k v p y hl ih =>
    obtain ⟨hx, hy, hlx, hly⟩ := h
    refine ⟨hx, ?_, hlx, ih hly⟩
    rcases skew_parent y with heq | hnone
    · rwa [heq]
    · exact .inr hnone
  | case4 a k v p y a' l' k' v' p' x z hl ih =>
    obtain ⟨-, hy, ⟨hx, -, hlx, hlz⟩, hly⟩ := h
    exact ⟨hx, skew_parent _, hlx, ih ⟨under_setParent _ _, hy, loose_setParent.mpr hlz, hly⟩⟩
  | case5 a l k v p y hl a' l' k' v' p' x z hne ih =>
    obtain ⟨hx, hy, hlx, hly⟩ := h
    refine ⟨hx, ?_, hlx, ih hly⟩
    rcases skew_parent y with heq | hnone
    · rwa [heq]
    · exact .inr hnone

theorem Loose.split {t : LinkedNode A K V} (h : t.Loose) : t.split.Loose := by
  fun_induction LinkedNode.split t with
  | case1 => trivial
  | case2 => exact h
  | case3 a l k v p x a' l' k' v' p' y z hroom ih =>
    obtain ⟨hx, -, hlx, hy, hz, hly, hlz⟩ := h
    refine ⟨.inr rfl, ?_, ⟨hx, (under_setParent a y).parent_or, hlx, loose_setParent.mpr hly⟩,
      ih hlz⟩
    rcases split_parent z with heq | hnone
    · rwa [heq]
    · exact .inr hnone
  | case4 => exact h

theorem Loose.rebalance {t : LinkedNode A K V} (h : t.Loose) : t.rebalance.Loose := by
  cases t with
  | nil => trivial
  | node a l k v p x y =>
    rw [LinkedNode.rebalance]
    split
    · obtain ⟨hx, hy, hlx, hly⟩ := h
      have hright : ∀ y', y' = (if l - 1 < y.level then y.setLevel (l - 1) else y) →
          (y'.parent = some a ∨ y'.parent = none) ∧ y'.Loose := by
        rintro _ rfl
        split
        · exact ⟨by rwa [parent_setLevel], loose_setLevel.mpr hly⟩
        · exact ⟨hy, hly⟩
      obtain ⟨hy', hly'⟩ := hright _ rfl
      have hnode : (node a (l - 1) k v p x
          (if l - 1 < y.level then y.setLevel (l - 1) else y)).Loose := ⟨hx, hy', hlx, hly'⟩
      exact hnode.skew.split
    · exact h

theorem rebalance_parent (t : LinkedNode A K V) :
    t.rebalance.parent = t.parent ∨ t.rebalance.parent = none := by
  cases t with
  | nil => exact .inl rfl
  | node a l k v p x y =>
    rw [rebalance]
    split
    · exact skew_split_parent _
    · exact .inl rfl

theorem Loose.insert {le : StrictWeakOrder K} {new : A} {key : K} {value : V}
    {t t' : LinkedNode A K V} (h : t.Loose) (hins : t.insert le new key value = .ok t') :
    t'.Loose ∧ (t'.parent = t.parent ∨ t'.parent = none) := by
  induction t generalizing t' with
  | nil =>
    cases hins
    exact ⟨⟨.inl rfl, .inr rfl, trivial, trivial⟩, .inl rfl⟩
  | node a l k v p x y ihx ihy =>
    obtain ⟨hx, hy, hlx, hly⟩ := h
    rw [LinkedNode.insert] at hins
    split at hins
    · rcases hres : LinkedNode.insert le new key value y with e | y' <;> rw [hres] at hins <;>
        cases hins
      have hnode : (node a l k v p x (y'.setParent (some a))).Loose :=
        ⟨hx, (under_setParent a y').parent_or, hlx, loose_setParent.mpr (ihy hly hres).1⟩
      exact ⟨hnode.skew.split, skew_split_parent _⟩
    split at hins
    · rcases hres : LinkedNode.insert le new key value x with e | x' <;> rw [hres] at hins <;>
        cases hins
      have hnode : (node a l k v p (x'.setParent (some a)) y).Loose :=
        ⟨under_setParent a x', hy, loose_setParent.mpr (ihx hlx hres).1, hly⟩
      exact ⟨hnode.skew.split, skew_split_parent _⟩
    · cases hins

theorem Loose.remove {le : StrictWeakOrder K} {t : LinkedNode A K V} (h : t.Loose) (key : K) :
    (t.remove le key).Loose ∧
      ((t.remove le key).parent = t.parent ∨ (t.remove le key).parent = none) := by
  fun_induction LinkedNode.remove le t key with
  | case1 => exact ⟨trivial, .inl rfl⟩
  | case2 a l k v p x y key hlt ih =>
    obtain ⟨hx, hy, hlx, hly⟩ := h
    have hnode : (node a l k v p x ((y.remove le key).setParent (some a))).Loose :=
      ⟨hx, (under_setParent a _).parent_or, hlx, loose_setParent.mpr (ih hly).1⟩
    exact ⟨hnode.rebalance, rebalance_parent _⟩
  | case3 a l k v p x y key hlt hgt ih =>
    obtain ⟨hx, hy, hlx, hly⟩ := h
    have hnode : (node a l k v p ((x.remove le key).setParent (some a)) y).Loose :=
      ⟨under_setParent a _, hy, loose_setParent.mpr (ih hlx).1, hly⟩
    exact ⟨hnode.rebalance, rebalance_parent _⟩
  | case4 a l k v p y key hlt hgt =>
    refine ⟨(loose_setParent.mpr h.2.2.2).rebalance, .inr ?_⟩
    rcases rebalance_parent (y.setParent none) with heq | hnone
    · rw [heq]
      cases y <;> rfl
    · exact hnone
  | case5 a l k v p key hlt hgt xa xl xk xv xp xx xy =>
    refine ⟨(loose_setParent.mpr h.2.2.1).rebalance, .inr ?_⟩
    rcases rebalance_parent ((node xa xl xk xv xp xx xy).setParent none) with heq | hnone
    · rw [heq]
      rfl
    · exact hnone
  | case6 a l k v p key hlt hgt xa xl xk xv xp xx xy ya yl yk yv yp yx yy last left ih =>
    obtain ⟨hx, hy, hlx, hly⟩ := h
    have hnode : (node a l last.1 last.2 p (left.setParent (some a))
        (node ya yl yk yv yp yx yy)).Loose :=
      ⟨under_setParent a _, hy, loose_setParent.mpr (ih hlx).1, hly⟩
    exact ⟨hnode.rebalance, rebalance_parent _⟩

/-! ## Insertions keep every link -/

theorem skew_of_ne {a : A} {l : Int} {k : K} {v : V} {p : Option A} {x y : LinkedNode A K V}
    (hl : l ≠ 0) (hx : x.level ≠ l) :
    (node a l k v p x y).skew = node a l k v p x y.skew := by
  cases x with
  | nil => rw [skew, if_neg hl]
  | node =>
    rw [skew, if_neg hl]
    exact if_neg hx

theorem skew_of_eq {a a' : A} {l : Int} {k k' : K} {v v' : V} {p p' : Option A}
    {x y z : LinkedNode A K V} (hl : l ≠ 0) :
    (node a l k v p (node a' l k' v' p' x z) y).skew
      = node a' l k' v' none x (node a l k v (some a') (z.setParent (some a)) y).skew := by
  rw [skew, if_neg hl, if_pos rfl]

theorem skew_of_levelled {t : LinkedNode A K V} (h : t.erase.Levelled) : t.skew = t := by
  induction t with
  | nil => rw [skew]
  | node a l k v p x y _ ihy =>
    obtain ⟨hx, -, -, hlx, hly⟩ := h
    have hnn := hlx.level_nonneg
    rw [erase_level] at hx hnn
    rw [skew_of_ne (by omega) (by omega), ihy hly]

theorem split_of_levelled {t : LinkedNode A K V} (h : t.erase.Levelled) : t.split = t := by
  cases t with
  | nil => rfl
  | node a l k v p x y =>
    cases y with
    | nil => rfl
    | node a' l' k' v' p' y z =>
      have hroom : z.level < l := by simpa using h.2.2.1
      rw [split, if_neg (by omega)]

theorem Linked.split {t : LinkedNode A K V} (h : t.Linked) (hright : t.right.erase.Levelled) :
    t.split.Linked := by
  cases t with
  | nil => trivial
  | node a l k v p x y =>
    cases y with
    | nil => exact h
    | node a' l' k' v' p' y z =>
      rw [LinkedNode.split]
      split
      · obtain ⟨hx, -, hlx, -, hz, hly, hlz⟩ := h
        rw [split_of_levelled hright.2.2.2.2]
        exact ⟨.inr rfl, hz, ⟨hx, under_setParent a y, hlx, linked_setParent.mpr hly⟩, hlz⟩
      · exact h

/-- The rotations keep the links of a node when none of them is farther down. -/
theorem Linked.skew_split {a : A} {l : Int} {k : K} {v : V} {p : Option A}
    {x y : LinkedNode A K V} (h : (node a l k v p x y).Linked) (hl : 0 < l)
    (hx : x.level = l → x.right.level ≠ l) (hy : y.erase.Levelled) :
    (node a l k v p x y).skew.split.Linked := by
  by_cases hlevel : x.level = l
  · -- the left child comes up, and the node stays as it is below it
    rcases x with - | ⟨a', l', k', v', p', x, z⟩
    · simp only [level] at hlevel
      omega
    obtain rfl : l' = l := hlevel
    have hz : (z.setParent (some a)).level ≠ l' := by
      rw [level_setParent]
      exact hx rfl
    obtain ⟨-, hya, ⟨hxa, -, hlx, hlz⟩, hly⟩ := h
    rw [skew_of_eq (by omega), skew_of_ne (by omega) hz, skew_of_levelled hy]
    have hinner : (node a l' k v (some a') (z.setParent (some a)) y).Linked :=
      ⟨under_setParent a z, hya, linked_setParent.mpr hlz, hly⟩
    rw [LinkedNode.split]
    split
    · rw [split_of_levelled hy]
      exact ⟨.inr rfl, hya, ⟨hxa, under_setParent a' _, hlx,
        linked_setParent.mpr (linked_setParent.mpr hlz)⟩, hly⟩
    · exact ⟨hxa, .inr rfl, hlx, hinner⟩
  · rw [skew_of_ne (by omega) hlevel, skew_of_levelled hy]
    exact h.split hy

/-- An insertion into a levelled tree keeps every link. -/
theorem Linked.insert {le : StrictWeakOrder K} {new : A} {key : K} {value : V}
    {t t' : LinkedNode A K V} (h : t.Linked) (hlev : t.erase.Levelled)
    (hins : t.insert le new key value = .ok t') : t'.Linked := by
  induction t generalizing t' with
  | nil =>
    cases hins
    exact ⟨.inl rfl, .inl rfl, trivial, trivial⟩
  | node a l k v p x y ihx ihy =>
    obtain ⟨hx, hy, hlx, hly⟩ := h
    obtain ⟨hxl, -, -, hlevx, hlevy⟩ := hlev
    have hnn := hlevx.level_nonneg
    rw [erase_level] at hxl hnn
    have hgrown : ∀ {s s' : LinkedNode A K V}, s.erase.Levelled →
        s.insert le new key value = .ok s' → Node.Grown s.erase s'.erase := by
      intro s s' hs hres
      refine Node.insert_grown hs (?_ : s.erase.insert le key value = .ok s'.erase)
      rw [← insert_erase le new, hres]
      rfl
    rw [LinkedNode.insert] at hins
    split at hins
    · rcases hres : LinkedNode.insert le new key value y with e | y' <;> rw [hres] at hins <;>
        cases hins
      have hnode : (node a l k v p x (y'.setParent (some a))).Linked :=
        ⟨hx, under_setParent a y', hlx, linked_setParent.mpr (ihy hly hlevy hres)⟩
      refine hnode.skew_split (by omega) (fun heq => ?_) ?_
      · omega
      · rw [erase_setParent]
        exact (hgrown hlevy hres).levelled
    split at hins
    · rcases hres : LinkedNode.insert le new key value x with e | x' <;> rw [hres] at hins <;>
        cases hins
      have hnode : (node a l k v p (x'.setParent (some a)) y).Linked :=
        ⟨under_setParent a x', hy, linked_setParent.mpr (ihx hlx hlevx hres), hly⟩
      refine hnode.skew_split (by omega) (fun heq => ?_) hlevy
      have hg := (hgrown hlevx hres).level
      simp only [erase_level, erase_right] at hg
      rw [level_setParent] at heq
      rw [right_setParent]
      omega
    · cases hins

end LinkedNode

/-! ## Whole trees -/

/-- The tree without addresses and links. -/
def LinkedTree.erase (t : LinkedTree A K V) : Tree K V := ⟨t.le, t.root.erase⟩

/-- What the calls keep: the tree stands for the map, each node has its own address, and links are
    missing at right children only. -/
structure LinkedTree.Sound (t : LinkedTree A K V) (m : K → Option V) : Prop where
  represents : t.erase.Represents m
  nodup : t.root.addrs.Nodup
  loose : t.root.Loose
  parent : t.root.parent = none

namespace LinkedTree

theorem empty_sound (le : StrictWeakOrder K) :
    (empty le : LinkedTree A K V).Sound fun _ => none :=
  ⟨Tree.represents_empty le, List.nodup_nil, trivial, rfl⟩

/-- An `add` throws, or its insertion gives the new root. -/
theorem call_add (t : LinkedTree A K V) (new : Fresh A) (key : K) (value : V) :
    (∃ e, t.root.insert t.le (new t.root.addrs).1 key value = .error e ∧
      t.call new (.add key value) = t) ∨
    ∃ root, t.root.insert t.le (new t.root.addrs).1 key value = .ok root ∧
      t.call new (.add key value) = { t with root } := by
  rcases hres : t.root.insert t.le (new t.root.addrs).1 key value with e | root
  · refine .inl ⟨e, rfl, ?_⟩
    rw [LinkedNode.addrs] at hres
    simp only [call, add, hres, Except.map]
  · refine .inr ⟨root, rfl, ?_⟩
    rw [LinkedNode.addrs] at hres
    simp only [call, add, hres, Except.map]

/-- A call is the call of the tree without links. -/
theorem call_erase (t : LinkedTree A K V) (new : Fresh A) (op : TreeOp K V) :
    (t.call new op).erase = t.erase.call op := by
  cases op with
  | remove key =>
    simp only [call, remove, erase, Tree.call, Tree.remove, LinkedNode.remove_erase]
  | add key value =>
    have h := LinkedNode.insert_erase t.le (new t.root.addrs).1 key value t.root
    rcases call_add t new key value with ⟨e, hres, heq⟩ | ⟨root, hres, heq⟩ <;>
      rw [hres] at h <;> simp only [heq, erase, Tree.call, Tree.add, ← h, Except.map]

theorem call_le (t : LinkedTree A K V) (new : Fresh A) (op : TreeOp K V) :
    (t.call new op).le = t.le := by
  cases op with
  | remove key => rfl
  | add key value =>
    rcases call_add t new key value with ⟨e, -, heq⟩ | ⟨root, -, heq⟩ <;> rw [heq]

variable {t : LinkedTree A K V} {m : K → Option V}

theorem Sound.remove (h : t.Sound m) (key : K) :
    (t.remove key).Sound ((TreeOp.remove key).record t.le m) := by
  have hrep : (t.remove key).erase = t.erase.remove key := by
    rw [erase, LinkedTree.remove, LinkedNode.remove_erase]
    rfl
  obtain ⟨hloose, hparent⟩ := (h.loose.remove key : (t.root.remove t.le key).Loose ∧ _)
  refine ⟨hrep ▸ h.represents.remove key,
    h.nodup.sublist (LinkedNode.remove_addrs t.le t.root key), hloose, ?_⟩
  exact hparent.elim (·.trans h.parent) id

theorem Sound.call (h : t.Sound m) (new : Fresh A) (op : TreeOp K V) :
    (t.call new op).Sound (op.record t.le m) := by
  have hrep : (t.call new op).erase.Represents (op.record t.le m) := by
    rw [call_erase]
    exact (h.represents.call op).2
  cases op with
  | remove key => exact h.remove key
  | add key value =>
    rcases call_add t new key value with ⟨e, -, heq⟩ | ⟨root, hres, heq⟩
    · rw [heq] at hrep ⊢
      exact ⟨hrep, h.nodup, h.loose, h.parent⟩
    · rw [heq] at hrep ⊢
      obtain ⟨hloose, hparent⟩ := h.loose.insert hres
      refine ⟨hrep, ?_, hloose, hparent.elim (·.trans h.parent) id⟩
      exact (LinkedNode.insert_addrs hres).nodup_iff.mpr
        (List.nodup_cons.mpr ⟨(new t.root.addrs).2, h.nodup⟩)

/-- The tree after any calls. -/
theorem sound_after (le : StrictWeakOrder K) (ops : List (TreeOp K V × Fresh A)) :
    (after le ops).le = le ∧ (after le ops).Sound (recorded le (ops.map (·.1))) := by
  induction ops using List.reverseRecOn with
  | nil => exact ⟨rfl, empty_sound le⟩
  | append_singleton ops op ih =>
    obtain ⟨hle, hsound⟩ := ih
    rw [after, recorded, List.map_append, List.foldl_append, List.foldl_append]
    refine ⟨(call_le ..).trans hle, ?_⟩
    have := hsound.call op.2 op.1
    rw [hle] at this
    exact this

/-- An `add` keeps every link. -/
theorem Sound.linked_add (h : t.Sound m) (hlinked : t.root.Linked) (new : Fresh A) (key : K)
    (value : V) : (t.call new (.add key value)).root.Linked := by
  rcases call_add t new key value with ⟨e, -, heq⟩ | ⟨root, hres, heq⟩
  · rwa [heq]
  · rw [heq]
    exact hlinked.insert h.represents.levelled hres

end LinkedTree

end EsOs.Es
