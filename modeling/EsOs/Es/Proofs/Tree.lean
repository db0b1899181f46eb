import Mathlib
import EsOs.Es.Tree

/-!
# The tree is a finite map

The rotations keep the records of the tree in their order, and the recursion puts a level rule
that one of the two subtrees breaks right again. Both give what every sequence of calls leaves.
-/

namespace EsOs.Es

open EsOs.Lib

variable {K V : Type _}

namespace Node

/-- The level rules: the left child is one level below its parent, the right child on the level
    of its parent or one below, the right grandchild below the level of the node. As `nil` is on
    level 0, a leaf is on level 1. -/
def Levelled : Node K V → Prop
  | nil => True
  | node l _ _ a b =>
      a.level = l - 1 ∧ (b.level = l ∨ b.level = l - 1) ∧ b.right.level < l ∧
        a.Levelled ∧ b.Levelled

/-- The search tree rule: the keys of the left subtree come before the key of the node, those of
    the right subtree after it. -/
def Bst (le : StrictWeakOrder K) : Node K V → Prop
  | nil => True
  | node _ k _ a b =>
      (∀ p ∈ a.toList, le.lt p.1 k = true) ∧ (∀ p ∈ b.toList, le.lt k p.1 = true) ∧
        a.Bst le ∧ b.Bst le

@[simp] theorem level_nil : (nil : Node K V).level = 0 := rfl

@[simp] theorem right_nil : (nil : Node K V).right = nil := rfl

@[simp] theorem level_node (l : Int) (k : K) (v : V) (a b : Node K V) :
    (node l k v a b).level = l := rfl

@[simp] theorem right_node (l : Int) (k : K) (v : V) (a b : Node K V) :
    (node l k v a b).right = b := rfl

@[simp] theorem toList_nil : (nil : Node K V).toList = [] := rfl

@[simp] theorem toList_node (l : Int) (k : K) (v : V) (a b : Node K V) :
    (node l k v a b).toList = a.toList ++ (k, v) :: b.toList := rfl

@[simp] theorem levelled_nil : (nil : Node K V).Levelled := trivial

@[simp] theorem levelled_node {l : Int} {k : K} {v : V} {a b : Node K V} :
    (node l k v a b).Levelled ↔
      a.level = l - 1 ∧ (b.level = l ∨ b.level = l - 1) ∧ b.right.level < l ∧
        a.Levelled ∧ b.Levelled := Iff.rfl

theorem size_eq (t : Node K V) : t.size = t.toList.length := by
  induction t with
  | nil => rfl
  | node l k v a b iha ihb =>
    simp only [size, iha, ihb, toList_node, List.length_append, List.length_cons]
    omega

/-- The search tree rule says that the records are sorted. -/
theorem bst_iff {le : StrictWeakOrder K} {t : Node K V} : t.Bst le ↔ le.Sorted t.toList := by
  induction t with
  | nil => exact ⟨fun _ => List.Pairwise.nil, fun _ => trivial⟩
  | node l k v a b iha ihb =>
    rw [Bst, toList_node, StrictWeakOrder.sorted_mid, iha, ihb]

/-! ## Rotations -/

theorem skewLeft_toList (l : Int) (k : K) (v : V) (b : Node K V) (t : Node K V) :
    (skewLeft l k v b t).toList = t.toList ++ (k, v) :: b.toList := by
  induction t with
  | nil => rfl
  | node l' k' v' a b' _ ih =>
    unfold skewLeft
    split
    · simp [ih]
    · rfl

@[simp] theorem skew_toList (t : Node K V) : t.skew.toList = t.toList := by
  induction t with
  | nil => rfl
  | node l k v a b _ ih =>
    unfold skew
    split
    · rfl
    · rw [skewLeft_toList, ih, toList_node]

@[simp] theorem split_toList (t : Node K V) : t.split.toList = t.toList := by
  fun_induction split t with
  | case1 => rfl
  | case2 => rfl
  | case3 l k v a l' k' v' a' b' h ih => simp [ih]
  | case4 => rfl

@[simp] theorem setLevel_toList (l : Int) (t : Node K V) : (t.setLevel l).toList = t.toList := by
  cases t <;> rfl

@[simp] theorem rebalance_toList (t : Node K V) : t.rebalance.toList = t.toList := by
  cases t with
  | nil => rfl
  | node l k v a b =>
    rw [rebalance]
    split
    · rw [split_toList, skew_toList, toList_node, toList_node]
      split <;> simp
    · rfl

/-! ## Levels -/

theorem Levelled.level_nonneg {t : Node K V} (h : t.Levelled) : 0 ≤ t.level := by
  induction t with
  | nil => exact Int.le_refl 0
  | node l k v a b iha _ =>
    have := iha h.2.2.2.1
    have := h.1
    rw [level_node]
    omega

theorem Levelled.right_le {t : Node K V} (h : t.Levelled) : t.right.level ≤ t.level := by
  cases t with
  | nil => exact Int.le_refl 0
  | node l k v a b =>
    have := h.2.1
    rw [level_node, right_node]
    omega

/-- A node of level 0 is `nil`. -/
theorem Levelled.eq_nil {t : Node K V} (h : t.Levelled) (h0 : t.level ≤ 0) : t = nil := by
  cases t with
  | nil => rfl
  | node l k v a b =>
    have := h.2.2.2.1.level_nonneg
    have := h.1
    rw [level_node] at h0
    omega

/-- A node of a positive level has its fields. -/
theorem exists_of_level {t : Node K V} {l : Int} (h : t.level = l) (hl : 0 < l) :
    ∃ k v a b, t = node l k v a b := by
  cases t with
  | nil => exact absurd h (Int.ne_of_lt hl)
  | node _ k v a b => exact ⟨k, v, a, b, h ▸ rfl⟩

/-- Without a left child of the node's level, `skew` goes on to the right. -/
theorem skew_of_ne {l : Int} {k : K} {v : V} {a b : Node K V} (hl : l ≠ 0) (h : a.level ≠ l) :
    (node l k v a b).skew = node l k v a b.skew := by
  rw [skew, if_neg hl]
  cases a with
  | nil => rfl
  | node l' k' v' a' b' => exact if_neg h

/-- With a left child of the node's level, `skew` turns to the right once and goes on. -/
theorem skew_of_eq {l : Int} {k k' : K} {v v' : V} {a b c : Node K V} (hl : l ≠ 0) :
    (node l k v (node l k' v' a b) c).skew = node l k' v' a (node l k v b c).skew := by
  rw [skew, if_neg hl, skewLeft, if_pos rfl, skew, if_neg hl]

theorem Levelled.skew_eq {t : Node K V} (h : t.Levelled) : t.skew = t := by
  induction t with
  | nil => rfl
  | node l k v a b _ ihb =>
    have := h.2.2.2.1.level_nonneg
    have := h.1
    rw [skew_of_ne (by omega) (by omega), ihb h.2.2.2.2]

/-- Without a right grandchild of the node's level, `split` does nothing. -/
theorem split_of_ne {l : Int} {k : K} {v : V} {a b : Node K V} (h : b.right.level ≠ l) :
    (node l k v a b).split = node l k v a b := by
  cases b with
  | nil => rfl
  | node l' k' v' a' b' => rw [split, if_neg fun hand => h hand.2]

/-- With a right grandchild of the node's level, the right child comes up one level. -/
theorem split_of_eq {l : Int} {k k' : K} {v v' : V} {a b c : Node K V} (hl : l ≠ 0)
    (h : c.level = l) :
    (node l k v a (node l k' v' b c)).split = node (l + 1) k' v' (node l k v a b) c.split := by
  rw [split, if_pos ⟨hl, h⟩]

theorem Levelled.split_eq {t : Node K V} (h : t.Levelled) : t.split = t := by
  cases t with
  | nil => rfl
  | node l k v a b => exact split_of_ne (Int.ne_of_lt h.2.2.1)

/-- `split` puts a node right whose right grandchild may be on its level. -/
theorem split_levelled {l : Int} {k : K} {v : V} {a b : Node K V} (hl : 0 < l)
    (hla : a.level = l - 1) (hlb : b.level = l ∨ b.level = l - 1) (ha : a.Levelled)
    (hb : b.Levelled) :
    (node l k v a b).split.Levelled ∧ (node l k v a b).split.right.level < l + 1 ∧
      ((node l k v a b).split.level = l ∨
        (node l k v a b).split.level = l + 1 ∧ b.right.level = l) := by
  have hle := hb.right_le
  by_cases hroom : b.right.level = l
  · -- three nodes of one level: the one in the middle comes up
    obtain ⟨k', v', c, d, rfl⟩ := exists_of_level (show b.level = l by omega) hl
    obtain ⟨hc, -, hdd, hcl, hdl⟩ := hb
    rw [right_node] at hroom
    have hcc := hcl.right_le
    rw [split_of_eq (by omega) hroom, hdl.split_eq]
    refine ⟨⟨by simp, .inr (by omega), by omega, ⟨hla, .inr hc, by omega, ha, hcl⟩, hdl⟩, ?_, ?_⟩
    · rw [right_node]
      omega
    · exact .inr ⟨rfl, hroom⟩
  · rw [split_of_ne hroom]
    refine ⟨⟨hla, hlb, by omega, ha, hb⟩, ?_, .inl rfl⟩
    rw [right_node]
    omega

/-- What an insertion does to the level of a subtree: it may come up one level, and then it was
    the left one of two nodes of its level and its new root stands alone. -/
structure Grown (t t' : Node K V) : Prop where
  levelled : t'.Levelled
  level : t'.level = t.level ∨
    t'.level = t.level + 1 ∧ t'.right.level < t'.level ∧ t.right.level = t.level

/-- What a removal does to the level of a subtree: it may come down one level, and a root that
    stood alone still has only lower nodes on its right. -/
structure Shrunk (t t' : Node K V) : Prop where
  levelled : t'.Levelled
  level : t'.level = t.level ∨ t'.level = t.level - 1
  right : t.right.level < t.level → t'.right.level < t.level

section Insert

variable {l : Int} {k : K} {v : V} {a b a' b' : Node K V}

/-- An insertion on the right. -/
theorem Grown.ofRight (h : (node l k v a b).Levelled) (hb : Grown b b') :
    Grown (node l k v a b) (node l k v a b').skew.split := by
  obtain ⟨ha, hlb, hbb, hal, hbl⟩ := h
  have hnn := hal.level_nonneg
  have hle := hb.levelled.right_le
  rw [skew_of_ne (by omega) (by omega), hb.levelled.skew_eq]
  have hlb' : b'.level = l ∨ b'.level = l - 1 := by
    rcases hb.level with h | h <;> omega
  obtain ⟨hlev, hright, hup⟩ :=
    split_levelled (k := k) (v := v) (by omega) ha hlb' hal hb.levelled
  refine ⟨hlev, hup.imp_right fun ⟨hup, hroom⟩ => ⟨hup, by rw [hup]; exact hright, ?_⟩⟩
  rw [right_node, level_node]
  rcases hb.level with h | h <;> omega

/-- An insertion on the left. -/
theorem Grown.ofLeft (h : (node l k v a b).Levelled) (ha : Grown a a') :
    Grown (node l k v a b) (node l k v a' b).skew.split := by
  obtain ⟨hla, hlb, hbb, hal, hbl⟩ := h
  have hnn := hal.level_nonneg
  rcases ha.level with hsame | ⟨hup, halone, -⟩
  · have hlev : (node l k v a' b).Levelled := ⟨by omega, hlb, hbb, ha.levelled, hbl⟩
    rw [hlev.skew_eq, hlev.split_eq]
    exact ⟨hlev, .inl rfl⟩
  · -- the left child is on the level of the node: it becomes the root
    have hlevel : a'.level = l := by omega
    obtain ⟨k', v', c, d, rfl⟩ := exists_of_level hlevel (by omega)
    obtain ⟨hc, hd, -, hcl, hdl⟩ := ha.levelled
    rw [right_node, level_node] at halone
    have hnode : (node l k v d b).Levelled := ⟨by omega, hlb, hbb, hdl, hbl⟩
    rw [skew_of_eq (by omega), hnode.skew_eq]
    by_cases hroom : b.level = l
    · rw [split_of_eq (by omega) hroom, hbl.split_eq]
      refine ⟨⟨by simp, .inr (by omega), by omega, ⟨hc, hd, ?_, hcl, hdl⟩, hbl⟩,
        .inr ⟨rfl, ?_, ?_⟩⟩
      · have := hdl.right_le
        omega
      · simp only [right_node, level_node]
        omega
      · exact hroom
    · rw [split_of_ne (b := node l k v d b) hroom]
      exact ⟨⟨hc, .inl rfl, by rw [right_node]; omega, hcl, hnode⟩, .inl rfl⟩

end Insert

section Remove

variable {l : Int} {k : K} {v : V} {a b a' b' : Node K V}

/-- A root one level above its children stays. -/
theorem rebalance_of_levelled {t : Node K V} (h : t.Levelled) : t.rebalance = t := by
  cases t with
  | nil => rfl
  | node l k v a b =>
    obtain ⟨ha, hb, -⟩ := h
    rw [rebalance, if_neg (by omega)]

/-- A removal on the right. -/
theorem Shrunk.ofRight (h : (node l k v a b).Levelled) (hb : Shrunk b b') :
    Shrunk (node l k v a b) (node l k v a b').rebalance := by
  obtain ⟨hla, hlb, hbb, hal, hbl⟩ := h
  have hnn := hal.level_nonneg
  have hnn' := hb.levelled.level_nonneg
  have hle := hb.levelled.right_le
  have hright := hb.right
  by_cases hlow : b'.level < l - 1
  · -- the node comes down to the level of its left child, which becomes the root
    obtain ⟨k', v', c, d, rfl⟩ := exists_of_level hla (by omega)
    obtain ⟨hc, hd, hdd, hcl, hdl⟩ := hal
    rw [rebalance, if_pos (.inr hlow)]
    simp only [show ¬l - 1 < b'.level by omega, if_false]
    rw [skew_of_eq (by omega)]
    have hb' : b'.level = l - 2 := by
      rcases hb.level with h | h <;> omega
    rcases hd with hd | hd
    · -- so does the right child of that one, which splits the three of them
      obtain ⟨k₂, v₂, e, f, rfl⟩ := exists_of_level hd (by omega)
      obtain ⟨he, hf, hff, hel, hfl⟩ := hdl
      rw [right_node] at hdd
      have hnode : (node (l - 1) k v f b').Levelled :=
        ⟨by omega, by omega, by omega, hfl, hb.levelled⟩
      rw [skew_of_eq (by omega), hnode.skew_eq, split_of_eq (l := l - 1) (by omega) rfl,
        hnode.split_eq]
      refine ⟨⟨by simp, .inr (by simp), ?_, ⟨hc, .inr he, ?_, hcl, hel⟩, hnode⟩,
        .inl (by simp), ?_⟩
      · simp only [right_node]
        omega
      · have := hel.right_le
        omega
      · simp only [right_node, level_node]
        omega
    · have hnode : (node (l - 1) k v d b').Levelled :=
        ⟨hd, by omega, by omega, hdl, hb.levelled⟩
      rw [hnode.skew_eq, split_of_ne (by rw [right_node]; omega)]
      refine ⟨⟨hc, .inl rfl, by rw [right_node]; omega, hcl, hnode⟩, .inr rfl, ?_⟩
      simp only [right_node, level_node]
      omega
  · have hnode : (node l k v a b').Levelled := by
      refine ⟨hla, ?_, ?_, hal, hb.levelled⟩
      · rcases hb.level with h | h <;> omega
      · rcases hlb with h | h
        · rw [h] at hright
          exact hright hbb
        · rcases hb.level with h' | h' <;> omega
    rw [rebalance_of_levelled hnode]
    refine ⟨hnode, .inl rfl, ?_⟩
    simp only [right_node, level_node]
    rcases hb.level with h | h <;> omega

/-- A removal on the left. -/
theorem Shrunk.ofLeft (h : (node l k v a b).Levelled) (ha : Shrunk a a') :
    Shrunk (node l k v a b) (node l k v a' b).rebalance := by
  obtain ⟨hla, hlb, hbb, hal, hbl⟩ := h
  have hnn := hal.level_nonneg
  have hnn' := ha.levelled.level_nonneg
  by_cases hlow : a'.level < l - 1
  · have ha' : a'.level = l - 2 := by
      rcases ha.level with h | h <;> omega
    rw [rebalance, if_pos (.inl hlow)]
    rcases hlb with hlb | hlb
    · -- the right child comes down with the node
      obtain ⟨k₁, v₁, c, d, rfl⟩ := exists_of_level hlb (by omega)
      obtain ⟨hc, hd, hdd, hcl, hdl⟩ := hbl
      rw [right_node] at hbb
      simp only [level_node, show l - 1 < l by omega, if_true, setLevel]
      rw [skew_of_ne (by omega) (by omega)]
      obtain ⟨k₂, v₂, e, f, rfl⟩ := exists_of_level hc (by omega)
      obtain ⟨he, hf, hff, hel, hfl⟩ := hcl
      rw [skew_of_eq (by omega)]
      -- the right branch behind the node that comes up
      have hrest : (node (l - 1) k₁ v₁ f d).skew.level = l - 1 ∧
          (node (l - 1) k₁ v₁ f d).skew.split.Levelled ∧
          (node (l - 1) k₁ v₁ f d).skew.split.right.level < l ∧
          ((node (l - 1) k₁ v₁ f d).skew.split.level = l ∨
            (node (l - 1) k₁ v₁ f d).skew.split.level = l - 1) := by
        have hpos : 0 < l - 1 := by omega
        rcases hf with hf | hf
        · obtain ⟨k₃, v₃, g, h, rfl⟩ := exists_of_level hf hpos
          obtain ⟨hg, hh, hhh, hgl, hhl⟩ := hfl
          rw [right_node] at hff
          have hh' : h.level = l - 1 - 1 := hh.resolve_left (by omega)
          rw [skew_of_eq (by omega), skew_of_ne (by omega) (by omega), hdl.skew_eq,
            split_of_eq (l := l - 1) (by omega) (by omega), hdl.split_eq]
          refine ⟨rfl, ⟨by simp, .inr (by omega), by omega, ⟨hg, .inr hh', by omega, hgl, hhl⟩,
            hdl⟩, ?_, .inl (by simp)⟩
          rw [right_node]
          omega
        · rw [skew_of_ne (by omega) (by omega), hdl.skew_eq]
          obtain ⟨hlev, hright, hup⟩ :=
            split_levelled (k := k₁) (v := v₁) hpos hf (.inl (by omega)) hfl hdl
          exact ⟨rfl, hlev, by omega, by omega⟩
      obtain ⟨hlevel, hrl, hrr, hlr⟩ := hrest
      rw [split_of_eq (by omega) hlevel]
      have := hel.right_le
      refine ⟨⟨by simp, by omega, by omega, ⟨by omega, .inr he, by omega, ha.levelled, hel⟩, hrl⟩,
        .inl (by simp), ?_⟩
      simp only [right_node, level_node]
      omega
    · simp only [show ¬l - 1 < b.level by omega, if_false]
      rw [skew_of_ne (by omega) (by omega), hbl.skew_eq]
      obtain ⟨hlev, hright, hup⟩ := split_levelled (k := k) (v := v)
        (show 0 < l - 1 by omega) (show a'.level = l - 1 - 1 by omega) (.inl hlb) ha.levelled hbl
      refine ⟨hlev, ?_, fun _ => ?_⟩
      · rw [level_node]
        omega
      · rw [level_node]
        omega
  · have hnode : (node l k v a' b).Levelled := by
      refine ⟨?_, hlb, hbb, ha.levelled, hbl⟩
      rcases ha.level with h | h <;> omega
    rw [rebalance_of_levelled hnode]
    exact ⟨hnode, .inl rfl, fun h => h⟩

end Remove

/-! ## Insertion and removal -/

section Calls

variable {le : StrictWeakOrder K} {t : Node K V} {key : K} {value : V}

theorem Grown.refl (h : t.Levelled) : Grown t t := ⟨h, .inl rfl⟩

theorem insert_grown (h : t.Levelled) {t' : Node K V} (hi : t.insert le key value = .ok t') :
    Grown t t' := by
  induction t generalizing t' with
  | nil =>
    cases hi
    exact ⟨by simp, .inr ⟨rfl, by simp, rfl⟩⟩
  | node l k v a b iha ihb =>
    unfold insert at hi
    split at hi
    · cases hb : insert le key value b with
      | error e => rw [hb] at hi; cases hi
      | ok b' =>
        rw [hb] at hi
        cases hi
        exact (ihb h.2.2.2.2 hb).ofRight h
    split at hi
    · cases ha : insert le key value a with
      | error e => rw [ha] at hi; cases hi
      | ok a' =>
        rw [ha] at hi
        cases hi
        exact (iha h.2.2.2.1 ha).ofLeft h
    · cases hi

/-- What `insert` does to the records: it puts the new one in its place, or finds its key. -/
theorem insert_spec (h : le.Sorted t.toList) (key : K) (value : V) :
    (∃ t' before after, t.insert le key value = .ok t' ∧ t.toList = before ++ after ∧
      t'.toList = before ++ (key, value) :: after ∧
      (∀ q ∈ before, le.lt q.1 key = true) ∧ ∀ q ∈ after, le.lt key q.1 = true) ∨
    t.insert le key value = .error .eexist ∧ ∃ q ∈ t.toList, le.equiv key q.1 = true := by
  induction t with
  | nil => exact .inl ⟨_, [], [], rfl, rfl, rfl, by simp, by simp⟩
  | node l k v a b iha ihb =>
    obtain ⟨hak, hkb, ha, hb⟩ := StrictWeakOrder.sorted_mid.mp h
    rw [insert]
    by_cases hlt : le.lt k key = true
    · rw [if_pos hlt]
      rcases ihb hb with ⟨b', before, after, hres, hold, hnew, hbefore, hafter⟩ | ⟨hres, q, hq, he⟩
      · refine .inl ⟨_, a.toList ++ (k, v) :: before, after, by rw [hres]; rfl, ?_, ?_, ?_, hafter⟩
        · simp [hold]
        · simp [hnew]
        · intro q hq
          rcases List.mem_append.mp hq with hq | hq
          · exact le.trans _ _ _ (hak q hq) hlt
          · rcases List.mem_cons.mp hq with rfl | hq
            · exact hlt
            · exact hbefore q hq
      · exact .inr ⟨by rw [hres]; rfl, q, by simp [hq], he⟩
    rw [if_neg hlt]
    by_cases hgt : le.lt key k = true
    · rw [if_pos hgt]
      rcases iha ha with ⟨a', before, after, hres, hold, hnew, hbefore, hafter⟩ | ⟨hres, q, hq, he⟩
      · refine .inl ⟨_, before, after ++ (k, v) :: b.toList, by rw [hres]; rfl, ?_, ?_, hbefore, ?_⟩
        · simp [hold]
        · simp [hnew]
        · intro q hq
          rcases List.mem_append.mp hq with hq | hq
          · exact hafter q hq
          · rcases List.mem_cons.mp hq with rfl | hq
            · exact hgt
            · exact le.trans _ _ _ hgt (hkb q hq)
      · exact .inr ⟨by rw [hres]; rfl, q, by simp [hq], he⟩
    · rw [if_neg hgt]
      exact .inr ⟨rfl, (k, v), by simp, by simp [StrictWeakOrder.equiv, hlt, hgt]⟩

/-- The heir is the last record. -/
theorem exists_heir (t : Node K V) (k : K) (v : V) (ht : t ≠ nil) :
    ∃ init, t.toList = init ++ [t.heir k v] := by
  induction t generalizing k v with
  | nil => exact absurd rfl ht
  | node l k' v' a b _ ihb =>
    cases b with
    | nil => exact ⟨a.toList, rfl⟩
    | node l₂ k₂ v₂ c d =>
      obtain ⟨init, hinit⟩ := ihb k' v' nofun
      exact ⟨a.toList ++ (k', v') :: init, by rw [toList_node, hinit]; simp [heir]⟩

theorem Shrunk.rekeyed {l : Int} {k k' : K} {v v' : V} {a b t : Node K V}
    (h : Shrunk (node l k v a b) t) : Shrunk (node l k' v' a b) t :=
  ⟨h.levelled, h.level, h.right⟩

theorem remove_shrunk (h : t.Levelled) (key : K) : Shrunk t (t.remove le key) := by
  induction t generalizing key with
  | nil => exact ⟨h, .inl rfl, fun h => h⟩
  | node l k v a b iha ihb =>
    obtain ⟨hla, hlb, hbb, hal, hbl⟩ := h
    unfold remove
    split
    · exact (ihb hbl key).ofRight ⟨hla, hlb, hbb, hal, hbl⟩
    split
    · exact (iha hal key).ofLeft ⟨hla, hlb, hbb, hal, hbl⟩
    split
    · rw [rebalance_of_levelled hbl]
      rw [level_nil] at hla
      refine ⟨hbl, by rw [level_node]; omega, fun _ => ?_⟩
      rw [level_node]
      omega
    · split
      · have := hal.level_nonneg
        simp only [level_nil, level_node] at hla hlb this
        obtain ⟨hx, -, -, hxl, -⟩ := hal
        have := hxl.level_nonneg
        omega
      · dsimp only
        exact ((iha hal _).ofLeft ⟨hla, hlb, hbb, hal, hbl⟩).rekeyed

/-- What `remove` does to the records: the one of the key goes. -/
theorem remove_toList (h : le.Sorted t.toList) (key : K) :
    (t.remove le key).toList = t.toList.filter fun q => !le.equiv key q.1 := by
  induction t generalizing key with
  | nil => rfl
  | node l k v a b iha ihb =>
    obtain ⟨hak, hkb, ha, hb⟩ := StrictWeakOrder.sorted_mid.mp h
    rw [toList_node, List.filter_append, List.filter_cons]
    by_cases hlt : le.lt k key = true
    · have hleft := StrictWeakOrder.filter_of_lt fun q hq => le.trans _ _ _ (hak q hq) hlt
      unfold remove
      rw [if_pos hlt]
      simp [ihb hb, hleft, StrictWeakOrder.equiv_of_gt hlt]
    by_cases hgt : le.lt key k = true
    · have hright := StrictWeakOrder.filter_of_gt fun q hq => le.trans _ _ _ hgt (hkb q hq)
      unfold remove
      rw [if_neg hlt, if_pos hgt]
      simp [iha ha, hright, StrictWeakOrder.equiv_of_lt hgt]
    have heq : le.equiv key k = true := by simp [StrictWeakOrder.equiv, hlt, hgt]
    have heq' : le.equiv k key = true := by rwa [StrictWeakOrder.equiv_comm]
    have hleft := StrictWeakOrder.filter_of_lt fun q hq =>
      StrictWeakOrder.lt_of_lt_equiv (hak q hq) heq'
    have hright := StrictWeakOrder.filter_of_gt fun q hq =>
      StrictWeakOrder.lt_of_equiv_lt heq (hkb q hq)
    rw [hleft, hright, heq]
    unfold remove
    rw [if_neg hlt, if_neg hgt]
    cases a with
    | nil => simp
    | node la ka va aa ab =>
      cases b with
      | nil => simp
      | node lb kb vb ba bb =>
        obtain ⟨init, hlast⟩ := (node la ka va aa ab).exists_heir ka va (by simp)
        dsimp only
        rw [rebalance_toList, toList_node, iha ha]
        generalize (node la ka va aa ab).heir ka va = last at hlast
        generalize node la ka va aa ab = a at *
        have hkeep : ∀ q ∈ init, le.lt q.1 last.1 = true :=
          ((StrictWeakOrder.sorted_mid (r := [])).mp (hlast ▸ ha)).1
        rw [hlast, List.filter_append, StrictWeakOrder.filter_of_lt hkeep]
        simp

/-- `get` finds the record of the key. -/
theorem get_spec (h : le.Sorted t.toList) (key : K) :
    t.get le key = match t.toList.find? fun q => le.equiv key q.1 with
      | some q => .ok q.2
      | none => .error .enoent := by
  induction t with
  | nil => rfl
  | node l k v a b iha ihb =>
    obtain ⟨hak, hkb, ha, hb⟩ := StrictWeakOrder.sorted_mid.mp h
    rw [get, toList_node, List.find?_append, List.find?_cons]
    by_cases hlt : le.lt k key = true
    · have hleft : a.toList.find? (fun q => le.equiv key q.1) = none := by
        refine List.find?_eq_none.mpr fun q hq => ?_
        simp [StrictWeakOrder.equiv_of_gt (le.trans _ _ _ (hak q hq) hlt)]
      rw [if_pos hlt, ihb hb, hleft]
      simp [StrictWeakOrder.equiv_of_gt hlt]
    by_cases hgt : le.lt key k = true
    · have hright : b.toList.find? (fun q => le.equiv key q.1) = none := by
        refine List.find?_eq_none.mpr fun q hq => ?_
        simp [StrictWeakOrder.equiv_of_lt (le.trans _ _ _ hgt (hkb q hq))]
      rw [if_neg hlt, if_pos hgt, iha ha, hright]
      simp [StrictWeakOrder.equiv_of_lt hgt]
    · have heq : le.equiv key k = true := by simp [StrictWeakOrder.equiv, hlt, hgt]
      have heq' : le.equiv k key = true := by rwa [StrictWeakOrder.equiv_comm]
      have hleft : a.toList.find? (fun q => le.equiv key q.1) = none := by
        refine List.find?_eq_none.mpr fun q hq => ?_
        simp [StrictWeakOrder.equiv_of_gt (StrictWeakOrder.lt_of_lt_equiv (hak q hq) heq')]
      rw [if_neg hlt, if_neg hgt, hleft, heq]
      rfl

theorem contains_eq (t : Node K V) (key : K) :
    t.contains le key = (t.get le key).isOk := by
  induction t with
  | nil => rfl
  | node l k v a b iha ihb =>
    rw [contains, get]
    split
    · exact ihb
    split
    · exact iha
    · rfl

end Calls

end Node

/-! ## The finite map -/

/-- One call on the finite map that the tree stands for. -/
def TreeOp.record (le : StrictWeakOrder K) (m : K → Option V) : TreeOp K V → K → Option V
  | .add key value => fun k =>
      if (m key).isSome then m k else if le.equiv k key then some value else m k
  | .remove key => fun k => if le.equiv k key then none else m k

/-- The value of the last `add` of each key that took effect and that no `remove` of the key
    followed. -/
def recorded (le : StrictWeakOrder K) (ops : List (TreeOp K V)) : K → Option V :=
  ops.foldl (TreeOp.record le) fun _ => none

/-- The tree holds the records of the map. -/
structure Tree.Represents (t : Tree K V) (m : K → Option V) : Prop where
  levelled : t.root.Levelled
  sorted : t.le.Sorted t.root.toList
  entries : ∀ k v, m k = some v ↔ ∃ q ∈ t.root.toList, t.le.equiv k q.1 = true ∧ q.2 = v

namespace Tree.Represents

variable {t : Tree K V} {m : K → Option V}

theorem get_eq (h : t.Represents m) (key : K) :
    t.get key = match m key with
      | some v => .ok v
      | none => .error .enoent := by
  rw [Tree.get, Node.get_spec h.sorted]
  cases hfind : t.root.toList.find? fun q => t.le.equiv key q.1 with
  | some q =>
    have hq := (h.entries key q.2).mpr
      ⟨q, List.mem_of_find?_eq_some hfind,
        List.find?_some (p := fun q : K × V => t.le.equiv key q.1) hfind, rfl⟩
    rw [hq]
  | none =>
    cases hm : m key with
    | none => rfl
    | some v =>
      obtain ⟨q, hq, he, -⟩ := (h.entries key v).mp hm
      exact absurd he (List.find?_eq_none.mp hfind q hq)

theorem isSome_iff (h : t.Represents m) (key : K) :
    (m key).isSome ↔ ∃ q ∈ t.root.toList, t.le.equiv key q.1 = true := by
  rw [Option.isSome_iff_exists]
  simp only [h.entries]
  constructor
  · rintro ⟨v, q, hq, he, -⟩
    exact ⟨q, hq, he⟩
  · rintro ⟨q, hq, he⟩
    exact ⟨q.2, q, hq, he, rfl⟩

/-- An `add` of a new key. -/
theorem add_new (h : t.Represents m) {key : K} (value : V) (hnew : (m key).isSome = false) :
    ∃ t', t.add key value = .ok t' ∧ t'.le = t.le ∧
      t'.Represents ((TreeOp.add key value).record t.le m) ∧
      t'.root.size = t.root.size + 1 := by
  rcases Node.insert_spec h.sorted key value with
    ⟨root, before, after, hres, hold, hroot, hbefore, hafter⟩ | ⟨-, q, hq, he⟩
  · refine ⟨⟨t.le, root⟩, by rw [Tree.add, hres]; rfl, rfl,
      ⟨(Node.insert_grown h.levelled hres).levelled, ?_, fun k v => ?_⟩, ?_⟩
    · have hs := h.sorted
      rw [hold] at hs
      obtain ⟨hb, ha, -⟩ := List.pairwise_append.mp hs
      rw [hroot]
      exact StrictWeakOrder.sorted_mid.mpr ⟨hbefore, hafter, hb, ha⟩
    · have hmem : ∀ q, q ∈ root.toList ↔ q = (key, value) ∨ q ∈ t.root.toList := by
        intro q
        rw [hroot, hold, List.mem_append, List.mem_append, List.mem_cons]
        exact or_left_comm
      have hnone : ∀ q ∈ t.root.toList, t.le.equiv k key = true → t.le.equiv k q.1 = false := by
        intro q hq he
        refine Bool.eq_false_iff.mpr fun hkq => ?_
        have hsome := (h.isSome_iff key).mpr
          ⟨q, hq, StrictWeakOrder.equiv_trans ((StrictWeakOrder.equiv_comm key k).trans he) hkq⟩
        rw [hnew] at hsome
        contradiction
      simp only [TreeOp.record, hnew, hmem, or_and_right, exists_or, exists_eq_left]
      by_cases he : t.le.equiv k key = true
      · simp only [he, if_true, Bool.false_eq_true, if_false, Option.some.injEq, true_and]
        refine ⟨.inl, fun hor => hor.elim id ?_⟩
        rintro ⟨q, hq, hkq, -⟩
        rw [hnone q hq he] at hkq
        contradiction
      · simp only [he, Bool.false_eq_true, if_false, false_and, false_or]
        exact h.entries k v
    · rw [Node.size_eq, Node.size_eq, hroot, hold]
      simp only [List.length_append, List.length_cons]
      omega
  · rw [(h.isSome_iff key).mpr ⟨q, hq, he⟩] at hnew
    contradiction

/-- An `add` of a key the tree has. -/
theorem add_old (h : t.Represents m) {key : K} (value : V) (hold : (m key).isSome = true) :
    t.add key value = .error .eexist := by
  obtain ⟨q, hq, he⟩ := (h.isSome_iff key).mp hold
  rcases Node.insert_spec h.sorted key value with
    ⟨root, before, after, -, hlist, -, hbefore, hafter⟩ | ⟨hres, -⟩
  · rw [hlist] at hq
    rcases List.mem_append.mp hq with hq | hq
    · rw [StrictWeakOrder.equiv_of_gt (hbefore q hq)] at he
      contradiction
    · rw [StrictWeakOrder.equiv_of_lt (hafter q hq)] at he
      contradiction
  · rw [Tree.add, hres]
    rfl

theorem remove (h : t.Represents m) (key : K) :
    (t.remove key).Represents ((TreeOp.remove key).record t.le m) := by
  have hlist := Node.remove_toList h.sorted key
  refine ⟨(Node.remove_shrunk h.levelled key).levelled, ?_, fun k v => ?_⟩
  · show t.le.Sorted (t.root.remove t.le key).toList
    rw [hlist]
    exact h.sorted.filter _
  · show _ ↔ ∃ q ∈ (t.root.remove t.le key).toList, _
    simp only [TreeOp.record, hlist, List.mem_filter]
    by_cases he : t.le.equiv k key = true
    · simp only [he, if_true, reduceCtorEq, false_iff]
      rintro ⟨q, ⟨-, hq⟩, hkq, -⟩
      have hkq : t.le.equiv key q.1 = true :=
        StrictWeakOrder.equiv_trans ((StrictWeakOrder.equiv_comm key k).trans he) hkq
      simp [hkq] at hq
    · simp only [he, Bool.false_eq_true, if_false, h.entries k v]
      refine exists_congr fun q => ⟨?_, fun hq => ⟨hq.1.1, hq.2⟩⟩
      rintro ⟨hq, hkq, hv⟩
      refine ⟨⟨hq, ?_⟩, hkq, hv⟩
      rw [Bool.not_eq_true', Bool.eq_false_iff]
      exact fun hx => he (StrictWeakOrder.equiv_trans hkq
        ((StrictWeakOrder.equiv_comm q.1 key).trans hx))

/-- A `remove` takes the one node of the key, if the tree has it. -/
theorem remove_size (h : t.Represents m) (key : K) :
    (t.remove key).root.size + (if (m key).isSome then 1 else 0) = t.root.size := by
  rw [Tree.remove, Node.size_eq, Node.size_eq, Node.remove_toList h.sorted]
  by_cases hkey : (m key).isSome = true
  · obtain ⟨q, hq, he⟩ := (h.isSome_iff key).mp hkey
    obtain ⟨before, after, hlist⟩ := List.append_of_mem hq
    have hs := h.sorted
    rw [hlist] at hs ⊢
    obtain ⟨hb, ha, -⟩ := StrictWeakOrder.sorted_mid.mp hs
    have he' : t.le.equiv q.1 key = true := by rwa [StrictWeakOrder.equiv_comm]
    rw [List.filter_append, List.filter_cons, he,
      StrictWeakOrder.filter_of_lt fun q hq => StrictWeakOrder.lt_of_lt_equiv (hb q hq) he',
      StrictWeakOrder.filter_of_gt fun q hq => StrictWeakOrder.lt_of_equiv_lt he (ha q hq)]
    simp [hkey]
    omega
  · rw [if_neg hkey, List.filter_eq_self.mpr fun q hq => ?_]
    · rfl
    · rw [Bool.not_eq_true', Bool.eq_false_iff]
      exact fun he => hkey ((h.isSome_iff key).mpr ⟨q, hq, he⟩)

/-- Every call does to the tree what it does to the map. -/
theorem call (h : t.Represents m) (op : TreeOp K V) :
    (t.call op).le = t.le ∧ (t.call op).Represents (op.record t.le m) := by
  cases op with
  | remove key => exact ⟨rfl, h.remove key⟩
  | add key value =>
    cases hkey : (m key).isSome with
    | false =>
      obtain ⟨t', hadd, hle, ht, -⟩ := h.add_new value hkey
      rw [Tree.call, hadd]
      exact ⟨hle, ht⟩
    | true =>
      rw [Tree.call, h.add_old value hkey]
      refine ⟨rfl, ?_⟩
      have hsame : (TreeOp.add key value).record t.le m = m := by
        funext k
        exact if_pos hkey
      rw [hsame]
      exact h

end Tree.Represents

theorem Tree.represents_empty (le : StrictWeakOrder K) :
    (Tree.empty le : Tree K V).Represents fun _ => none :=
  ⟨trivial, List.Pairwise.nil, by simp [Tree.empty]⟩

/-- The tree after any calls stands for the map after these calls. -/
theorem Tree.represents_after (le : StrictWeakOrder K) (ops : List (TreeOp K V)) :
    (Tree.after le ops).le = le ∧ (Tree.after le ops).Represents (recorded le ops) := by
  induction ops using List.reverseRecOn with
  | nil => exact ⟨rfl, Tree.represents_empty le⟩
  | append_singleton ops op ih =>
    rw [Tree.after, recorded, List.foldl_append, List.foldl_append]
    obtain ⟨hle, hrep⟩ := ih
    have hcall := hrep.call op
    rw [hle] at hcall
    exact hcall

/-- After every sequence of calls the tree keeps its level rules and its order, `get` gives the
    value recorded for the key or throws, an `add` of a key it has throws and changes nothing,
    and the next call changes the number of nodes as it changes the map. -/
theorem tree_finite_map (le : StrictWeakOrder K) (ops : List (TreeOp K V)) :
    (Tree.after le ops).root.Levelled ∧ (Tree.after le ops).root.Bst le ∧
      (∀ key, (Tree.after le ops).get key = match recorded le ops key with
        | some value => .ok value
        | none => .error .enoent) ∧
      (∀ key value, (recorded le ops key).isSome →
        (Tree.after le ops).add key value = .error .eexist ∧
          (Tree.after le ops).call (.add key value) = Tree.after le ops) ∧
      (∀ key value, (recorded le ops key).isSome = false →
        ((Tree.after le ops).call (.add key value)).root.size =
          (Tree.after le ops).root.size + 1) ∧
      ∀ key, ((Tree.after le ops).call (.remove key)).root.size +
        (if (recorded le ops key).isSome then 1 else 0) = (Tree.after le ops).root.size := by
  obtain ⟨hle, hrep⟩ := Tree.represents_after le ops
  refine ⟨hrep.levelled, ?_, hrep.get_eq, fun key value hkey => ?_, fun key value hkey => ?_,
    fun key => hrep.remove_size key⟩
  · have hs := hrep.sorted
    rw [hle] at hs
    exact Node.bst_iff.mpr hs
  · have hadd := hrep.add_old value hkey
    exact ⟨hadd, by rw [Tree.call, hadd]⟩
  · obtain ⟨t', hadd, -, -, hsize⟩ := hrep.add_new value hkey
    rw [Tree.call, hadd]
    exact hsize

end EsOs.Es
