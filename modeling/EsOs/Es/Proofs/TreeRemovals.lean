import EsOs.Es.Proofs.TreeLinks

/-!
# Removals that keep every link

A removal on the right only turns nodes whose links the rotations set. After a removal on the left a
node may come down with its right child, and then the branch on the right is turned farther down,
where no caller sets the links.
-/

namespace EsOs.Es

open EsOs.Lib

variable {A K V : Type _}

namespace LinkedNode

/-- The node comes down with its right child, and one of two nodes farther down is on the level they
    come to. -/
def untiesAt (level : Int) (left right : LinkedNode A K V) : Bool :=
  decide (left.level < level - 1) && decide (right.level = level) &&
    (decide (right.left.right.level = level - 1) || decide (right.right.right.level = level - 1))

/-- The removal of a key turns the branch on the right of a node farther down. -/
def unties (le : StrictWeakOrder K) : LinkedNode A K V → K → Bool
  | nil, _ => false
  | node _ l k _ _ x y, key =>
      if le.lt k key then y.unties le key
      else if le.lt key k then x.unties le key || untiesAt l (x.remove le key) y
      else
        match x with
        | nil => false
        | node xa xl xk xv xp xx xy =>
            match y with
            | nil => false
            | node ya yl yk yv yp yx yy =>
                let last := (node xa xl xk xv xp xx xy).heir xk xv
                (node xa xl xk xv xp xx xy).unties le last.1 ||
                  untiesAt l ((node xa xl xk xv xp xx xy).remove le last.1)
                    (node ya yl yk yv yp yx yy)

/-- A node of a positive level has its fields. -/
theorem exists_of_level {t : LinkedNode A K V} {l : Int} (h : t.level = l) (hl : 0 < l) :
    ∃ a k v p x y, t = node a l k v p x y := by
  cases t with
  | nil => exact absurd h (Int.ne_of_lt hl)
  | node a _ k v p x y => exact ⟨a, k, v, p, x, y, h ▸ rfl⟩

theorem split_of_ne {a : A} {l : Int} {k : K} {v : V} {p : Option A} {x y : LinkedNode A K V}
    (h : y.right.level ≠ l) : (node a l k v p x y).split = node a l k v p x y := by
  cases y with
  | nil => rfl
  | node => rw [split, if_neg fun hand => h hand.2]

section Rebalance

variable {a : A} {l : Int} {k : K} {v : V} {p : Option A} {x y : LinkedNode A K V}

/-- After a removal on the right every link is set. -/
theorem Linked.rebalance_right (h : (node a l k v p x y).Linked) (hxl : x.level = l - 1)
    (hx : x.erase.Levelled) (hy : y.erase.Levelled) : (node a l k v p x y).rebalance.Linked := by
  have hnn := hy.level_nonneg
  have hle := hy.right_le
  rw [erase_right, erase_level, erase_level] at hle
  rw [erase_level] at hnn
  by_cases hlow : y.level < l - 1
  · rw [rebalance, if_pos (.inr hlow), if_neg (by omega)]
    obtain ⟨a₁, k₁, v₁, p₁, c, d, rfl⟩ := exists_of_level hxl (by omega)
    obtain ⟨-, hya, ⟨hc, -, hlc, hld⟩, hly⟩ := h
    obtain ⟨-, -, hdd, -, hdlev⟩ := hx
    rw [erase_right, erase_level] at hdd
    show (node a (l - 1) k v p (node a₁ (l - 1) k₁ v₁ p₁ c d) y).skew.split.Linked
    rw [skew_of_eq (by omega)]
    by_cases hd : d.level = l - 1
    · -- the right child of the left child comes up over both
      obtain ⟨a₂, k₂, v₂, p₂, e, f, rfl⟩ := exists_of_level hd (by omega)
      obtain ⟨-, hf, hle', hlf⟩ := hld
      have hfl : (f.setParent (some a)).level ≠ l - 1 := by
        rw [level_setParent]
        exact Int.ne_of_lt hdd
      rw [setParent, skew_of_eq (by omega), skew_of_ne (by omega) hfl,
        skew_of_levelled hy, LinkedNode.split, if_pos ⟨by omega, rfl⟩, split_of_ne (by omega)]
      exact ⟨.inr rfl, .inr rfl, ⟨hc, under_setParent a₁ e, hlc, linked_setParent.mpr hle'⟩,
        under_setParent a f, hya, linked_setParent.mpr hlf, hly⟩
    · rw [skew_of_ne (by omega) (by rwa [level_setParent]), skew_of_levelled hy,
        split_of_ne (by simp only [right]; omega)]
      exact ⟨hc, .inr rfl, hlc, under_setParent a d, hya, linked_setParent.mpr hld, hly⟩
  · rw [rebalance, if_neg (by omega)]
    exact h

/-- After a removal on the left every link is set unless the branch on the right is turned farther
    down. -/
theorem Linked.rebalance_left (h : (node a l k v p x y).Linked)
    (hyl : y.level = l ∨ y.level = l - 1) (hyr : y.right.level < l) (hx : x.erase.Levelled)
    (hy : y.erase.Levelled) (hnot : untiesAt l x y = false) :
    (node a l k v p x y).rebalance.Linked := by
  have hnn := hx.level_nonneg
  rw [erase_level] at hnn
  by_cases hlow : x.level < l - 1
  · rw [rebalance, if_pos (.inl hlow)]
    rcases hyl with hyl | hyl
    · rw [if_pos (by omega)]
      obtain ⟨b, kb, vb, pb, c, d, rfl⟩ := exists_of_level hyl (by omega)
      obtain ⟨hcl, hdl, -, hcLev, hdLev⟩ := hy
      simp only [erase_level] at hcl hdl
      simp only [right] at hyr
      obtain ⟨c₀, kc, vc, pc, e, f, rfl⟩ := exists_of_level hcl (by omega)
      have hquiet : ¬ (f.level = l - 1 ∨ d.right.level = l - 1) := by
        rintro hor
        have htrue : untiesAt l x (node b l kb vb pb (node c₀ (l - 1) kc vc pc e f) d) = true := by
          rw [untiesAt, decide_eq_true hlow]
          show (true && decide (l = l) &&
            (decide (f.level = l - 1) || decide (d.right.level = l - 1))) = true
          rcases hor with heq | heq <;> simp [heq]
        rw [htrue] at hnot
        contradiction
      have hf : (f.setParent (some b)).level ≠ l - 1 := by
        rw [level_setParent]
        exact fun heq => hquiet (.inl heq)
      have hd : d.right.level ≠ l - 1 := fun heq => hquiet (.inr heq)
      obtain ⟨hxa, -, hlx, ⟨-, hdb, ⟨hec, -, hle, hlf⟩, hld⟩⟩ := h
      show (node a (l - 1) k v p x (node b (l - 1) kb vb pb
        (node c₀ (l - 1) kc vc pc e f) d)).skew.split.Linked
      rw [skew_of_ne (by omega) (by omega), skew_of_eq (by omega), skew_of_ne (by omega) hf,
        skew_of_levelled hdLev, LinkedNode.split, if_pos ⟨by omega, rfl⟩, split_of_ne hd]
      exact ⟨.inr rfl, .inr rfl, ⟨hxa, under_setParent a e, hlx, linked_setParent.mpr hle⟩,
        under_setParent b f, hdb, linked_setParent.mpr hlf, hld⟩
    · rw [if_neg (by omega)]
      have hnode : (node a (l - 1) k v p x y).Linked := h
      exact hnode.skew_split (by omega) (by omega) hy
  · rw [rebalance, if_neg (by omega)]
    exact h

end Rebalance

/-- A levelled tree is not rebalanced. -/
theorem rebalance_of_levelled {t : LinkedNode A K V} (h : t.erase.Levelled) : t.rebalance = t := by
  cases t with
  | nil => rfl
  | node a l k v p x y =>
    obtain ⟨hx, hy, -⟩ := h
    rw [erase_level] at hx hy
    rw [rebalance, if_neg (by omega)]

/-- A removal that unties nothing keeps every link. -/
theorem Linked.remove {le : StrictWeakOrder K} {t : LinkedNode A K V} {key : K} (h : t.Linked)
    (hlev : t.erase.Levelled) (hnot : t.unties le key = false) : (t.remove le key).Linked := by
  have hshrunk : ∀ {s : LinkedNode A K V} (key : K), s.erase.Levelled →
      (s.remove le key).erase.Levelled := by
    intro s key hs
    rw [remove_erase]
    exact (Node.remove_shrunk hs key).levelled
  fun_induction LinkedNode.remove le t key with
  | case1 => trivial
  | case2 a l k v p x y key hlt ih =>
    obtain ⟨hx, hy, hlx, hly⟩ := h
    obtain ⟨hxl, -, -, hxLev, hyLev⟩ := hlev
    rw [erase_level] at hxl
    unfold unties at hnot
    rw [if_pos hlt] at hnot
    have hnode : (node a l k v p x ((y.remove le key).setParent (some a))).Linked :=
      ⟨hx, under_setParent a _, hlx, linked_setParent.mpr (ih hly hyLev hnot)⟩
    exact hnode.rebalance_right hxl hxLev (by rw [erase_setParent]; exact hshrunk key hyLev)
  | case3 a l k v p x y key hlt hgt ih =>
    obtain ⟨hx, hy, hlx, hly⟩ := h
    obtain ⟨-, hyl, hyr, hxLev, hyLev⟩ := hlev
    simp only [erase_level, erase_right] at hyl hyr
    unfold unties at hnot
    rw [if_neg hlt, if_pos hgt, Bool.or_eq_false_iff] at hnot
    have hnode : (node a l k v p ((x.remove le key).setParent (some a)) y).Linked :=
      ⟨under_setParent a _, hy, linked_setParent.mpr (ih hlx hxLev hnot.1), hly⟩
    refine hnode.rebalance_left hyl hyr ?_ hyLev ?_
    · rw [erase_setParent]
      exact hshrunk key hxLev
    · rw [untiesAt, level_setParent]
      exact hnot.2
  | case4 a l k v p y key hlt hgt =>
    rw [rebalance_of_levelled (by rw [erase_setParent]; exact hlev.2.2.2.2)]
    exact linked_setParent.mpr h.2.2.2
  | case5 a l k v p key hlt hgt xa xl xk xv xp xx xy =>
    rw [rebalance_of_levelled (by rw [erase_setParent]; exact hlev.2.2.2.1)]
    exact linked_setParent.mpr h.2.2.1
  | case6 a l k v p key hlt hgt xa xl xk xv xp xx xy ya yl yk yv yp yx yy last left ih =>
    obtain ⟨hx, hy, hlx, hly⟩ := h
    obtain ⟨-, hyl, hyr, hxLev, hyLev⟩ := hlev
    simp only [erase_level, erase_right] at hyl hyr
    unfold unties at hnot
    rw [if_neg hlt, if_neg hgt, Bool.or_eq_false_iff] at hnot
    have hnode : (node a l last.1 last.2 p (left.setParent (some a))
        (node ya yl yk yv yp yx yy)).Linked :=
      ⟨under_setParent a _, hy, linked_setParent.mpr (ih hlx hxLev hnot.1), hly⟩
    refine hnode.rebalance_left hyl hyr ?_ hyLev ?_
    · rw [erase_setParent]
      exact hshrunk _ hxLev
    · rw [untiesAt, level_setParent]
      exact hnot.2

end LinkedNode

end EsOs.Es
