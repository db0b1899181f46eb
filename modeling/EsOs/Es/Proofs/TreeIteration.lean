import Mathlib.Data.List.Nodup
import EsOs.Es.Proofs.TreeLinks

/-!
# Iterations over the tree

The position of a node in the order of a direction is known from the path to it: what comes before
and behind its subtree. Climbing along right links finds the first node behind the subtree, so that a
step finds the next node, and a traversal all of them.
-/

namespace EsOs.Es

open EsOs.Lib

variable {A K V : Type _}

namespace LinkedNode

/-- The nodes in the order of an iteration. -/
def visits (d : Direction) (t : LinkedNode A K V) : List (A × K × V) :=
  match d with
  | .forward => t.nodes
  | .backward => t.nodes.reverse

theorem visits_nil (d : Direction) : (nil : LinkedNode A K V).visits d = [] := by
  cases d <;> rfl

theorem visits_node (d : Direction) (a : A) (l : Int) (k : K) (v : V) (p : Option A)
    (x y : LinkedNode A K V) :
    (node a l k v p x y).visits d
      = ((node a l k v p x y).child d.flip).visits d ++
        (a, k, v) :: ((node a l k v p x y).child d).visits d := by
  cases d
  · rfl
  · simp [visits, nodes, child, Direction.flip, left, right]

theorem mem_visits {d : Direction} {t : LinkedNode A K V} {e : A × K × V} :
    e ∈ t.visits d ↔ e ∈ t.nodes := by
  cases d
  · rfl
  · exact List.mem_reverse

theorem visits_length (d : Direction) (t : LinkedNode A K V) :
    (t.visits d).length = t.size := by
  rw [size_eq_length]
  cases d
  · rfl
  · exact List.length_reverse

/-- An iteration begins at the end of the branch on the other side. -/
theorem extreme_eq (d : Direction) (t : LinkedNode A K V) :
    t.extreme d.flip = (t.visits d).head?.map (·.1) := by
  induction t with
  | nil => cases d <;> rfl
  | node a l k v p x y ihx ihy =>
    rw [visits_node, List.head?_append, Option.map_or, List.head?_cons]
    cases d
    · exact congrArg (·.or (some a)) ihx
    · exact congrArg (·.or (some a)) ihy

theorem extreme_isSome {t : LinkedNode A K V} (d : Direction) (h : t ≠ nil) :
    (t.extreme d).isSome := by
  cases t with
  | nil => exact absurd rfl h
  | node a l k v p x y => cases d <;> simp [extreme]

section Find

variable [DecidableEq A] {t : LinkedNode A K V} {a : A}

theorem find_eq_none (h : a ∉ t.addrs) : t.find a = none := by
  induction t with
  | nil => rfl
  | node b l k v p x y ihx ihy =>
    simp only [addrs_node, List.mem_append, List.mem_cons, not_or] at h
    rw [find, if_neg (Ne.symm h.2.1), ihx h.1, ihy h.2.2]
    rfl

theorem find_isSome (h : a ∈ t.addrs) : (t.find a).isSome := by
  induction t with
  | nil => cases h
  | node b l k v p x y ihx ihy =>
    simp only [addrs_node, List.mem_append, List.mem_cons] at h
    rw [find]
    split
    · rfl
    · next hne =>
      rw [Option.isSome_or]
      rcases h with h | rfl | h
      · rw [ihx h, Bool.true_or]
      · exact absurd rfl hne
      · rw [ihy h, Bool.or_true]

/-- What is found has its record in the tree. -/
theorem mem_of_find {n : LinkedNode A K V} {r : K × V} (h : t.find a = some n)
    (hr : n.record = some r) : (a, r) ∈ t.nodes := by
  induction t with
  | nil => cases h
  | node b l k v p x y ihx ihy =>
    rw [find] at h
    rw [nodes, List.mem_append, List.mem_cons]
    split at h
    · next heq =>
      cases h
      cases hr
      exact .inr (.inl (by rw [heq]))
    · rcases Option.or_eq_some_iff.mp h with h | ⟨-, h⟩
      · exact .inl (ihx h)
      · exact .inr (.inr (ihy h))

/-- A node below a child is found there. -/
theorem find_child {b : A} {l : Int} {k : K} {v : V} {p : Option A} {x y : LinkedNode A K V}
    (d : Direction) (hnodup : (node b l k v p x y).addrs.Nodup)
    (ha : a ∈ ((node b l k v p x y).child d).addrs) :
    (node b l k v p x y).find a = ((node b l k v p x y).child d).find a := by
  rw [addrs_node, List.nodup_middle, List.nodup_cons, List.mem_append, not_or] at hnodup
  obtain ⟨⟨hbx, hby⟩, hxy⟩ := hnodup
  have hdisj := (List.nodup_append.mp hxy).2.2
  cases d with
  | forward =>
    have hay : a ∈ y.addrs := ha
    have hbne : b ≠ a := fun heq => hby (heq ▸ hay)
    rw [find, if_neg hbne, find_eq_none fun hax => hdisj a hax a hay rfl]
    rfl
  | backward =>
    have hax : a ∈ x.addrs := ha
    have hbne : b ≠ a := fun heq => hbx (heq ▸ hax)
    rw [find, if_neg hbne]
    exact Option.or_of_isSome (find_isSome hax)

end Find

theorem mem_addrs {t : LinkedNode A K V} {a : A} (h : t.addr = some a) : a ∈ t.addrs := by
  cases t with
  | nil => cases h
  | node b l k v p x y =>
    obtain rfl : b = a := Option.some.inj h
    simp

theorem Linked.child {b : A} {l : Int} {k : K} {v : V} {p : Option A} {x y : LinkedNode A K V}
    (d : Direction) (h : (node b l k v p x y).Linked) :
    ((node b l k v p x y).child d).Under b := by
  cases d
  · exact h.2.1
  · exact h.1

/-- The two children have different addresses. -/
theorem child_addr_ne {b a : A} {l : Int} {k : K} {v : V} {p : Option A}
    {x y : LinkedNode A K V} (d : Direction) (hnodup : (node b l k v p x y).addrs.Nodup)
    (h : ((node b l k v p x y).child d.flip).addr = some a) :
    ((node b l k v p x y).child d).addr ≠ some a := by
  rw [addrs_node, List.nodup_middle, List.nodup_cons] at hnodup
  have hdisj := (List.nodup_append.mp hnodup.2).2.2
  intro heq
  cases d
  · exact hdisj a (mem_addrs h) a (mem_addrs heq) rfl
  · exact hdisj a (mem_addrs heq) a (mem_addrs h) rfl

theorem child_addrs_sublist (d : Direction) (t : LinkedNode A K V) :
    (t.child d).addrs.Sublist t.addrs := by
  cases t with
  | nil => cases d <;> exact List.Sublist.refl _
  | node a l k v p x y =>
    rw [addrs_node]
    cases d
    · exact (List.sublist_cons_self a _).trans (List.sublist_append_right _ _)
    · exact List.sublist_append_left _ _

/-! ## Positions -/

/-- A subtree with what an iteration visits before and behind it, and its depth. -/
inductive Within (d : Direction) (t : LinkedNode A K V) :
    List (A × K × V) → LinkedNode A K V → List (A × K × V) → Nat → Prop where
  | root : Within d t [] t [] 0
  | near {before after : List (A × K × V)} {a : A} {l : Int} {k : K} {v : V} {p : Option A}
      {x y : LinkedNode A K V} {n : Nat} (h : Within d t before (node a l k v p x y) after n) :
      Within d t before ((node a l k v p x y).child d.flip)
        ((a, k, v) :: ((node a l k v p x y).child d).visits d ++ after) (n + 1)
  | far {before after : List (A × K × V)} {a : A} {l : Int} {k : K} {v : V} {p : Option A}
      {x y : LinkedNode A K V} {n : Nat} (h : Within d t before (node a l k v p x y) after n) :
      Within d t (before ++ ((node a l k v p x y).child d.flip).visits d ++ [(a, k, v)])
        ((node a l k v p x y).child d) after (n + 1)

namespace Within

variable {d : Direction} {t s : LinkedNode A K V} {before after : List (A × K × V)} {n : Nat}

theorem visits_eq (h : Within d t before s after n) :
    t.visits d = before ++ s.visits d ++ after := by
  induction h with
  | root => simp
  | near _ ih => rw [ih, visits_node]; simp
  | far _ ih => rw [ih, visits_node]; simp

theorem size_le (h : Within d t before s after n) : n + s.size ≤ t.size := by
  induction h with
  | root => exact Nat.le_of_eq (Nat.zero_add _)
  | near _ ih =>
    rw [size] at ih
    cases d <;> simp only [child, Direction.flip, left, right] <;> omega
  | far _ ih =>
    rw [size] at ih
    cases d <;> simp only [child, left, right] <;> omega

/-- The links of a subtree are those of the tree. -/
theorem linked (h : Within d t before s after n) (ht : t.Linked) : s.Linked := by
  induction h with
  | root => exact ht
  | near _ ih =>
    obtain ⟨-, -, hx, hy⟩ := ih
    cases d
    · exact hx
    · exact hy
  | far _ ih =>
    obtain ⟨-, -, hx, hy⟩ := ih
    cases d
    · exact hy
    · exact hx

theorem loose (h : Within d t before s after n) (ht : t.Loose) : s.Loose := by
  induction h with
  | root => exact ht
  | near _ ih =>
    obtain ⟨-, -, hx, hy⟩ := ih
    cases d
    · exact hx
    · exact hy
  | far _ ih =>
    obtain ⟨-, -, hx, hy⟩ := ih
    cases d
    · exact hy
    · exact hx

/-- Where a node of a subtree is. -/
theorem exists_node (h : Within d t before s after n) {pre post : List (A × K × V)} {a : A} {k : K}
    {v : V} (hs : s.visits d = pre ++ (a, k, v) :: post) :
    ∃ l p x y before' after' m, Within d t before' (node a l k v p x y) after' m ∧
      before ++ pre = before' ++ ((node a l k v p x y).child d.flip).visits d ∧
      post ++ after = ((node a l k v p x y).child d).visits d ++ after' := by
  induction hsize : s.size using Nat.strongRecOn generalizing s before after n pre post with
  | ind size ih =>
    cases s with
    | nil => simp [visits_nil] at hs
    | node b l k' v' p x y =>
      have hxsize : x.size < size ∧ y.size < size := by
        rw [LinkedNode.size] at hsize
        omega
      rw [visits_node] at hs
      rcases List.append_eq_append_iff.mp hs with ⟨mid, hpre, hpost⟩ | ⟨mid, hleft, hpost⟩
      · cases mid with
        | nil =>
          simp only [List.nil_append, List.cons.injEq, Prod.mk.injEq] at hpost
          obtain ⟨⟨rfl, rfl, rfl⟩, rfl⟩ := hpost
          exact ⟨l, p, x, y, before, after, n, h, by rw [hpre, List.append_nil], rfl⟩
        | cons e mid =>
          rw [List.cons_append, List.cons.injEq] at hpost
          obtain ⟨rfl, hpost⟩ := hpost
          obtain ⟨l', p', x', y', before', after', m, hw, hb, ha⟩ :=
            ih _ (by cases d; exacts [hxsize.2, hxsize.1]) h.far hpost rfl
          exact ⟨l', p', x', y', before', after', m, hw, by rw [← hb, hpre]; simp, ha⟩
      · cases mid with
        | nil =>
          simp only [List.nil_append, List.cons.injEq, Prod.mk.injEq] at hpost
          obtain ⟨⟨rfl, rfl, rfl⟩, rfl⟩ := hpost
          exact ⟨l, p, x, y, before, after, n, h, by rw [hleft, List.append_nil], rfl⟩
        | cons e mid =>
          rw [List.cons_append, List.cons.injEq] at hpost
          obtain ⟨rfl, rfl⟩ := hpost
          obtain ⟨l', p', x', y', before', after', m, hw, hb, ha⟩ :=
            ih _ (by cases d; exacts [hxsize.1, hxsize.2]) h.near hleft rfl
          exact ⟨l', p', x', y', before', after', m, hw, hb, by rw [← ha]; simp⟩

theorem addrs_sublist (h : Within d t before s after n) : s.addrs.Sublist t.addrs := by
  induction h with
  | root => exact List.Sublist.refl _
  | near _ ih => exact (child_addrs_sublist _ _).trans ih
  | far _ ih => exact (child_addrs_sublist _ _).trans ih

variable [DecidableEq A] {a : A}

/-- A node is found in the subtree that has its address. -/
theorem find_eq (h : Within d t before s after n) (ht : t.addrs.Nodup) (ha : a ∈ s.addrs) :
    t.find a = s.find a := by
  induction h with
  | root => rfl
  | near h ih =>
    rw [ih ((child_addrs_sublist _ _).subset ha)]
    exact find_child _ (ht.sublist h.addrs_sublist) ha
  | far h ih =>
    rw [ih ((child_addrs_sublist _ _).subset ha)]
    exact find_child _ (ht.sublist h.addrs_sublist) ha

theorem find_node {l : Int} {k : K} {v : V} {p : Option A} {x y : LinkedNode A K V}
    (h : Within d t before (node a l k v p x y) after n) (ht : t.addrs.Nodup) :
    t.find a = some (node a l k v p x y) := by
  rw [h.find_eq ht (by simp), find, if_pos rfl]

theorem find_addr (h : Within d t before s after n) (ht : t.addrs.Nodup) (ha : s.addr = some a) :
    t.find a = some s := by
  cases s with
  | nil => cases ha
  | node b l k v p x y =>
    obtain rfl : b = a := Option.some.inj ha
    exact h.find_node ht

/-- Climbing from a subtree ends at the first node behind it. -/
theorem climb_eq (h : Within d t before s after n) (ht : t.addrs.Nodup) (hlinked : t.Linked)
    (hroot : t.parent = none) (ha : s.addr = some a) {fuel : Nat} (hfuel : n < fuel) :
    t.climb d fuel a = some (after.head?.map (·.1)) := by
  obtain ⟨fuel, rfl⟩ : ∃ f, fuel = f + 1 := ⟨fuel - 1, by omega⟩
  induction h generalizing a fuel with
  | root =>
    simp only [climb, Within.root.find_addr (d := d) ht ha, hroot, List.head?_nil, Option.map_none]
  | @near before after b l k v p x y n h ih =>
    have hparent := ((h.linked hlinked).child d.flip).resolve_left fun hnil => by
      rw [hnil] at ha
      cases ha
    have hne := child_addr_ne d (ht.sublist h.addrs_sublist) ha
    simp only [climb, h.near.find_addr ht ha, hparent, h.find_node ht, if_neg hne]
    rfl
  | @far before after b l k v p x y n h ih =>
    have hparent := ((h.linked hlinked).child d).resolve_left fun hnil => by
      rw [hnil] at ha
      cases ha
    obtain ⟨fuel, rfl⟩ : ∃ f, fuel = f + 1 := ⟨fuel - 1, by omega⟩
    rw [climb]
    simp only [h.far.find_addr ht ha, hparent, h.find_node ht, if_pos ha]
    exact ih rfl fuel (by omega)

end Within

/-! ## Steps and traversals -/

section Steps

variable [DecidableEq A] {d : Direction} {t : LinkedNode A K V} {before after : List (A × K × V)}
  {a : A} {k : K} {v : V} {fuel : Nat}

/-- A step finds the next node of the order. -/
theorem step_eq (ht : t.addrs.Nodup) (hlinked : t.Linked) (hroot : t.parent = none)
    (hfuel : t.size ≤ fuel) (h : t.visits d = before ++ (a, k, v) :: after) :
    t.step d fuel a = some (after.head?.map (·.1)) := by
  obtain ⟨l, p, x, y, before', after', n, hw, -, hafter⟩ := Within.root.exists_node h
  rw [List.append_nil] at hafter
  have hlt : n < fuel := by
    have := hw.size_le
    rw [size] at this
    omega
  simp only [step, hw.find_node ht]
  rw [hafter, List.head?_append, Option.map_or, ← extreme_eq]
  split
  · next hnil =>
    rw [hnil, hw.climb_eq ht hlinked hroot rfl hlt]
    rfl
  · next hc => rw [Option.or_of_isSome (extreme_isSome _ hc)]

/-- A traversal from a place in the order returns what is behind it. -/
theorem traverse_eq (ht : t.addrs.Nodup) (hlinked : t.Linked) (hroot : t.parent = none)
    (hfuel : t.size ≤ fuel) {calls : Nat} {it : TreeIterator A}
    (h : t.visits d = before ++ after) (hahead : it.ahead d = after.head?.map (·.1))
    (hcalls : after.length < calls) :
    it.traverse t fuel d calls = some (after.map (·.2)) := by
  induction after generalizing before it calls with
  | nil =>
    obtain ⟨n, rfl⟩ := Nat.exists_eq_add_of_lt hcalls
    simp only [List.length_nil, Nat.zero_add, TreeIterator.traverse, TreeIterator.move, hahead,
      List.head?_nil, Option.map_none, List.map_nil]
  | cons e after ih =>
    obtain ⟨a, k, v⟩ := e
    obtain ⟨n, rfl⟩ : ∃ n, calls = n + 1 := ⟨calls - 1, by simp at hcalls; omega⟩
    obtain ⟨l, p, x, y, before', after', m, hw, -, -⟩ := Within.root.exists_node h
    have hrest : TreeIterator.traverse t fuel d n
        (.facing (after.head?.map (·.1)) (some a) (some a) d) = some (after.map (·.2)) := by
      have hvisits : t.visits d = (before ++ [(a, k, v)]) ++ after := by
        rw [h]
        simp
      exact ih hvisits (by cases d <;> rfl) (by simpa using hcalls)
    simp only [TreeIterator.traverse, TreeIterator.move, hahead, List.head?_cons, Option.map_some,
      step_eq ht hlinked hroot hfuel h, hw.find_node ht, Option.bind_some, record, hrest,
      List.map_cons]

/-- A traversal steps from a node to the one it returns next. -/
theorem step_of_traverse {calls : Nat} {it : TreeIterator A} {pre post : List (K × V)}
    {r r' : K × V} (h : it.traverse t fuel d calls = some (pre ++ r :: r' :: post)) :
    ∃ a n b, t.find a = some n ∧ n.record = some r ∧ t.step d fuel a = some (some b) := by
  induction calls generalizing it pre with
  | zero => cases h
  | succ calls ih =>
    rw [TreeIterator.traverse, TreeIterator.move] at h
    rcases hahead : it.ahead d with - | a
    · simp only [hahead] at h
      cases pre <;> cases h
    · rcases hstep : t.step d fuel a with - | b
      · simp only [hahead, hstep, Option.map_none, reduceCtorEq] at h
      · simp only [hahead, hstep, Option.map_some] at h
        rcases hfind : (t.find a).bind record with - | q
        · simp only [hfind, reduceCtorEq] at h
        · simp only [hfind, Option.map_eq_some_iff] at h
          obtain ⟨rest, hrest, heq⟩ := h
          cases pre with
          | nil =>
            rw [List.nil_append, List.cons.injEq] at heq
            obtain ⟨rfl, rfl⟩ := heq
            obtain ⟨n, hn, hq⟩ := Option.bind_eq_some_iff.mp hfind
            cases b with
            | some b => exact ⟨a, n, b, hn, hq, hstep⟩
            | none =>
              -- without a node ahead the traversal is over
              cases calls with
              | zero => cases hrest
              | succ calls => cases d <;> cases hrest
          | cons e pre =>
            rw [List.cons_append, List.cons.injEq] at heq
            obtain ⟨rfl, rfl⟩ := heq
            exact ih hrest

end Steps

/-! ## Missing links -/

section Missing

variable {t s : LinkedNode A K V} {before after : List (A × K × V)} {n : Nat}

/-- A tree that misses links misses one at a right child. -/
theorem Within.exists_missing (h : Within .backward t before s after n) (hs : s.Loose)
    (hnot : ¬ s.Linked) :
    ∃ before' a l k v p x y after' m, Within .backward t before' (node a l k v p x y) after' m ∧
      (node a l k v p x y).Loose ∧ y ≠ nil ∧ y.parent = none := by
  induction s generalizing before after n with
  | nil => exact absurd trivial hnot
  | node a l k v p x y ihx ihy =>
    obtain ⟨hx, hy, hlx, hly⟩ := hs
    by_cases hyu : y.Under a
    · by_cases hxl : x.Linked
      · exact ihy h.near hly fun hyl => hnot ⟨hx, hyu, hxl, hyl⟩
      · exact ihx h.far hlx hxl
    · rw [Under, not_or] at hyu
      exact ⟨before, a, l, k, v, p, x, y, after, n, h, ⟨hx, hy, hlx, hly⟩, hyu.1,
        hy.resolve_left hyu.2⟩

/-- Below a node that climbing leaves upward without a parent, the first node is such a one too. -/
theorem Within.exists_first [DecidableEq A] (h : Within .backward t before s after n)
    (ht : t.addrs.Nodup) (hs : s.Loose) {a : A} (ha : s.addr = some a)
    (hclimb : ∃ N, ∀ fuel, N ≤ fuel → t.climb .backward fuel a = some none) :
    ∃ before' b k v, t.visits .backward = before' ++ (b, k, v) :: after ∧
      ∃ N, ∀ fuel, N ≤ fuel → t.step .backward fuel b = some none := by
  induction s generalizing before n a with
  | nil => cases ha
  | node b l k v p x y ihx _ =>
    obtain rfl : b = a := Option.some.inj ha
    obtain ⟨N, hN⟩ := hclimb
    by_cases hxnil : x = nil
    · subst hxnil
      refine ⟨before ++ y.visits .backward, b, k, v, ?_, N, fun fuel hfuel => ?_⟩
      · rw [h.visits_eq, visits_node]
        simp [child, left, right, Direction.flip, visits_nil]
      · simp only [step, h.find_node ht]
        exact hN fuel hfuel
    · obtain ⟨hx, -, hlx, -⟩ := hs
      have hparent := hx.resolve_left hxnil
      rcases x with - | ⟨c, l', k', v', p', z, w⟩
      · exact absurd rfl hxnil
      · refine ihx h.far hlx rfl ⟨N + 1, fun fuel hfuel => ?_⟩
        obtain ⟨fuel, rfl⟩ : ∃ f, fuel = f + 1 := ⟨fuel - 1, by omega⟩
        simp only [climb, Within.find_node (d := .backward) h.far ht, hparent, h.find_node ht]
        exact (if_pos rfl).trans (hN fuel (by omega))

end Missing

/-- The records of the nodes from left to right. -/
def records (t : LinkedNode A K V) : List (K × V) := t.nodes.map (·.2)

theorem records_eq (t : LinkedNode A K V) : t.records = t.erase.toList := nodes_records t

end LinkedNode

/-! ## The iterations of a tree -/

namespace LinkedTree

variable [DecidableEq A] {t : LinkedTree A K V} {m : K → Option V}

/-- The iterators enumerate: the records of the tree, in strictly ascending order of their keys, are
    those of the map, `next` returns them from `begin` on and `previous` the other way from `end`. -/
def Enumerates (t : LinkedTree A K V) (m : K → Option V) : Prop :=
  t.le.Sorted t.root.records ∧
    (∀ k v, m k = some v ↔ ∃ q ∈ t.root.records, t.le.equiv k q.1 = true ∧ q.2 = v) ∧
    ∀ fuel calls, t.root.size ≤ fuel → t.root.records.length < calls →
      t.begin.traverse t.root fuel .forward calls = some t.root.records ∧
        t.end_.traverse t.root fuel .backward calls = some t.root.records.reverse

/-- Wherever an iterator has moved to, `hasNext` and `hasPrevious` hold if and only if the call that
    goes there returns a node. -/
def TellsNext (t : LinkedTree A K V) : Prop :=
  ∀ fuel, t.root.size ≤ fuel → ∀ start, start = t.begin ∨ start = t.end_ →
    ∀ ds it, start.moves t.root fuel ds = some it →
      ∀ d, it.has d = true ↔ ∃ a it', it.move t.root fuel d = some (some a, it')

/-- The enumerations are complete where every child leads to its parent. -/
theorem Sound.enumerates (h : t.Sound m) (hlinked : t.root.Linked) : t.Enumerates m := by
  have hrep := h.represents
  refine ⟨?_, ?_, fun fuel calls hfuel hcalls => ⟨?_, ?_⟩⟩
  · rw [LinkedNode.records_eq]
    exact hrep.sorted
  · rw [LinkedNode.records_eq]
    exact hrep.entries
  · rw [LinkedNode.records, List.length_map] at hcalls
    have hvisits : t.root.visits .forward = [] ++ t.root.visits .forward := rfl
    exact LinkedNode.traverse_eq h.nodup hlinked h.parent hfuel hvisits
      (LinkedNode.extreme_eq .forward t.root) hcalls
  · rw [LinkedNode.records, List.length_map] at hcalls
    rw [LinkedNode.records, ← List.map_reverse]
    have hvisits : t.root.visits .backward = [] ++ t.root.visits .backward := rfl
    exact LinkedNode.traverse_eq h.nodup hlinked h.parent hfuel hvisits
      (LinkedNode.extreme_eq .backward t.root) (by rwa [List.length_reverse])

/-- A missing link ends the enumeration from `end` too early. -/
theorem Sound.linked_of_enumerates (h : t.Sound m) (henum : t.Enumerates m) : t.root.Linked := by
  by_contra hnot
  obtain ⟨before, a, l, k, v, p, x, y, after, n, hw, hloose, hynil, hparent⟩ :=
    LinkedNode.Within.root.exists_missing h.loose hnot
  obtain ⟨b, hb⟩ : ∃ b, y.addr = some b := by
    cases y with
    | nil => exact absurd rfl hynil
    | node b => exact ⟨b, rfl⟩
  have hclimb : ∃ N, ∀ fuel, N ≤ fuel → t.root.climb .backward fuel b = some none := by
    refine ⟨1, fun fuel hfuel => ?_⟩
    obtain ⟨fuel, rfl⟩ : ∃ f, fuel = f + 1 := ⟨fuel - 1, by omega⟩
    have hnone : ((LinkedNode.node a l k v p x y).child Direction.backward.flip).parent = none :=
      hparent
    simp only [LinkedNode.climb, LinkedNode.Within.find_addr (d := .backward) hw.near h.nodup hb,
      hnone]
  obtain ⟨before', c, k', v', hvisits, N, hN⟩ :=
    LinkedNode.Within.exists_first hw.near h.nodup hloose.2.2.2 hb hclimb
  obtain ⟨hsorted, -, htraverse⟩ := henum
  have hback := (htraverse (max t.root.size N) _ (Nat.le_max_left ..) (Nat.lt_succ_self _)).2
  have hrecords : t.root.records.reverse = (t.root.visits .backward).map (·.2) := by
    rw [LinkedNode.records, ← List.map_reverse]
    rfl
  rw [hrecords, hvisits, List.map_append, List.map_cons, List.cons_append, List.map_cons] at hback
  obtain ⟨c', node, e, hfind, hrecord, hstep⟩ := LinkedNode.step_of_traverse hback
  have hmem : (c, k', v') ∈ t.root.nodes := by
    rw [← LinkedNode.mem_visits (d := .backward), hvisits]
    simp
  have hnodup : t.root.records.Nodup := by
    refine hsorted.imp fun hlt heq => ?_
    rw [heq, t.le.irrefl] at hlt
    contradiction
  have hsame := List.inj_on_of_nodup_map hnodup (LinkedNode.mem_of_find hfind hrecord) hmem rfl
  obtain rfl : c' = c := congrArg Prod.fst hsame
  rw [hN _ (Nat.le_max_right ..)] at hstep
  cases hstep

/-- `hasPrevious` is true at the beginning. -/
theorem not_tellsNext (t : LinkedTree A K V) : ¬ t.TellsNext := by
  intro h
  obtain ⟨a, it, hmove⟩ := (h t.root.size (Nat.le_refl _) t.begin (.inl rfl) [] t.begin rfl
    .backward).mp rfl
  cases hmove

/-- After no calls do the iterators do what they should, as `hasNext` and `hasPrevious` tell the
    contrary. The enumerations are right if and only if every child leads to its parent, which calls
    of `add` alone never change. -/
theorem iterates_never (le : StrictWeakOrder K) (ops : List (TreeOp K V × Fresh A)) :
    ¬ ((after le ops).Enumerates (recorded le (ops.map (·.1))) ∧ (after le ops).TellsNext) ∧
      ((after le ops).Enumerates (recorded le (ops.map (·.1))) ↔ (after le ops).root.Linked) ∧
      ((∀ op ∈ ops, ∃ key value, op.1 = .add key value) → (after le ops).root.Linked) := by
  have hsound := (sound_after le ops).2
  refine ⟨fun h => not_tellsNext _ h.2, ⟨hsound.linked_of_enumerates, hsound.enumerates⟩, ?_⟩
  clear hsound
  induction ops using List.reverseRecOn with
  | nil => exact fun _ => trivial
  | append_singleton ops op ih =>
    intro hadds
    obtain ⟨key, value, hop⟩ := hadds op (by simp)
    have hlinked := ih fun op hop => hadds op (List.mem_append_left _ hop)
    rw [after, List.foldl_append, List.foldl_cons, List.foldl_nil, hop]
    exact (sound_after le ops).2.linked_add hlinked op.2 key value

/-- The order of the natural numbers. -/
def natOrder : StrictWeakOrder Nat where
  lt a b := decide (a < b)
  irrefl := by simp
  trans := by
    intro a b c
    simp only [decide_eq_true_eq]
    exact Nat.lt_trans
  between := by
    intro a b c
    simp only [decide_eq_true_eq]
    omega

/-- A `new` that returns the address behind all that are in use. -/
def newNat : Fresh Nat := fun used =>
  ⟨used.max?.getD 0 + 1, fun h => absurd (List.le_max?_getD_of_mem (k := 0) h) (Nat.not_succ_le_self _)⟩

/-- Six keys are added and one of them is removed: the iteration back from the end comes to a node
    whose link is missing, and `hasNext` is false before there is a node. -/
theorem iterates_not_afterRemove :
    let ops : List (TreeOp Nat Unit × Fresh Nat) :=
      [(.add 6 (), newNat), (.add 7 (), newNat), (.add 2 (), newNat), (.add 4 (), newNat),
        (.add 3 (), newNat), (.add 8 (), newNat), (.remove 3, newNat)]
    let t := after natOrder ops
    ¬ t.Enumerates (recorded natOrder (ops.map (·.1))) ∧ ¬ t.TellsNext ∧
      t.root.records.map (·.1) = [2, 4, 6, 7, 8] ∧
      t.end_.traverse t.root 5 .backward 6 = some [(8, ()), (7, ()), (6, ())] ∧
      t.begin.hasNext = false ∧ (t.begin.next t.root 5).map (·.1) = some (some 5) := by
  intro ops t
  have hback : t.end_.traverse t.root 5 .backward 6 = some [(8, ()), (7, ()), (6, ())] := by
    decide +kernel
  have hrecords : t.root.records = [(2, ()), (4, ()), (6, ()), (7, ()), (8, ())] := by
    decide +kernel
  refine ⟨fun h => ?_, not_tellsNext t, by rw [hrecords]; rfl, hback, ?_, ?_⟩
  · have := (h.2.2 5 6 (by decide +kernel) (by rw [hrecords]; decide)).2
    rw [hback, hrecords] at this
    exact absurd this (by decide)
  · decide +kernel
  · decide +kernel

end LinkedTree

end EsOs.Es
