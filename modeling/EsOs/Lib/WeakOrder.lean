import Mathlib.Data.List.Pairwise

/-!
# Strict weak orders and lists sorted by them

A comparison that may leave different keys unordered. Such keys are equivalent, and a container
that sorts by the comparison takes them for one key.
-/

namespace EsOs.Lib

/-- A comparison whose unordered keys form equivalence classes. -/
structure StrictWeakOrder (K : Type _) where
  lt : K → K → Bool
  irrefl : ∀ a, lt a a = false
  trans : ∀ a b c, lt a b = true → lt b c = true → lt a c = true
  between : ∀ a b c, lt a c = true → lt a b = true ∨ lt b c = true

namespace StrictWeakOrder

variable {K V : Type _} (o : StrictWeakOrder K) {a b c : K}

/-- Keys that the comparison leaves unordered. -/
def equiv (a b : K) : Bool := !o.lt a b && !o.lt b a

variable {o}

theorem equiv_iff : o.equiv a b = true ↔ o.lt a b = false ∧ o.lt b a = false := by
  simp [equiv]

@[simp] theorem equiv_refl (a : K) : o.equiv a a = true := by
  simp [equiv, o.irrefl]

theorem equiv_comm (a b : K) : o.equiv a b = o.equiv b a := by
  simp [equiv, Bool.and_comm]

theorem not_lt_of_lt (h : o.lt a b = true) : o.lt b a = false := by
  refine Bool.eq_false_iff.mpr fun hba => ?_
  have := o.trans _ _ _ h hba
  rw [o.irrefl] at this
  contradiction

theorem equiv_of_lt (h : o.lt a b = true) : o.equiv a b = false := by
  simp [equiv, h]

theorem equiv_of_gt (h : o.lt b a = true) : o.equiv a b = false := by
  simp [equiv, h]

/-- Equivalent keys compare alike on the right. -/
theorem lt_of_lt_equiv (h : o.lt a b = true) (he : o.equiv b c = true) : o.lt a c = true := by
  rcases o.between a c b h with h | h
  · exact h
  · rw [(equiv_iff.mp he).2] at h
    contradiction

/-- Equivalent keys compare alike on the left. -/
theorem lt_of_equiv_lt (he : o.equiv a b = true) (h : o.lt b c = true) : o.lt a c = true := by
  rcases o.between b a c h with h | h
  · rw [(equiv_iff.mp he).2] at h
    contradiction
  · exact h

theorem equiv_trans (hab : o.equiv a b = true) (hbc : o.equiv b c = true) :
    o.equiv a c = true := by
  have hcb : o.equiv c b = true := by rwa [equiv_comm]
  refine equiv_iff.mpr ⟨?_, ?_⟩ <;> refine Bool.eq_false_iff.mpr fun h => ?_
  · have hlt := lt_of_lt_equiv h hcb
    rw [(equiv_iff.mp hab).1] at hlt
    contradiction
  · have hlt := lt_of_equiv_lt hbc h
    rw [(equiv_iff.mp hab).2] at hlt
    contradiction

variable (o) in
/-- The records of `l` come in strictly ascending order of their keys. -/
def Sorted (l : List (K × V)) : Prop :=
  l.Pairwise fun p q => o.lt p.1 q.1 = true

/-- A list with a record in its middle is sorted when both sides are and lie on its sides. -/
theorem sorted_mid {l r : List (K × V)} {p : K × V} :
    o.Sorted (l ++ p :: r) ↔
      (∀ q ∈ l, o.lt q.1 p.1 = true) ∧ (∀ q ∈ r, o.lt p.1 q.1 = true) ∧
        o.Sorted l ∧ o.Sorted r := by
  unfold Sorted
  simp only [List.pairwise_append, List.pairwise_cons, List.mem_cons, forall_eq_or_imp]
  constructor
  · rintro ⟨hl, ⟨hp, hr⟩, hlr⟩
    exact ⟨fun q hq => (hlr q hq).1, hp, hl, hr⟩
  · rintro ⟨hl, hr, hsl, hsr⟩
    exact ⟨hsl, ⟨hr, hsr⟩, fun q hq => ⟨hl q hq, fun q' hq' => o.trans _ _ _ (hl q hq) (hr q' hq')⟩⟩

/-- Records all on one side of a key are none of that key. -/
theorem filter_of_lt {l : List (K × V)} {k : K} (h : ∀ q ∈ l, o.lt q.1 k = true) :
    l.filter (fun q => !o.equiv k q.1) = l :=
  List.filter_eq_self.mpr fun q hq => by simp [equiv_of_gt (h q hq)]

theorem filter_of_gt {l : List (K × V)} {k : K} (h : ∀ q ∈ l, o.lt k q.1 = true) :
    l.filter (fun q => !o.equiv k q.1) = l :=
  List.filter_eq_self.mpr fun q hq => by simp [equiv_of_lt (h q hq)]

/-- A sorted list has at most one record of a key. -/
theorem Sorted.eq_of_equiv {l : List (K × V)} (h : o.Sorted l) {p q : K × V} (hp : p ∈ l)
    (hq : q ∈ l) (he : o.equiv p.1 q.1 = true) : p = q := by
  induction l with
  | nil => cases hp
  | cons x l ih =>
    obtain ⟨hx, hl⟩ := List.pairwise_cons.mp h
    rcases List.mem_cons.mp hp with rfl | hpl <;> rcases List.mem_cons.mp hq with rfl | hql
    · rfl
    · rw [equiv_of_lt (hx q hql)] at he
      contradiction
    · rw [equiv_of_gt (hx p hpl)] at he
      contradiction
    · exact ih hl hpl hql

end StrictWeakOrder

end EsOs.Lib
