import Mathlib

/-!
# Elements in lists

Elements that are kept in lists, such as threads in queues. Each element has at most one place: it is
in the list of its place, once, and in no other list. An element moves by leaving its list and by
being put to another one.
-/

namespace EsOs.Lib

variable {A Q : Type*}

/-- Each element is in the list of its place, once, and in no other list. -/
structure Placed (contents : Q → List A) (place : A → Option Q) : Prop where
  mem_iff : ∀ a q, a ∈ contents q ↔ place a = some q
  nodup : ∀ q, (contents q).Nodup

namespace Placed

variable {contents : Q → List A} {place : A → Option Q} {a : A} {q : Q} {l : List A}

theorem nowhere : Placed (fun _ : Q => ([] : List A)) fun _ => none where
  mem_iff _ _ := by simp
  nodup _ := List.nodup_nil

theorem not_mem (h : Placed contents place) (ha : place a = none) (q : Q) : a ∉ contents q := by
  rw [h.mem_iff, ha]
  simp

variable [DecidableEq Q]

/-- A list changes, and the elements of it keep their place. -/
theorem reorder (h : Placed contents place) (hl : l.Perm (contents q)) :
    Placed (Function.update contents q l) place where
  mem_iff b r := by
    by_cases hr : r = q
    · subst hr
      rw [Function.update_self, hl.mem_iff, h.mem_iff]
    · rw [Function.update_of_ne hr, h.mem_iff]
  nodup r := by
    by_cases hr : r = q
    · subst hr
      rw [Function.update_self, hl.nodup_iff]
      exact h.nodup r
    · rw [Function.update_of_ne hr]
      exact h.nodup r

variable [DecidableEq A]

/-- An element without a place is put to a list. -/
theorem insert (h : Placed contents place) (ha : place a = none)
    (hl : l.Perm (a :: contents q)) :
    Placed (Function.update contents q l) (Function.update place a (some q)) where
  mem_iff b r := by
    by_cases hb : b = a
    · subst hb
      by_cases hr : r = q
      · subst hr
        simp [hl.mem_iff]
      · simp [hr, h.not_mem ha, Ne.symm hr]
    · rw [Function.update_of_ne hb, ← h.mem_iff]
      by_cases hr : r = q
      · subst hr
        rw [Function.update_self, hl.mem_iff, List.mem_cons, or_iff_right hb]
      · rw [Function.update_of_ne hr]
  nodup r := by
    by_cases hr : r = q
    · subst hr
      rw [Function.update_self, hl.nodup_iff]
      exact List.nodup_cons.mpr ⟨h.not_mem ha r, h.nodup r⟩
    · rw [Function.update_of_ne hr]
      exact h.nodup r

/-- An element leaves the list of its place. -/
theorem erase (h : Placed contents place) (ha : place a = some q) :
    Placed (Function.update contents q ((contents q).erase a)) (Function.update place a none) where
  mem_iff b r := by
    by_cases hb : b = a
    · subst hb
      by_cases hr : r = q
      · subst hr
        simp [(h.nodup r).mem_erase_iff]
      · simp [hr, h.mem_iff, ha, Ne.symm hr]
    · rw [Function.update_of_ne hb, ← h.mem_iff]
      by_cases hr : r = q
      · subst hr
        rw [Function.update_self, List.mem_erase_of_ne hb]
      · rw [Function.update_of_ne hr]
  nodup r := by
    by_cases hr : r = q
    · subst hr
      rw [Function.update_self]
      exact (h.nodup r).erase a
    · rw [Function.update_of_ne hr]
      exact h.nodup r

end Placed

end EsOs.Lib
