import EsOs.Fat.Rename
import EsOs.Fat.Proofs.LongName
import EsOs.Fat.Proofs.NewEntry

/-!
# What is erased with an entry

`remove` erases the entry and the parts of a long name that count down to it, and nothing else.
-/

namespace EsOs.Fat

namespace Fcb

@[simp] theorem erase_zero (e : Fcb) : e.erase 0 = 0xe5 := rfl

theorem erase_free (e : Fcb) : e.erase.isFreeEntry = true := rfl

theorem erase_of_ne (e : Fcb) {i : Nat} (hi : i ≠ 0) : e.erase i = e i :=
  if_neg hi

theorem isEntry_iff {e : Fcb} : e.isEntry = true ↔
    e.isFreeEntry = false ∧ e.isLongNameComponent = false ∧ e.isVolumeID = false := by
  unfold isEntry
  cases e.isFreeEntry <;> cases e.isLongNameComponent <;> cases e.isVolumeID <;> decide

/-- The part of a long name at place `i` counts down to the entry at place `k`. -/
def LeadsTo (e : Fcb) (i k : Nat) : Prop :=
  e.isFreeEntry = false ∧ e.isLongNameComponent = true ∧ i + e.order = k

instance (e : Fcb) (i k : Nat) : Decidable (e.LeadsTo i k) :=
  inferInstanceAs (Decidable (_ ∧ _))

end Fcb

/-- What `remove` leaves of the entry at place `i`, for the one at place `k`. -/
def removed (k i : Nat) (e : Fcb) : Fcb :=
  if i = k ∨ (i < k ∧ e.LeadsTo i k) then e.erase else e

theorem removeLoop_getElem? {entries : List Fcb} {k : Nat} {e : Fcb} (he : entries[k]? = some e)
    (hentry : e.isEntry = true) (hlive : ∀ i < k, ∀ e', entries[i]? = some e' → e' 0 ≠ 0)
    (base i : Nat) :
    (removeLoop (32 * (base + k)) (32 * base) entries)[i]? =
      entries[i]?.map (removed (base + k) (base + i)) := by
  induction entries generalizing base k i with
  | nil => cases he
  | cons a rest ih =>
    have hnext : 32 * base + 32 = 32 * (base + 1) := by omega
    -- the entries behind `a`, where it is not the one that is removed
    have hrest : ∀ {a'}, k ≠ 0 → a' = removed (base + k) base a →
        (a' :: removeLoop (32 * (base + k)) (32 * base + 32) rest)[i]? =
          (a :: rest)[i]?.map (removed (base + k) (base + i)) := by
      rintro a' hk rfl
      obtain ⟨k, rfl⟩ : ∃ k', k = k' + 1 := ⟨k - 1, by omega⟩
      cases i with
      | zero => rfl
      | succ i =>
        have := ih (k := k) he (fun i hi e' he' => hlive (i + 1) (by omega) e' he') (base + 1) i
        rw [List.getElem?_cons_succ, List.getElem?_cons_succ, hnext,
          show base + (k + 1) = base + 1 + k by omega, show base + (i + 1) = base + 1 + i by omega]
        exact this
    have hkeep : k ≠ 0 → ¬ a.LeadsTo base (base + k) → a = removed (base + k) base a :=
      fun hk hno => (if_neg (by rintro (hx | ⟨-, hx⟩) <;> [omega; exact hno hx])).symm
    rw [removeLoop]
    cases k with
    | zero =>
      cases he
      obtain ⟨hfree, hlong, hvolume⟩ := Fcb.isEntry_iff.mp hentry
      have hzero : e 0 ≠ 0 := by simpa using FatStream.ne_zero_of_not_free hfree
      rw [if_neg hzero, hfree, hlong, hvolume]
      simp only [Bool.false_eq_true, if_false, Bool.not_false, if_true, Nat.add_zero]
      cases i with
      | zero =>
        simp only [List.getElem?_cons_zero, Option.map_some]
        unfold removed
        rw [if_pos (.inl rfl)]
      | succ i =>
        simp only [List.getElem?_cons_succ]
        have hid : ∀ e : Fcb, removed base (base + (i + 1)) e = e := fun e =>
          if_neg (by omega)
        rw [show removed base (base + (i + 1)) = id from funext hid, Option.map_id]
        rfl
    | succ k =>
      have hzero := hlive 0 (by omega) a rfl
      rw [if_neg hzero]
      split
      · rename_i hfree
        exact hrest (by omega) (hkeep (by omega) fun hx => by rw [hx.1] at hfree; cases hfree)
      · rename_i hfree
        have hfree : a.isFreeEntry = false := by simpa using hfree
        split
        · rename_i hlong
          refine hrest (by omega) ?_
          unfold removed
          by_cases hlead : base + a.order = base + (k + 1)
          · rw [if_pos (by omega), if_pos (.inr ⟨by omega, hfree, hlong, hlead⟩)]
          · rw [if_neg (by omega), if_neg]
            rintro (hx | ⟨-, -, -, hx⟩)
            · omega
            · exact hlead hx
        · rename_i hlong
          have hno : ¬ a.LeadsTo base (base + (k + 1)) := fun hx => hlong hx.2.1
          split
          · rw [if_neg (by omega)]
            exact hrest (by omega) (hkeep (by omega) hno)
          · exact hrest (by omega) (hkeep (by omega) hno)

end EsOs.Fat
