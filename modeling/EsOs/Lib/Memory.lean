import Mathlib

/-!
# Byte memory

A memory gives every address its byte. The lemmas say which bytes a store puts where, which ones it
leaves, and how strings of bytes at an address are taken apart; a 32-bit word is four of them, the
low one first.
-/

namespace EsOs.Lib

abbrev Memory := Int → UInt8

namespace Memory

/-- The memory with the bytes stored from the address on. -/
def store (m : Memory) (p : Int) (bytes : List UInt8) : Memory :=
  fun x => if p ≤ x then bytes.getD (x - p).toNat (m x) else m x

/-- The bytes stand at the address. -/
def Holds (m : Memory) (p : Int) (bytes : List UInt8) : Prop :=
  ∀ i (h : i < bytes.length), m (p + i) = bytes[i]

/-- The four bytes of a word. -/
def leBytes (v : Int) : List UInt8 :=
  (List.range 4).map fun i => UInt8.ofNat (v / 256 ^ i % 256).toNat

/-- The word at the address. -/
def word (m : Memory) (p : Int) : Int :=
  (m p).toNat + 256 * (m (p + 1)).toNat + 65536 * (m (p + 2)).toNat + 16777216 * (m (p + 3)).toNat

variable {m m' : Memory} {p q x : Int} {as bs : List UInt8}

theorem store_of_outside (h : x < p ∨ p + bs.length ≤ x) : m.store p bs x = m x := by
  unfold store
  split
  · exact List.getD_eq_default _ _ (by omega)
  · rfl

theorem store_of_mem {i : Nat} (h : i < bs.length) : m.store p bs (p + i) = bs[i] := by
  unfold store
  rw [if_pos (by omega), show (p + i - p).toNat = i by omega, List.getD_eq_getElem _ _ h]

@[simp] theorem store_nil (m : Memory) (p : Int) : m.store p [] = m :=
  funext fun _ => store_of_outside (by simp; omega)

/-- Two stores that meet are one. -/
theorem store_append (m : Memory) (p : Int) (as bs : List UInt8) :
    m.store p (as ++ bs) = (m.store (p + as.length) bs).store p as := by
  funext x
  by_cases hin : p ≤ x ∧ x < p + as.length
  · obtain ⟨i, rfl⟩ : ∃ i : Nat, x = p + i := ⟨(x - p).toNat, by omega⟩
    have hi : i < as.length := by omega
    rw [store_of_mem hi, store_of_mem (by rw [List.length_append]; omega),
      List.getElem_append_left hi]
  · rw [@store_of_outside _ p x as (by omega)]
    by_cases hnext : p + as.length ≤ x ∧ x < p + as.length + bs.length
    · obtain ⟨i, rfl⟩ : ∃ i : Nat, x = p + as.length + i := ⟨(x - p - as.length).toNat, by omega⟩
      have hi : i < bs.length := by omega
      rw [store_of_mem hi, show p + as.length + i = p + (as.length + i : Nat) by omega,
        store_of_mem (by rw [List.length_append]; omega),
        List.getElem_append_right (Nat.le_add_right _ _),
        getElem_congr_idx (Nat.add_sub_cancel_left _ _)]
    · rw [store_of_outside (by rw [List.length_append]; omega), store_of_outside (by omega)]

theorem holds_store (m : Memory) (p : Int) (bs : List UInt8) : (m.store p bs).Holds p bs :=
  fun _ h => store_of_mem h

@[simp] theorem holds_nil : m.Holds p [] := fun _ h => absurd h (Nat.not_lt_zero _)

theorem holds_append :
    m.Holds p (as ++ bs) ↔ m.Holds p as ∧ m.Holds (p + as.length) bs := by
  constructor
  · intro h
    constructor
    · intro i hi
      rw [h i (by rw [List.length_append]; omega), List.getElem_append_left hi]
    · intro i hi
      have := h (as.length + i) (by rw [List.length_append]; omega)
      rwa [List.getElem_append_right (Nat.le_add_right _ _), Int.natCast_add, ← Int.add_assoc,
        getElem_congr_idx (Nat.add_sub_cancel_left _ _)] at this
  · rintro ⟨ha, hb⟩ i hi
    rw [List.length_append] at hi
    by_cases hlt : i < as.length
    · rw [List.getElem_append_left hlt]
      exact ha i hlt
    · rw [List.getElem_append_right (by omega), ← hb (i - as.length) (by omega)]
      congr 1
      omega

theorem holds_singleton {b : UInt8} : m.Holds p [b] ↔ m p = b := by
  constructor
  · intro h
    have := h 0 (by simp)
    simpa using this
  · intro h i hi
    obtain rfl : i = 0 := by simpa using hi
    simpa using h

/-- Bytes that do not change stay where they are. -/
theorem Holds.congr (h : m.Holds p bs) (heq : ∀ x, p ≤ x → x < p + bs.length → m' x = m x) :
    m'.Holds p bs := by
  intro i hi
  rw [heq _ (by omega) (by omega)]
  exact h i hi

/-- A store elsewhere leaves the bytes. -/
theorem Holds.store (h : m.Holds p bs) (hout : q + as.length ≤ p ∨ p + bs.length ≤ q) :
    (m.store q as).Holds p bs :=
  h.congr fun _ h1 h2 => store_of_outside (by omega)

theorem Holds.eq (h : m.Holds p as) (h' : m.Holds p bs) (hlen : as.length = bs.length) :
    as = bs :=
  List.ext_getElem hlen fun i h1 h2 => (h i h1).symm.trans (h' i h2)

@[simp] theorem leBytes_length (v : Int) : (leBytes v).length = 4 := by simp [leBytes]

theorem word_digits {n : Nat} (h : n < 4294967296) :
    ((n / 256 ^ 0 % 256 : Nat) : Int) + 256 * ((n / 256 ^ 1 % 256 : Nat) : Int) +
      65536 * ((n / 256 ^ 2 % 256 : Nat) : Int) + 16777216 * ((n / 256 ^ 3 % 256 : Nat) : Int) =
        n := by
  omega

/-- A word is read back as it was written. -/
theorem Holds.word {v : Int} (h : m.Holds p (leBytes v)) (hlow : 0 ≤ v) (hhigh : v < 4294967296) :
    m.word p = v := by
  obtain ⟨n, rfl⟩ := Int.eq_ofNat_of_zero_le hlow
  have hbyte (i : Nat) (hi : i < 4) : (m (p + i)).toNat = n / 256 ^ i % 256 := by
    have hcast : (n : Int) / 256 ^ i % 256 = ((n / 256 ^ i % 256 : Nat) : Int) := by
      push_cast
      rfl
    have hdigit : ((n : Int) / 256 ^ i % 256).toNat = n / 256 ^ i % 256 := by
      rw [hcast, Int.toNat_natCast]
    rw [h i (by rwa [leBytes_length])]
    simp only [leBytes, List.getElem_map, List.getElem_range, hdigit, UInt8.toNat_ofNat',
      Nat.reducePow, Nat.mod_mod]
  have h0 := hbyte 0 (by decide)
  have h1 := hbyte 1 (by decide)
  have h2 := hbyte 2 (by decide)
  have h3 := hbyte 3 (by decide)
  rw [Int.natCast_zero, Int.add_zero] at h0
  unfold Memory.word
  rw [h0, show p + 1 = p + (1 : Nat) from rfl, h1, show p + 2 = p + (2 : Nat) from rfl, h2,
    show p + 3 = p + (3 : Nat) from rfl, h3]
  exact word_digits (Int.ofNat_lt.mp hhigh)

end Memory

end EsOs.Lib
