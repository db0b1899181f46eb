import EsOs.Kernel.Proofs.MapList

/-!
# The validity of an address range

`Process::isValid` walks the map list, and the walk is right: it says yes exactly when the maps
cover the range up to the end pointer. The end pointer is where it goes wrong, since it keeps 32 bits
of a 64-bit length and does not tell an empty range from one that wraps.
-/

namespace EsOs.Kernel

open EsOs.Lib

variable {P : Type _}

/-- The map may be written. -/
def Map.Writable (m : Map P) : Prop := m.prot &&& PROT_WRITE ≠ 0

namespace Process

/-- Every byte of the range is covered by a map, a writable one when `write` is asked. -/
def Covers (p : Process P) (start : Nat) (length : Int) (write : Bool) : Prop :=
  ∀ i : Nat, (i : Int) < length → ∃ m ∈ p.mapList,
    m.start ≤ addPtr start i ∧ addPtr start i < m.end_ ∧ (write = true → m.Writable)

variable {p : Process P} {start : Nat} {length : Int} {write : Bool}

theorem validFrom_iff {end_ : Nat} {l : List (Map P)} (hl : OrderedIntervals Map.start Map.end_ l)
    (h : start < end_) :
    validFrom write end_ start l = true ↔
      Covered Map.start Map.end_ (fun m => write = true → m.Writable) l start end_ := by
  induction l generalizing start with
  | nil => simp [validFrom, covered_nil h]
  | cons m ms ih =>
    rw [validFrom]
    split
    · rename_i hbefore
      simp [covered_cons_of_lt_lo hl hbefore h]
    · rename_i hstart
      split
      · rename_i hin
        rw [covered_cons_of_mem hl (not_lt.mp hstart) hin h]
        split
        · rename_i hprot
          simp [hprot.1, hprot.2, Map.Writable]
        · rename_i hprot
          have hgood : write = true → m.Writable := fun hw hnone => hprot ⟨hw, hnone⟩
          split
          · rename_i hmore
            rw [ih hl.tail hmore]
            exact ⟨fun hrest => ⟨hgood, .inr hrest⟩,
              fun hcov => hcov.2.resolve_left (not_le.mpr hmore)⟩
          · rename_i hmore
            exact iff_of_true rfl ⟨hgood, .inl (not_lt.mp hmore)⟩
      · rename_i hbehind
        rw [covered_cons_of_hi_le (not_lt.mp hbehind)]
        exact ih hl.tail h

/-- No map reaches the last byte of the address space. -/
theorem not_covered_last (hinv : MapListInv p.mapList) {m : Map P} (hm : m ∈ p.mapList) :
    ¬ 4294967295 < m.end_ := by
  have hmax := (hinv.aligned m hm).le_max
  simp only [USER_MAX] at hmax
  omega

theorem addPtr_of_lt {n : Nat} (h : start + n < 4294967296) : addPtr start n = start + n := by
  unfold addPtr
  omega

/-- A range that reaches the last byte of the address space is not covered. -/
theorem not_covers_of_last (hinv : MapListInv p.mapList) (hstart : start < 4294967296)
    (h : 4294967296 ≤ start + length) : ¬ p.Covers start length write := by
  intro hcov
  obtain ⟨m, hm, -, hend, -⟩ := hcov (4294967295 - start) (by omega)
  rw [addPtr_of_lt (by omega)] at hend
  exact not_covered_last hinv hm (by omega)

/-- A range of addresses that does not wrap is covered when its interval is. -/
theorem covers_iff {n : Nat} (h : start + n < 4294967296) :
    p.Covers start n write ↔
      Covered Map.start Map.end_ (fun m => write = true → m.Writable) p.mapList start
        (start + n) := by
  constructor
  · intro hcov c hc hlt
    have hbyte := hcov (c - start) (by omega)
    rwa [addPtr_of_lt (by omega), Nat.add_sub_cancel' hc] at hbyte
  · intro hcov i hi
    rw [addPtr_of_lt (by omega)]
    exact hcov (start + i) (by omega) (by omega)

/-- What `isValid` answers: whether the range of the last 32 bits of the length is covered, if it is
    not empty. -/
theorem isValid_iff_covers (hinv : MapListInv p.mapList) (hstart : start < 4294967296) :
    p.isValid start length write = true ↔
      0 < length % 4294967296 ∧ p.Covers start (length % 4294967296) write := by
  obtain ⟨n, hn⟩ := Int.eq_ofNat_of_zero_le (Int.emod_nonneg length (show (4294967296 : Int) ≠ 0 by
    decide))
  have hlt := Int.emod_lt_of_pos length (show (0 : Int) < 4294967296 by decide)
  rw [hn] at hlt ⊢
  have hend : addPtr start length = (start + n) % 4294967296 := by
    unfold addPtr
    omega
  rw [isValid]
  simp only [hend]
  by_cases hfits : start + n < 4294967296
  · rw [Nat.mod_eq_of_lt hfits, covers_iff hfits]
    split
    · rename_i hpos
      rw [validFrom_iff hinv.ordered hpos]
      exact ⟨fun h => ⟨by omega, h⟩, fun h => h.2⟩
    · rename_i hempty
      simp only [Bool.false_eq_true, false_iff]
      omega
  · have hnot : ¬ p.Covers start n write := not_covers_of_last hinv hstart (by omega)
    rw [if_neg (by omega)]
    simp [hnot]

/-- `isValid` says whether every byte of the range is covered if and only if the length lies between
    1 and `2^32 - 1`, or the range of its last 32 bits happens to have the right answer. -/
theorem isValid_covers_iff (p : Process P) (hinv : MapListInv p.mapList) (start : Nat)
    (hstart : start < 4294967296) (length : Int) (write : Bool) :
    (p.isValid start length write = true ↔ p.Covers start length write) ↔
      (0 < length ∧ length < 4294967296) ∨
        (length ≤ 0 ↔
          0 < length % 4294967296 ∧ p.Covers start (length % 4294967296) write) := by
  rw [isValid_iff_covers hinv hstart]
  by_cases hin : 0 < length ∧ length < 4294967296
  · have hmod : length % 4294967296 = length := Int.emod_eq_of_lt (by omega) hin.2
    rw [hmod]
    simp [hin]
  · have hcov : p.Covers start length write ↔ length ≤ 0 := by
      constructor
      · intro hcov
        by_contra hpos
        exact not_covers_of_last hinv hstart (by omega) hcov
      · intro hle i hi
        omega
    rw [hcov]
    simp only [hin, false_or]
    exact iff_comm

/-- Two adjacent maps, of which only the second may be written. -/
def adjacent : Process Unit :=
  ⟨[⟨0x1000, 0x2000, 0, 1, 0, none, 0⟩, ⟨0x2000, 0x4000, 0, 3, 0, none, 0⟩], 0⟩

theorem adjacent_inv : MapListInv adjacent.mapList := by
  refine ⟨?_, ?_, by decide⟩
  · simp only [adjacent, List.forall_mem_cons]
    exact ⟨by constructor <;> decide, by constructor <;> decide, by simp⟩
  · simp only [adjacent, List.forall_mem_cons]
    exact ⟨by decide, by decide, by simp⟩

theorem isValid_covers_adjacent :
    adjacent.isValid 0x1800 0x2000 false = true ∧ adjacent.Covers 0x1800 0x2000 false := by
  have h := isValid_covers_iff adjacent adjacent_inv 0x1800 (by decide) 0x2000 false
  have hvalid : adjacent.isValid 0x1800 0x2000 false = true := by decide
  exact ⟨hvalid, (h.mpr (.inl (by decide))).mp hvalid⟩

/-- A range of 4 GB and a page passes for the page at its start. -/
theorem isValid_not_covers :
    MapListInv adjacent.mapList ∧ adjacent.isValid 0x1000 (4294967296 + 0x1000) false = true ∧
      ¬ adjacent.Covers 0x1000 (4294967296 + 0x1000) false :=
  ⟨adjacent_inv, by decide,
    not_covers_of_last adjacent_inv (by decide) (by decide)⟩

end Process

end EsOs.Kernel
