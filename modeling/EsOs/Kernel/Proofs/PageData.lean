import Mathlib
import EsOs.Kernel.Cache

/-!
# What a page holds and what is written back

`Page::fill` fetches the bytes of the stream, `Page::write` marks the sectors it writes to, and
`Page::sync` writes back the groups of sectors that have a marked one.
-/

namespace EsOs.Kernel

namespace Store

variable {s : Store}

theorem writeCount_pos {count : Nat} (h : 0 < count) : 0 < s.writeCount count := by
  have := s.grain_pos
  unfold writeCount
  omega

theorem writeCount_le (s : Store) (count : Nat) : s.writeCount count ≤ count :=
  Nat.min_le_left _ _

theorem read_le (s : Store) (count : Nat) (pos : Int) : s.read count pos ≤ count := by
  unfold read
  omega

/-- Nothing is read only behind the end. -/
theorem size_le_of_read {count : Nat} {pos : Int} (hcount : 0 < count) (h : s.read count pos ≤ 0) :
    s.size ≤ pos := by
  have := s.grain_pos
  unfold read at h
  omega

end Store

namespace Page

/-! ### Fetching -/

theorem fillLoop_spec {store : Store} {offset : Int} {fuel : Nat} :
    ∀ {len : Nat} {data : Nat → UInt8}, 4096 ≤ len + fuel →
      (∀ i : Nat, i < len → offset + i < store.size → data i = store.data (offset + i)) →
      ∀ i : Nat, i < 4096 → offset + i < store.size →
        (fillLoop store offset fuel len data).2 i = store.data (offset + i) := by
  induction fuel with
  | zero =>
    intro len data hfuel hdata i hi hsize
    exact hdata i (by omega) hsize
  | succ fuel ih =>
    intro len data hfuel hdata i hi hsize
    simp only [fillLoop]
    split
    · exact hdata i (by omega) hsize
    split
    · rename_i hend
      have hle := Store.size_le_of_read (by omega) hend
      have hlt : i < len := by omega
      simp only [if_neg (show ¬(len ≤ i ∧ i < 4096) by omega)]
      exact hdata i hlt hsize
    · rename_i hread
      refine ih (by omega) (fun j hj hjsize => ?_) i hi hsize
      split
      · rfl
      · exact hdata j (by omega) hjsize

/-- A page that is filled has the bytes of the stream below its end. -/
theorem fill_data {page : Page} {store : Store} (hfilled : page.filled = false) {i : Nat}
    (hi : i < 4096) (hsize : page.offset + i < store.size) :
    (page.fill store).1.data i = store.data (page.offset + i) := by
  simp only [fill, hfilled, Bool.false_eq_true, if_false]
  exact fillLoop_spec (by omega) (by simp) i hi hsize

theorem fill_of_filled {page : Page} {store : Store} (hfilled : page.filled = true) :
    (page.fill store).1 = page := by
  simp [fill, hfilled]

theorem fill_eq (page : Page) (store : Store) :
    (page.fill store).1 = { page with data := (page.fill store).1.data, filled := true } := by
  unfold fill
  split
  · rename_i h
    rw [← h]
  · rfl

/-! ### Marked sectors -/

theorem write_map_old {page : Page} {src : List UInt8} {offset k : Nat}
    (h : page.map.testBit k = true) : (page.write src offset).map.testBit k = true := by
  simp [write, h]

/-- The sector of every byte written is marked. -/
theorem write_map_new {page : Page} {src : List UInt8} {offset i : Nat} (hi : offset ≤ i)
    (hlt : i < offset + src.length) : (page.write src offset).map.testBit (i / 512) = true := by
  have hmark : (((1 <<< ((offset + src.length + 511) / 512 - offset / 512) - 1) <<<
      (offset / 512)).testBit (i / 512)) = true := by
    rw [Nat.testBit_shiftLeft, Nat.one_shiftLeft, Nat.testBit_two_pow_sub_one]
    simp only [Bool.and_eq_true, decide_eq_true_eq]
    omega
  simp [write, hmark]

/-- A page has eight sectors. -/
theorem write_map_lt {page : Page} {src : List UInt8} {offset : Nat} (hmap : page.map < 2 ^ 8)
    (hlen : offset + src.length ≤ 4096) : (page.write src offset).map < 2 ^ 8 := by
  refine Nat.or_lt_two_pow hmap ?_
  rw [Nat.one_shiftLeft, Nat.shiftLeft_eq, Nat.sub_mul, ← Nat.pow_add]
  have hpow := Nat.pow_le_pow_right (n := 2) (by decide)
    (show (offset + src.length + 511) / 512 - offset / 512 + offset / 512 ≤ 8 by omega)
  have hpos := Nat.two_pow_pos (offset / 512)
  omega

/-! ### Writing back -/

/-- The bits of group `j` of `shift` sectors. -/
def maskOf (shift j : Nat) : Nat :=
  (1 <<< shift - 1) <<< (shift * j)

/-- A sector of the group is marked. -/
def Marked (shift map j : Nat) : Prop :=
  map &&& maskOf shift j ≠ 0

theorem maskOf_succ (shift j : Nat) : maskOf shift j <<< shift = maskOf shift (j + 1) := by
  rw [maskOf, maskOf, ← Nat.shiftLeft_add, Nat.mul_add, Nat.mul_one]

theorem testBit_maskOf (shift j k : Nat) :
    (maskOf shift j).testBit k = decide (shift * j ≤ k ∧ k < shift * (j + 1)) := by
  rw [maskOf, Nat.testBit_shiftLeft, Nat.one_shiftLeft, Nat.testBit_two_pow_sub_one, Nat.mul_add,
    Nat.mul_one, ← Bool.decide_and]
  exact decide_eq_decide.2 (by omega)

theorem marked_iff {shift map j : Nat} :
    Marked shift map j ↔
      ∃ k, shift * j ≤ k ∧ k < shift * (j + 1) ∧ map.testBit k = true := by
  constructor
  · intro h
    obtain ⟨k, hk⟩ := Nat.exists_testBit_of_ne_zero h
    rw [Nat.testBit_and, testBit_maskOf, Bool.and_eq_true, decide_eq_true_eq] at hk
    exact ⟨k, hk.2.1, hk.2.2, hk.1⟩
  · rintro ⟨k, hle, hlt, hk⟩ hzero
    have hbit := congrArg (Nat.testBit · k) hzero
    simp [testBit_maskOf, hle, hlt, hk] at hbit

/-- A marked sector marks its group. -/
theorem marked_of_testBit {shift map k : Nat} (hshift : 0 < shift) (h : map.testBit k = true) :
    Marked shift map (k / shift) := by
  refine marked_iff.2 ⟨k, Nat.mul_div_le k shift, ?_, h⟩
  rw [Nat.mul_add, Nat.mul_one]
  have := Nat.div_add_mod k shift
  have := Nat.mod_lt k hshift
  omega

theorem marked_lt {shift map j : Nat} (hmap : map < 2 ^ 8) (h : Marked shift map j) :
    shift * j < 8 := by
  obtain ⟨k, hle, -, hk⟩ := marked_iff.1 h
  have hlt : k < 8 := by
    by_contra hge
    rw [Nat.testBit_lt_two_pow
      (Nat.lt_of_lt_of_le hmap (Nat.pow_le_pow_right (by decide) (by omega)))] at hk
    cases hk
  omega

theorem eq_zero_of_not_marked {shift map : Nat} (hshift : 0 < shift)
    (h : ∀ j, ¬Marked shift map j) : map = 0 := by
  by_contra hne
  obtain ⟨k, hk⟩ := Nat.exists_testBit_of_ne_zero hne
  exact h _ (marked_of_testBit hshift hk)

theorem clear_lt (mask : Nat) {map : Nat} (hmap : map < 2 ^ 8) :
    map &&& (mask ^^^ (2 ^ 64 - 1)) < 2 ^ 8 :=
  Nat.lt_of_le_of_lt Nat.and_le_left hmap

/-- Clearing the bits of a group unmarks this group only. -/
theorem marked_clear {shift map i j : Nat} (hmap : map < 2 ^ 8) :
    Marked shift (map &&& (maskOf shift j ^^^ (2 ^ 64 - 1))) i ↔ Marked shift map i ∧ i ≠ j := by
  have hbit : ∀ k, (map &&& (maskOf shift j ^^^ (2 ^ 64 - 1))).testBit k = true ↔
      map.testBit k = true ∧ ¬(shift * j ≤ k ∧ k < shift * (j + 1)) := by
    intro k
    by_cases hk : map.testBit k = true
    · have hlt : k < 64 := by
        by_contra hge
        rw [Nat.testBit_lt_two_pow
          (Nat.lt_of_lt_of_le hmap (Nat.pow_le_pow_right (by decide) (by omega)))] at hk
        cases hk
      simp only [Nat.testBit_and, Nat.testBit_xor, testBit_maskOf, Nat.testBit_two_pow_sub_one,
        hk, hlt, decide_true, Bool.true_and, true_and, Bool.xor_true, Bool.not_eq_true',
        decide_eq_false_iff_not]
    · simp [hk]
  simp only [marked_iff, hbit]
  constructor
  · rintro ⟨k, hle, hlt, hk, hout⟩
    refine ⟨⟨k, hle, hlt, hk⟩, ?_⟩
    rintro rfl
    exact hout ⟨hle, hlt⟩
  · rintro ⟨⟨k, hle, hlt, hk⟩, hne⟩
    refine ⟨k, hle, hlt, hk, fun hin => hne ?_⟩
    have h1 := Nat.lt_of_mul_lt_mul_left (Nat.lt_of_le_of_lt hle hin.2)
    have h2 := Nat.lt_of_mul_lt_mul_left (Nat.lt_of_le_of_lt hin.1 hlt)
    omega

/-- What a page has written back: the groups with a marked sector hold its bytes, and the rest is
    as it was. -/
structure WrittenBack (page : Page) (sectorSize : Nat) (marked : Nat → Prop)
    (store store' : Store) : Prop where
  written : ∀ i : Nat, marked (i / sectorSize) → i < 4096 →
    store'.data (page.offset + i) = page.data i
  other : ∀ x, (∀ i : Nat, i < 4096 → marked (i / sectorSize) → x ≠ page.offset + i) →
    store'.data x = store.data x
  size_le : store.size ≤ store'.size

theorem writeBack_spec (page : Page) {fuel : Nat} :
    ∀ (len pos : Nat) (store : Store), len ≤ fuel →
      (writeBack page fuel len pos store).2 = pos + len ∧
      (∀ i : Nat, pos ≤ i → i < pos + len →
        (writeBack page fuel len pos store).1.data (page.offset + i) = page.data i) ∧
      (∀ x, (x < page.offset + pos ∨ page.offset + pos + len ≤ x) →
        (writeBack page fuel len pos store).1.data x = store.data x) ∧
      store.size ≤ (writeBack page fuel len pos store).1.size := by
  induction fuel with
  | zero =>
    intro len pos store hlen
    obtain rfl : len = 0 := by omega
    exact ⟨rfl, by omega, fun x _ => rfl, Int.le_refl _⟩
  | succ fuel ih =>
    intro len pos store hlen
    simp only [writeBack]
    split
    · rename_i hzero
      subst hzero
      exact ⟨rfl, by omega, fun x _ => rfl, Int.le_refl _⟩
    · rename_i hpos
      have hcount := Store.writeCount_pos (s := store) (show 0 < len by omega)
      have hle := store.writeCount_le len
      rw [if_neg (by omega)]
      obtain ⟨hend, hdata, hother, hsize⟩ := ih (len - store.writeCount len)
        (pos + store.writeCount len)
        (store.write (fun i => page.data (pos + i)) len (page.offset + pos)) (by omega)
      refine ⟨by omega, fun i hi hlt => ?_, fun x hx => ?_, ?_⟩
      · by_cases hpart : i < pos + store.writeCount len
        · rw [hother _ (by omega)]
          simp only [Store.write]
          rw [if_pos (by omega)]
          congr 1
          omega
        · exact hdata i (by omega) (by omega)
      · rw [hother x (by omega)]
        simp only [Store.write]
        rw [if_neg (by omega)]
      · refine Int.le_trans ?_ hsize
        exact Int.le_max_left _ _

/-- The run of groups that `syncRun` collects from group `j` on. -/
theorem syncRun_spec (sectorSize : Nat) {shift fuel : Nat} (hshift : 0 < shift) :
    ∀ {map j : Nat} (len : Nat), map < 2 ^ 8 → Marked shift map j → 9 ≤ fuel + j →
      ∃ j', j < j' ∧
        (syncRun sectorSize shift fuel map (maskOf shift j) len).2 =
          (maskOf shift j', len + (j' - j) * sectorSize) ∧
        (syncRun sectorSize shift fuel map (maskOf shift j) len).1 < 2 ^ 8 ∧
        (∀ i, j ≤ i → i < j' → Marked shift map i) ∧
        ∀ i, Marked shift (syncRun sectorSize shift fuel map (maskOf shift j) len).1 i ↔
          Marked shift map i ∧ ¬(j ≤ i ∧ i < j') := by
  induction fuel with
  | zero =>
    intro map j len hmap hj hfuel
    have := marked_lt hmap hj
    have := Nat.le_mul_of_pos_left j hshift
    omega
  | succ fuel ih =>
    intro map j len hmap hj hfuel
    have hlt := marked_lt hmap hj
    have hclear := clear_lt (maskOf shift j) hmap
    simp only [syncRun, maskOf_succ]
    split
    · rename_i hnext
      obtain ⟨j', hlt', heq, hmap', hrun, hrest⟩ :=
        ih (len + sectorSize) hclear hnext (by omega)
      refine ⟨j', by omega, ?_, hmap', fun i hi hi' => ?_, fun i => ?_⟩
      · rw [heq, show j' - j = j' - (j + 1) + 1 by omega, Nat.succ_mul, Nat.add_assoc,
          Nat.add_comm sectorSize]
      · by_cases hij : i = j
        · rw [hij]
          exact hj
        · exact ((marked_clear hmap).1 (hrun i (by omega) hi')).1
      · rw [hrest, marked_clear hmap]
        constructor
        · rintro ⟨⟨hi, hne⟩, hout⟩
          exact ⟨hi, by omega⟩
        · rintro ⟨hi, hout⟩
          exact ⟨⟨hi, by omega⟩, by omega⟩
    · refine ⟨j + 1, by omega, ?_, hclear, fun i hi hi' => ?_, fun i => ?_⟩
      · simp
      · obtain rfl : i = j := by omega
        exact hj
      · rw [marked_clear hmap]
        constructor
        · rintro ⟨hi, hne⟩
          exact ⟨hi, by omega⟩
        · rintro ⟨hi, hout⟩
          exact ⟨hi, by omega⟩

theorem WrittenBack.of_none {page : Page} {sectorSize : Nat} {marked : Nat → Prop} {store : Store}
    (h : ∀ j, ¬marked j) : WrittenBack page sectorSize marked store store :=
  ⟨fun _ hi => absurd hi (h _), fun _ _ => rfl, Int.le_refl _⟩

/-- The sectors of a page lie inside it. -/
theorem lt_of_marked {shift groups map i : Nat} (hgroups : shift * groups = 8)
    (hmap : map < 2 ^ 8) (h : Marked shift map (i / (512 * shift))) : i < 4096 := by
  have hlt : i / (512 * shift) < groups := by
    refine Nat.lt_of_mul_lt_mul_left (a := shift) ?_
    rw [hgroups]
    exact marked_lt hmap h
  have hpos : 0 < 512 * shift := by
    have := Nat.pos_of_ne_zero fun h : shift = 0 => by simp [h] at hgroups
    omega
  have := (Nat.div_lt_iff_lt_mul hpos).1 hlt
  calc i < groups * (512 * shift) := this
    _ = 512 * (shift * groups) := by ac_rfl
    _ = 4096 := by rw [hgroups]

/-- `Page::sync` writes back the groups that are marked. -/
theorem syncLoop_spec (page : Page) {shift groups : Nat} (fuel : Nat)
    (hgroups : shift * groups = 8) :
    ∀ {map : Nat} (j : Nat) (store : Store), map < 2 ^ 8 → (∀ i < j, ¬Marked shift map i) →
      9 ≤ fuel + j →
      WrittenBack page (512 * shift) (Marked shift map) store
        (syncLoop page (512 * shift) shift fuel map (maskOf shift j) (j * (512 * shift)) store).1 := by
  have hshift : 0 < shift := Nat.pos_of_ne_zero fun h => by simp [h] at hgroups
  induction fuel with
  | zero =>
    intro map j store hmap hbelow hfuel
    refine .of_none fun i hi => hbelow i ?_ hi
    have := marked_lt hmap hi
    have := Nat.le_mul_of_pos_left i hshift
    omega
  | succ fuel ih =>
    intro map j store hmap hbelow hfuel
    simp only [syncLoop]
    split
    · rename_i hzero
      subst hzero
      exact .of_none fun i hi => hi (Nat.zero_and _)
    split
    · rename_i hskip
      rw [maskOf_succ, ← Nat.succ_mul]
      refine ih (j + 1) store hmap (fun i hi => ?_) (by omega)
      by_cases hij : i = j
      · rw [hij]
        exact not_not_intro hskip
      · exact hbelow i (by omega)
    · rename_i hj
      obtain ⟨j', hlt, heq, hmap', hrun, hrest⟩ :=
        syncRun_spec (512 * shift) hshift 0 hmap hj
          (show 9 ≤ 64 + j by omega)
      generalize syncRun (512 * shift) shift 64 map (maskOf shift j) 0 = r at heq hmap' hrest ⊢
      obtain ⟨map', mask', len⟩ := r
      simp only [Nat.zero_add, Prod.mk.injEq] at heq
      obtain ⟨rfl, rfl⟩ := heq
      obtain ⟨hend, hdata, hother, hsize⟩ := writeBack_spec page
        ((j' - j) * (512 * shift)) (j * (512 * shift)) store (Nat.le_refl _)
      rw [← Nat.add_mul, show j + (j' - j) = j' by omega] at hend hdata
      simp only
      rw [hend]
      have hback := ih j' (writeBack page ((j' - j) * (512 * shift))
          ((j' - j) * (512 * shift)) (j * (512 * shift)) store).1 hmap'
        (fun i hi hm => by
          obtain ⟨him, hout⟩ := (hrest i).1 hm
          exact hbelow i (by omega) him)
        (by omega)
      have hpos : 0 < 512 * shift := by omega
      refine ⟨fun i hi hlt' => ?_, fun x hx => ?_, Int.le_trans hsize hback.size_le⟩
      · by_cases hin : j ≤ i / (512 * shift) ∧ i / (512 * shift) < j'
        · rw [hback.other]
          · exact hdata i ((Nat.le_div_iff_mul_le hpos).1 hin.1)
              ((Nat.div_lt_iff_lt_mul hpos).1 hin.2)
          · rintro k - hk heq
            obtain rfl : i = k := by omega
            exact ((hrest _).1 hk).2 hin
        · exact hback.written i ((hrest _).2 ⟨hi, hin⟩) hlt'
      · rw [hback.other x fun i hi hm => hx i hi ((hrest _).1 hm).1]
        refine hother x ?_
        by_contra hin
        have hrange : j * (512 * shift) ≤ (x - page.offset).toNat ∧
            (x - page.offset).toNat < j' * (512 * shift) := by
          rw [← Nat.add_sub_cancel' (Nat.le_of_lt hlt), Nat.add_mul]
          omega
        have hm := hrun _ ((Nat.le_div_iff_mul_le hpos).2 hrange.1)
          ((Nat.div_lt_iff_lt_mul hpos).2 hrange.2)
        exact hx _ (lt_of_marked hgroups hmap hm) hm (by omega)

end Page

end EsOs.Kernel
