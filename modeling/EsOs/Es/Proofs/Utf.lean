import Mathlib
import EsOs.Es.Utf

/-!
# What the conversions of characters accept

The decoder takes every well formed sequence of up to four bytes, with a value of up to 21 bits. Up to
10FFFFh it agrees with the encoder and with UTF-8. UTF-16 is exact.
-/

namespace EsOs.Es

open EsOs.Lib

theorem utf8Lead_eq {c : Nat} (hc : c < 256) :
    utf8Lead c =
      if c < 0x80 then some (c, 0)
      else if c < 0xc0 then none
      else if c < 0xe0 then some (c - 0xc0, 1)
      else if c < 0xf0 then some (c - 0xe0, 2)
      else if c < 0xf8 then some (c - 0xf0, 3)
      else none := by
  have hall : ∀ c : Fin 256, utf8Lead c =
      if c.val < 0x80 then some (c.val, 0)
      else if c.val < 0xc0 then none
      else if c.val < 0xe0 then some (c.val - 0xc0, 1)
      else if c.val < 0xf0 then some (c.val - 0xe0, 2)
      else if c.val < 0xf8 then some (c.val - 0xf0, 3)
      else none := by decide +kernel
  exact hall ⟨c, hc⟩

theorem tail_iff (b : UInt8) : b.toNat &&& 0xc0 = 0x80 ↔ IsTail b := by
  have hall : ∀ c : Fin 256, (c.val &&& 0xc0 = 0x80 ↔ 0x80 ≤ c.val ∧ c.val < 0xc0) := by
    decide +kernel
  exact hall ⟨b.toNat, b.toNat_lt⟩

theorem shiftLeft_or (u k : Nat) {x : Nat} (hx : x < 2 ^ k) : u <<< k ||| x = u * 2 ^ k + x := by
  rw [Nat.shiftLeft_eq, ← Nat.mul_comm (2 ^ k) u, ← Nat.two_pow_add_eq_or_of_lt hx]

/-- One more byte of a sequence. -/
theorem utf8Rest_succ (len u : Nat) (bytes : List UInt8) :
    (∃ b rest, bytes = b :: rest ∧ IsTail b ∧
      utf8Rest (len + 1) u bytes = utf8Rest len (u * 64 + (b.toNat - 0x80)) rest) ∨
    (¬ (∃ b rest, bytes = b :: rest ∧ IsTail b) ∧ utf8Rest (len + 1) u bytes = none) := by
  cases bytes with
  | nil => exact .inr ⟨nofun, rfl⟩
  | cons b rest =>
    by_cases hb : IsTail b
    · refine .inl ⟨b, rest, rfl, hb, ?_⟩
      have hmask : b.toNat &&& 0x3f = b.toNat - 0x80 := by
        rw [show 0x3f = 2 ^ 6 - 1 from rfl, Nat.and_two_pow_sub_one_eq_mod]
        have := hb.1
        have := hb.2
        omega
      rw [utf8Rest]
      simp only [List.headD_cons, List.tail_cons, (tail_iff b).mpr hb, ne_eq, not_true, if_false]
      have hor : u <<< 6 ||| (b.toNat - 0x80) = u * 64 + (b.toNat - 0x80) :=
        shiftLeft_or u 6 (show b.toNat - 0x80 < 64 by have := hb.2; omega)
      rw [hmask, hor]
    · refine .inr ⟨?_, ?_⟩
      · rintro ⟨b', rest', heq, hb'⟩
        cases heq
        exact hb hb'
      · rw [utf8Rest]
        exact if_pos fun heq => hb ((tail_iff b).mp heq)

/-- The sequences that `utf8to32` takes, with their values. -/
inductive Decodes : Nat → List UInt8 → List UInt8 → Prop where
  | nul {bytes : List UInt8} : bytes.headD 0 = 0 → Decodes 0 bytes bytes
  | one {a : UInt8} {rest : List UInt8} : a ≠ 0 → a.toNat < 0x80 → Decodes a.toNat (a :: rest) rest
  | two {a b : UInt8} {u : Nat} {rest : List UInt8} : 0xc0 ≤ a.toNat → a.toNat < 0xe0 → IsTail b →
      u = (a.toNat - 0xc0) * 64 + (b.toNat - 0x80) → 0x80 ≤ u → Decodes u (a :: b :: rest) rest
  | three {a b c : UInt8} {u : Nat} {rest : List UInt8} : 0xe0 ≤ a.toNat → a.toNat < 0xf0 →
      IsTail b → IsTail c →
      u = ((a.toNat - 0xe0) * 64 + (b.toNat - 0x80)) * 64 + (c.toNat - 0x80) → 0x800 ≤ u →
      ¬ IsSurrogate u → Decodes u (a :: b :: c :: rest) rest
  | four {a b c d : UInt8} {u : Nat} {rest : List UInt8} : 0xf0 ≤ a.toNat → a.toNat < 0xf8 →
      IsTail b → IsTail c → IsTail d →
      u = (((a.toNat - 0xf0) * 64 + (b.toNat - 0x80)) * 64 + (c.toNat - 0x80)) * 64 +
        (d.toNat - 0x80) → 0x10000 ≤ u → Decodes u (a :: b :: c :: d :: rest) rest

/-- What is done with the value of a whole sequence. -/
def utf8Check (len : Nat) (r : Option (Nat × List UInt8)) : Option (Nat × List UInt8) :=
  match r with
  | none => none
  | some (u, utf8) =>
    if utf8Overlong u len then none
    else if 0xd800 ≤ u ∧ u ≤ 0xdfff then none
    else some (u, utf8)

theorem utf8to32_cons {a : UInt8} (ha : a ≠ 0) (bytes : List UInt8) :
    utf8to32 (a :: bytes) =
      match utf8Lead a.toNat with
      | none => none
      | some (u, len) => utf8Check len (utf8Rest len u bytes) := by
  have hne : a.toNat ≠ 0 := fun heq => ha (UInt8.toNat_inj.mp heq)
  rw [utf8to32]
  simp only [List.headD_cons, List.tail_cons, hne, ne_eq, not_false_eq_true, if_true]
  rfl

theorem utf8Check_eq_some {len u : Nat} {r : Option (Nat × List UInt8)} {rest : List UInt8} :
    utf8Check len r = some (u, rest) ↔
      r = some (u, rest) ∧ utf8Overlong u len = false ∧ ¬ IsSurrogate u := by
  unfold utf8Check IsSurrogate
  cases r with
  | none => simp
  | some r =>
    obtain ⟨u', rest'⟩ := r
    simp only
    split
    · rename_i hlong
      simp only [reduceCtorEq, Option.some.injEq, Prod.mk.injEq, false_iff]
      rintro ⟨⟨rfl, rfl⟩, hshort, -⟩
      rw [hlong] at hshort
      cases hshort
    · rename_i hlong
      split
      · rename_i hsurrogate
        simp only [reduceCtorEq, Option.some.injEq, Prod.mk.injEq, false_iff]
        rintro ⟨⟨rfl, rfl⟩, -, hno⟩
        exact hno hsurrogate
      · rename_i hsurrogate
        simp only [Option.some.injEq, Prod.mk.injEq]
        constructor
        · rintro ⟨rfl, rfl⟩
          exact ⟨⟨rfl, rfl⟩, by simpa using hlong, hsurrogate⟩
        · rintro ⟨h, -⟩
          exact h

theorem utf8Overlong_eq_false {u len : Nat} (hlen : len ≤ 3) :
    utf8Overlong u len = false ↔
      (u < 0x80 ∧ len = 0) ∨ (0x80 ≤ u ∧ u < 0x800 ∧ len = 1) ∨
        (0x800 ≤ u ∧ u < 0x10000 ∧ len = 2) ∨ 0x10000 ≤ u := by
  unfold utf8Overlong
  split
  · simp; omega
  · split
    · simp; omega
    · split
      · simp; omega
      · simp; omega

/-- The bytes behind the first one, all of them. -/
theorem utf8Rest_eq_some {len u v : Nat} {bytes rest : List UInt8} :
    utf8Rest (len + 1) u bytes = some (v, rest) ↔
      ∃ b behind, bytes = b :: behind ∧ IsTail b ∧
        utf8Rest len (u * 64 + (b.toNat - 0x80)) behind = some (v, rest) := by
  rcases utf8Rest_succ len u bytes with ⟨b, behind, rfl, hb, heq⟩ | ⟨hno, heq⟩
  · rw [heq]
    constructor
    · exact fun h => ⟨b, behind, rfl, hb, h⟩
    · rintro ⟨b', behind', hcons, -, h⟩
      cases hcons
      exact h
  · rw [heq]
    constructor
    · exact nofun
    · rintro ⟨b, behind, hcons, hb, -⟩
      exact absurd ⟨b, behind, hcons, hb⟩ hno

theorem utf8to32_nul {bytes : List UInt8} (h : bytes.headD 0 = 0) :
    utf8to32 bytes = some (0, bytes) := by
  unfold utf8to32
  rw [h]
  rfl

theorem utf8Rest_zero {u v : Nat} {bytes rest : List UInt8} :
    utf8Rest 0 u bytes = some (v, rest) ↔ u = v ∧ bytes = rest := by
  rw [utf8Rest, Option.some.injEq, Prod.mk.injEq]

/-- The sequences that `utf8to32` takes. -/
theorem utf8to32_iff {u : Nat} {bytes rest : List UInt8} :
    utf8to32 bytes = some (u, rest) ↔ Decodes u bytes rest := by
  constructor
  · intro h
    by_cases ha : bytes.headD 0 = 0
    · rw [utf8to32_nul ha] at h
      cases h
      exact .nul ha
    · cases bytes with
      | nil => exact absurd rfl ha
      | cons a bytes =>
        rw [List.headD_cons] at ha
        have hlt := a.toNat_lt
        rw [utf8to32_cons ha, utf8Lead_eq hlt] at h
        split at h
        · cases h
        rename_i v len hlead
        obtain ⟨hrest, hlong, hsurrogate⟩ := utf8Check_eq_some.mp h
        split at hlead
        · cases hlead
          obtain ⟨rfl, rfl⟩ := utf8Rest_zero.mp hrest
          exact .one ha ‹_›
        split at hlead
        · cases hlead
        split at hlead
        · obtain ⟨rfl, rfl⟩ := Prod.mk.inj (Option.some.inj hlead)
          obtain ⟨b, _, rfl, hb, hrest⟩ := utf8Rest_eq_some.mp hrest
          obtain ⟨hu, rfl⟩ := utf8Rest_zero.mp hrest
          rw [utf8Overlong_eq_false (by decide)] at hlong
          exact .two (by omega) (by omega) hb hu.symm (by omega)
        split at hlead
        · obtain ⟨rfl, rfl⟩ := Prod.mk.inj (Option.some.inj hlead)
          obtain ⟨b, _, rfl, hb, hrest⟩ := utf8Rest_eq_some.mp hrest
          obtain ⟨c, _, rfl, hc, hrest⟩ := utf8Rest_eq_some.mp hrest
          obtain ⟨hu, rfl⟩ := utf8Rest_zero.mp hrest
          rw [utf8Overlong_eq_false (by decide)] at hlong
          exact .three (by omega) (by omega) hb hc hu.symm (by omega) hsurrogate
        split at hlead
        · obtain ⟨rfl, rfl⟩ := Prod.mk.inj (Option.some.inj hlead)
          obtain ⟨b, _, rfl, hb, hrest⟩ := utf8Rest_eq_some.mp hrest
          obtain ⟨c, _, rfl, hc, hrest⟩ := utf8Rest_eq_some.mp hrest
          obtain ⟨d, _, rfl, hd, hrest⟩ := utf8Rest_eq_some.mp hrest
          obtain ⟨hu, rfl⟩ := utf8Rest_zero.mp hrest
          rw [utf8Overlong_eq_false (by decide)] at hlong
          exact .four (by omega) (by omega) hb hc hd hu.symm (by omega)
        · cases hlead
  · intro h
    cases h with
    | nul h0 => exact utf8to32_nul h0
    | @one a _ ha hlt =>
      rw [utf8to32_cons ha, utf8Lead_eq (by omega), if_pos hlt]
      refine utf8Check_eq_some.mpr ⟨rfl, ?_, fun hs => ?_⟩
      · rw [utf8Overlong_eq_false (by decide)]
        omega
      · have := hs.1
        omega
    | @two a b _ _ hlo hhi hb hu hlow =>
      have hb' := hb
      obtain ⟨hb1, hb2⟩ := hb'
      have ha : a ≠ 0 := by
        rintro rfl
        exact absurd hlo (by decide)
      rw [utf8to32_cons ha, utf8Lead_eq (by omega), if_neg (by omega), if_neg (by omega),
        if_pos hhi]
      refine utf8Check_eq_some.mpr ⟨utf8Rest_eq_some.mpr ⟨b, _, rfl, hb, ?_⟩, ?_, fun hs => ?_⟩
      · exact utf8Rest_zero.mpr ⟨hu.symm, rfl⟩
      · rw [utf8Overlong_eq_false (by decide)]
        omega
      · have := hs.1
        omega
    | @three a b c _ _ hlo hhi hb hc hu hlow hs =>
      have hb' := hb
      obtain ⟨hb1, hb2⟩ := hb'
      have hc' := hc
      obtain ⟨hc1, hc2⟩ := hc'
      have ha : a ≠ 0 := by
        rintro rfl
        exact absurd hlo (by decide)
      rw [utf8to32_cons ha, utf8Lead_eq (by omega), if_neg (by omega), if_neg (by omega),
        if_neg (by omega), if_pos hhi]
      refine utf8Check_eq_some.mpr ⟨utf8Rest_eq_some.mpr ⟨b, _, rfl, hb,
        utf8Rest_eq_some.mpr ⟨c, _, rfl, hc, ?_⟩⟩, ?_, hs⟩
      · exact utf8Rest_zero.mpr ⟨hu.symm, rfl⟩
      · rw [utf8Overlong_eq_false (by decide)]
        omega
    | @four a b c d _ _ hlo hhi hb hc hd hu hlow =>
      have ha : a ≠ 0 := by
        rintro rfl
        exact absurd hlo (by decide)
      rw [utf8to32_cons ha, utf8Lead_eq (by omega), if_neg (by omega), if_neg (by omega),
        if_neg (by omega), if_neg (by omega), if_pos hhi]
      refine utf8Check_eq_some.mpr ⟨utf8Rest_eq_some.mpr ⟨b, _, rfl, hb,
        utf8Rest_eq_some.mpr ⟨c, _, rfl, hc, utf8Rest_eq_some.mpr ⟨d, _, rfl, hd, ?_⟩⟩⟩, ?_,
        fun hs => ?_⟩
      · exact utf8Rest_zero.mpr ⟨hu.symm, rfl⟩
      · rw [utf8Overlong_eq_false (by decide)]
        omega
      · have := hs.2
        omega

section Encode

theorem mul_or {x k : Nat} (hx : x < 2 ^ k) (a : Nat) : 2 ^ k * a ||| x = x + 2 ^ k * a := by
  rw [← Nat.two_pow_add_eq_or_of_lt hx, Nat.add_comm]

theorem tailByte_eq (v k : Nat) :
    UInt8.ofNat (0x80 ||| ((v >>> k) &&& 0x3f)) = UInt8.ofNat (v / 2 ^ k % 0x40 + 0x80) := by
  have hmask : v / 2 ^ k &&& 0x3f = v / 2 ^ k % 0x40 :=
    Nat.and_two_pow_sub_one_eq_mod (v / 2 ^ k) 6
  have hor : 0x80 ||| v / 2 ^ k % 0x40 = v / 2 ^ k % 0x40 + 0x80 :=
    mul_or (k := 6) (Nat.mod_lt _ (by decide)) 2
  rw [Nat.shiftRight_eq_div_pow, hmask, hor]

theorem leadByte_eq {v k i a : Nat} (hv : v / 2 ^ k < 2 ^ i) :
    UInt8.ofNat (2 ^ i * a ||| v >>> k) = UInt8.ofNat (v / 2 ^ k % 2 ^ i + 2 ^ i * a) := by
  rw [Nat.shiftRight_eq_div_pow, mul_or hv, Nat.mod_eq_of_lt hv]

theorem toNat_valid (c : Char) : c.toNat < 0x110000 ∧ ¬ IsSurrogate c.toNat :=
  isValidChar_iff.mp c.valid

theorem exists_char {u : Nat} (hlt : u < 0x110000) (hs : ¬ IsSurrogate u) :
    ∃ c : Char, c.toNat = u :=
  ⟨Char.ofNatAux u (isValidChar_iff.mpr ⟨hlt, hs⟩), rfl⟩

/-- The UTF-8 of a scalar value, by its length. -/
theorem utf8EncodeChar_eq (c : Char) :
    String.utf8EncodeChar c =
      if c.toNat < 0x80 then [UInt8.ofNat c.toNat]
      else if c.toNat < 0x800 then
        [UInt8.ofNat (c.toNat / 64 % 0x20 + 0xc0), UInt8.ofNat (c.toNat % 0x40 + 0x80)]
      else if c.toNat < 0x10000 then
        [UInt8.ofNat (c.toNat / 4096 % 0x10 + 0xe0), UInt8.ofNat (c.toNat / 64 % 0x40 + 0x80),
          UInt8.ofNat (c.toNat % 0x40 + 0x80)]
      else
        [UInt8.ofNat (c.toNat / 262144 % 0x08 + 0xf0), UInt8.ofNat (c.toNat / 4096 % 0x40 + 0x80),
          UInt8.ofNat (c.toNat / 64 % 0x40 + 0x80), UInt8.ofNat (c.toNat % 0x40 + 0x80)] := by
  unfold String.utf8EncodeChar
  simp only [Nat.lt_succ_iff.symm]
  rfl

/-- `utf32to8` writes the UTF-8 of a scalar value. -/
theorem utf32to8_char (c : Char) : utf32to8 c.toNat = some (String.utf8EncodeChar c) := by
  obtain ⟨hlt, hs⟩ := toNat_valid c
  rw [utf8EncodeChar_eq]
  unfold utf32to8
  rw [if_neg (show ¬ (0xd800 ≤ c.toNat ∧ c.toNat ≤ 0xdfff) from hs)]
  generalize c.toNat = v at *
  have hzero : UInt8.ofNat (0x80 ||| ((v >>> (6 * 0)) &&& 0x3f)) = UInt8.ofNat (v % 0x40 + 0x80) := by
    rw [tailByte_eq, Nat.mul_zero, Nat.pow_zero, Nat.div_one]
  have hone : UInt8.ofNat (0x80 ||| ((v >>> (6 * 1)) &&& 0x3f)) =
      UInt8.ofNat (v / 64 % 0x40 + 0x80) := tailByte_eq v 6
  split
  · rfl
  split
  · have hlead : UInt8.ofNat (0xc0 ||| v >>> 6) = UInt8.ofNat (v / 64 % 0x20 + 0xc0) :=
      leadByte_eq (k := 6) (i := 5) (a := 6) (show v / 64 < 32 by omega)
    rw [utf8Tail, utf8Tail, hzero, hlead]
  split
  · have hlead : UInt8.ofNat (0xe0 ||| v >>> 12) = UInt8.ofNat (v / 4096 % 0x10 + 0xe0) :=
      leadByte_eq (k := 12) (i := 4) (a := 14) (show v / 4096 < 16 by omega)
    rw [utf8Tail, utf8Tail, utf8Tail, hzero, hone, hlead]
  · have hlead : UInt8.ofNat (0xf0 ||| v >>> 18) = UInt8.ofNat (v / 262144 % 0x08 + 0xf0) :=
      leadByte_eq (k := 18) (i := 3) (a := 30) (show v / 262144 < 8 by omega)
    have htwo : UInt8.ofNat (0x80 ||| ((v >>> (6 * 2)) &&& 0x3f)) =
        UInt8.ofNat (v / 4096 % 0x40 + 0x80) := tailByte_eq v 12
    rw [utf8Tail, utf8Tail, utf8Tail, utf8Tail, hzero, hone, htwo, hlead]

theorem ofNat_toNat_eq {b : UInt8} {n : Nat} (h : b.toNat = n) : UInt8.ofNat n = b := by
  rw [← h, UInt8.ofNat_toNat]

theorem isTail_ofNat (n : Nat) : IsTail (UInt8.ofNat (n % 0x40 + 0x80)) := by
  unfold IsTail
  rw [UInt8.toNat_ofNat']
  omega

/-- Up to 10FFFFh `utf8to32` takes just the UTF-8 of the scalar values. -/
theorem decodes_iff {u : Nat} {bytes rest : List UInt8} :
    Decodes u bytes rest ∧ u < 0x110000 ↔
      ∃ c : Char, c.toNat = u ∧ Reads (String.utf8EncodeChar c) bytes rest := by
  constructor
  · rintro ⟨hdec, hlt⟩
    have hs : ¬ IsSurrogate u := by
      unfold IsSurrogate
      cases hdec with
      | nul => omega
      | one => omega
      | two _ _ hb => have := hb.2; omega
      | three _ _ _ _ _ _ hs => exact hs
      | four => omega
    obtain ⟨c, hc⟩ := exists_char hlt hs
    refine ⟨c, hc, ?_⟩
    rw [utf8EncodeChar_eq, hc]
    cases hdec with
    | nul h0 => exact .inr ⟨rfl, h0, rfl⟩
    | @one a _ ha hlow =>
      rw [if_pos hlow, UInt8.ofNat_toNat]
      exact .inl ⟨rfl, fun heq => ha (List.cons.inj heq).1⟩
    | @two a b _ _ hlo hhi hb hu hlow =>
      obtain ⟨hb1, hb2⟩ := hb
      rw [if_neg (by omega), if_pos (by omega), ofNat_toNat_eq (b := a) (by omega),
        ofNat_toNat_eq (b := b) (by omega)]
      exact .inl ⟨rfl, nofun⟩
    | @three a b c _ _ hlo hhi hb hc hu hlow hs =>
      obtain ⟨hb1, hb2⟩ := hb
      obtain ⟨hc1, hc2⟩ := hc
      rw [if_neg (by omega), if_neg (by omega), if_pos (by omega),
        ofNat_toNat_eq (b := a) (by omega), ofNat_toNat_eq (b := b) (by omega),
        ofNat_toNat_eq (b := c) (by omega)]
      exact .inl ⟨rfl, nofun⟩
    | @four a b c d _ _ hlo hhi hb hc hd hu hlow =>
      obtain ⟨hb1, hb2⟩ := hb
      obtain ⟨hc1, hc2⟩ := hc
      obtain ⟨hd1, hd2⟩ := hd
      rw [if_neg (by omega), if_neg (by omega), if_neg (by omega),
        ofNat_toNat_eq (b := a) (by omega), ofNat_toNat_eq (b := b) (by omega),
        ofNat_toNat_eq (b := c) (by omega), ofNat_toNat_eq (b := d) (by omega)]
      exact .inl ⟨rfl, nofun⟩
  · rintro ⟨c, rfl, hreads⟩
    obtain ⟨hlt, hs⟩ := toNat_valid c
    refine ⟨?_, hlt⟩
    rw [utf8EncodeChar_eq] at hreads
    generalize c.toNat = v at *
    split at hreads
    · rename_i hlow
      rcases hreads with ⟨rfl, hne⟩ | ⟨hzero, h0, rfl⟩
      · have hv : (UInt8.ofNat v).toNat = v := by
          rw [UInt8.toNat_ofNat']
          omega
        have hone : Decodes (UInt8.ofNat v).toNat (UInt8.ofNat v :: rest) rest :=
          .one (fun heq => hne (by rw [heq])) (by omega)
        rwa [hv] at hone
      · have hv : (UInt8.ofNat v).toNat = v := by
          rw [UInt8.toNat_ofNat']
          omega
        rw [(List.cons.inj hzero).1] at hv
        rw [← hv]
        exact .nul h0
    split at hreads
    · rcases hreads with ⟨rfl, -⟩ | ⟨hzero, -⟩
      · refine .two ?_ ?_ (isTail_ofNat _) ?_ (by omega)
        all_goals
          simp only [UInt8.toNat_ofNat']
          omega
      · exact absurd (congrArg List.length hzero) (by simp)
    split at hreads
    · rcases hreads with ⟨rfl, -⟩ | ⟨hzero, -⟩
      · refine .three ?_ ?_ (isTail_ofNat _) (isTail_ofNat _) ?_ (by omega) hs
        all_goals
          simp only [UInt8.toNat_ofNat']
          omega
      · exact absurd (congrArg List.length hzero) (by simp)
    · rcases hreads with ⟨rfl, -⟩ | ⟨hzero, -⟩
      · refine .four ?_ ?_ (isTail_ofNat _) (isTail_ofNat _) (isTail_ofNat _) ?_ (by omega)
        all_goals
          simp only [UInt8.toNat_ofNat']
          omega
      · exact absurd (congrArg List.length hzero) (by simp)

/-- `utf32to16` writes the UTF-16 of a scalar value. -/
theorem utf32to16_char (c : Char) : utf32to16 c.toNat = some (utf16EncodeChar c) := by
  obtain ⟨hlt, hs⟩ := toNat_valid c
  unfold utf32to16 utf16EncodeChar
  rw [if_neg (show ¬ (0xd800 ≤ c.toNat ∧ c.toNat ≤ 0xdfff) from hs)]
  generalize c.toNat = v at *
  split
  · rfl
  · have hhigh : 0xd800 ||| (v - 0x10000) / 0x400 = (v - 0x10000) / 0x400 + 0xd800 :=
      mul_or (k := 11) (show (v - 0x10000) / 0x400 < 2048 by omega) 27
    have hmask : (v - 0x10000) &&& 0x3ff = (v - 0x10000) % 0x400 :=
      Nat.and_two_pow_sub_one_eq_mod (v - 0x10000) 10
    have hlow : 0xdc00 ||| (v - 0x10000) % 0x400 = (v - 0x10000) % 0x400 + 0xdc00 :=
      mul_or (k := 10) (Nat.mod_lt _ (by decide)) 55
    rw [if_pos (by omega)]
    simp only
    have hshift : (v - 0x10000) >>> 10 = (v - 0x10000) / 0x400 := Nat.shiftRight_eq_div_pow _ 10
    rw [hshift, hmask, hhigh, hlow, Nat.add_comm, Nat.add_comm _ 0xdc00]

theorem ofNat_toNat_eq16 {w : UInt16} {n : Nat} (h : w.toNat = n) : UInt16.ofNat n = w := by
  rw [← h, UInt16.ofNat_toNat]

/-- A surrogate pair in the words of the source, and as the encoder makes it. -/
theorem pair_eq {w1 w2 : Nat} (h1 : 0xd800 ≤ w1) (h1' : w1 ≤ 0xdbff) (h2 : 0xdc00 ≤ w2)
    (h2' : w2 ≤ 0xdfff) :
    ((w1 &&& 0x03ff) <<< 10 ||| (w2 &&& 0x03ff)) + 0x10000 =
      (w1 - 0xd800) * 0x400 + (w2 - 0xdc00) + 0x10000 := by
  have hmask : ∀ w, w &&& 0x03ff = w % 0x400 := fun w => Nat.and_two_pow_sub_one_eq_mod w 10
  have hor : (w1 % 0x400) <<< 10 ||| w2 % 0x400 = w1 % 0x400 * 0x400 + w2 % 0x400 :=
    shiftLeft_or _ 10 (Nat.mod_lt _ (by decide))
  rw [hmask, hmask, hor]
  omega

/-- `utf16to32` takes just the UTF-16 of the scalar values. -/
theorem utf16to32_iff {u : Nat} {units rest : List UInt16} :
    utf16to32 units = some (u, rest) ↔
      ∃ c : Char, c.toNat = u ∧ Reads (utf16EncodeChar c) units rest := by
  constructor
  · intro h
    by_cases h0 : units.headD 0 = 0
    · unfold utf16to32 at h
      rw [h0] at h
      cases h
      exact ⟨Char.ofNat 0, rfl, .inr ⟨rfl, h0, rfl⟩⟩
    · cases units with
      | nil => exact absurd rfl h0
      | cons w1 units =>
        rw [List.headD_cons] at h0
        have hne : w1.toNat ≠ 0 := fun heq => h0 (UInt16.toNat_inj.mp heq)
        have hlt := w1.toNat_lt
        rw [utf16to32] at h
        simp only [List.headD_cons, List.tail_cons, hne, ne_eq, not_false_eq_true, if_true] at h
        split at h
        · cases h
          obtain ⟨c, hc⟩ := exists_char (u := w1.toNat) (by omega) (by unfold IsSurrogate; omega)
          refine ⟨c, hc, .inl ⟨?_, ?_⟩⟩
          · rw [utf16EncodeChar, hc, if_pos hlt, UInt16.ofNat_toNat]
            rfl
          · rw [utf16EncodeChar, hc, if_pos hlt, UInt16.ofNat_toNat]
            exact fun heq => h0 (List.cons.inj heq).1
        split at h
        · rename_i hsingle hhigh
          split at h
          · rename_i hlow
            cases units with
            | nil => exact absurd hlow.1 (by decide)
            | cons w2 units =>
              simp only [List.headD_cons, List.tail_cons] at h hlow
              have hlt2 := w2.toNat_lt
              rw [pair_eq (by omega) hhigh hlow.1 hlow.2] at h
              obtain ⟨hu, rfl⟩ := Prod.mk.inj (Option.some.inj h)
              obtain ⟨c, hc⟩ := exists_char (u := u) (by omega) (by unfold IsSurrogate; omega)
              refine ⟨c, hc, .inl ⟨?_, ?_⟩⟩
              · rw [utf16EncodeChar, hc, if_neg (by omega),
                  ofNat_toNat_eq16 (w := w1) (by omega), ofNat_toNat_eq16 (w := w2) (by omega)]
                rfl
              · rw [utf16EncodeChar, hc, if_neg (by omega)]
                exact fun heq => absurd (congrArg List.length heq) (by simp)
          · cases h
        · cases h
  · rintro ⟨c, rfl, hreads⟩
    obtain ⟨hlt, hs⟩ := toNat_valid c
    rw [utf16EncodeChar] at hreads
    unfold IsSurrogate at hs
    generalize c.toNat = v at *
    split at hreads
    · rename_i hlow
      have hv : (UInt16.ofNat v).toNat = v := by
        rw [UInt16.toNat_ofNat']
        omega
      rcases hreads with ⟨rfl, hne⟩ | ⟨hzero, h0, rfl⟩
      · have hv0 : v ≠ 0 := by
          rintro rfl
          exact hne rfl
        rw [utf16to32]
        simp only [List.cons_append, List.nil_append, List.headD_cons, List.tail_cons, hv, hv0, ne_eq,
          not_false_eq_true, if_true]
        rw [if_pos (by omega)]
      · rw [(List.cons.inj hzero).1] at hv
        unfold utf16to32
        rw [h0, ← hv]
        rfl
    · rcases hreads with ⟨rfl, -⟩ | ⟨hzero, -⟩
      · have hhigh : (UInt16.ofNat (0xd800 + (v - 0x10000) / 0x400)).toNat =
            0xd800 + (v - 0x10000) / 0x400 := by
          rw [UInt16.toNat_ofNat']
          omega
        have hlow : (UInt16.ofNat (0xdc00 + (v - 0x10000) % 0x400)).toNat =
            0xdc00 + (v - 0x10000) % 0x400 := by
          rw [UInt16.toNat_ofNat']
          omega
        generalize UInt16.ofNat (0xd800 + (v - 0x10000) / 0x400) = w1 at *
        generalize UInt16.ofNat (0xdc00 + (v - 0x10000) % 0x400) = w2 at *
        have hne : w1.toNat ≠ 0 := by omega
        rw [utf16to32]
        simp only [List.cons_append, List.nil_append, List.headD_cons, List.tail_cons, hne, ne_eq,
          not_false_eq_true, if_true]
        rw [if_neg (by omega), if_pos (by omega), if_pos (by omega),
          pair_eq (by omega) (by omega) (by omega) (by omega)]
        rw [Option.some.injEq, Prod.mk.injEq]
        exact ⟨by omega, rfl⟩
      · exact absurd (congrArg List.length hzero) (by simp)

end Encode

theorem utf16_exact (units : List UInt16) : Utf16Exact units where
  accepts _ _ := utf16to32_iff
  back u rest h := by
    obtain ⟨c, rfl, hreads⟩ := utf16to32_iff.mp h
    exact ⟨_, utf32to16_char c, hreads⟩

theorem scalar_exact (c : Char) : ScalarExact c where
  utf8 := ⟨_, utf32to8_char c, fun _ _ hreads =>
    utf8to32_iff.mpr (decodes_iff.mpr ⟨c, rfl, hreads⟩).1⟩
  utf16 := ⟨_, utf32to16_char c, fun _ _ hreads => utf16to32_iff.mpr ⟨c, rfl, hreads⟩⟩

/-- The bytes of a value above 10FFFFh. -/
theorem aboveUnicode_iff {bytes : List UInt8} :
    AboveUnicode bytes ↔ ∃ u rest, Decodes u bytes rest ∧ 0x110000 ≤ u := by
  constructor
  · rintro ⟨a, b, c, d, rest, rfl, hb, hc, hd, hlead⟩
    have hb1 := hb.1
    refine ⟨_, rest, .four ?_ ?_ hb hc hd rfl ?_, ?_⟩
    all_goals omega
  · rintro ⟨u, rest, hdec, hu⟩
    cases hdec with
    | nul => omega
    | one => omega
    | two _ _ hb => have := hb.2; omega
    | three _ _ hb hc => have := hb.2; have := hc.2; omega
    | @four a b c d _ _ hlo hhi hb hc hd heq =>
      have hb2 := hb.2
      have hc2 := hc.2
      have hd2 := hd.2
      exact ⟨a, b, c, d, rest, rfl, hb, hc, hd, by omega⟩

/-- The conversions between UTF-8, UTF-16 and UTF-32 are exact, except for the bytes of values above
    10FFFFh, which `utf8to32` takes. -/
theorem utf_exact_iff (bytes : List UInt8) (units : List UInt16) :
    (Utf8Exact bytes ∧ Utf16Exact units ∧ ∀ c, ScalarExact c) ↔ ¬ AboveUnicode bytes := by
  rw [aboveUnicode_iff]
  constructor
  · rintro ⟨hexact, -⟩ ⟨u, rest, hdec, hu⟩
    obtain ⟨c, rfl, -⟩ := (hexact.accepts u rest).mp (utf8to32_iff.mpr hdec)
    have := (toNat_valid c).1
    omega
  · intro hbelow
    have hlt : ∀ u rest, utf8to32 bytes = some (u, rest) → Decodes u bytes rest ∧ u < 0x110000 :=
      fun u rest h => ⟨utf8to32_iff.mp h, Nat.lt_of_not_le fun hu =>
        hbelow ⟨u, rest, utf8to32_iff.mp h, hu⟩⟩
    refine ⟨⟨fun u rest => ⟨fun h => decodes_iff.mp (hlt u rest h), fun h => ?_⟩, fun u rest h => ?_⟩,
      utf16_exact units, scalar_exact⟩
    · exact utf8to32_iff.mpr (decodes_iff.mpr h).1
    · obtain ⟨c, rfl, hreads⟩ := decodes_iff.mp (hlt u rest h)
      exact ⟨_, utf32to8_char c, hreads⟩

/-- `F4h 90h 80h 80h` is read as 110000h. -/
theorem utf8_not_exact : ¬ ∀ bytes, Utf8Exact bytes := by
  intro h
  obtain ⟨seq, hseq, -⟩ := (h [0xf4, 0x90, 0x80, 0x80]).back 0x110000 [] (by decide)
  have hnull : utf32to8 0x110000 = none := rfl
  rw [hnull] at hseq
  cases hseq

end EsOs.Es
