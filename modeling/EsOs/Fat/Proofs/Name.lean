import EsOs.Fat.Name
import EsOs.Es.Proofs.Utf
import Mathlib.Data.List.TakeWhile

/-!
# Which names are converted

`utf8toutf16` follows a string character by character. It is right up to a value that has no UTF-16,
and up to a surrogate pair in the last two units of the array.
-/

namespace EsOs.Fat

open EsOs.Es EsOs.Lib

variable {n v fuel : Nat} {utf8 rest : List UInt8} {units : List UInt16} {c : Char}
  {text : List Char}

theorem utf16Encode_cons (c : Char) (text : List Char) :
    utf16Encode (c :: text) = utf16EncodeChar c ++ utf16Encode text :=
  rfl

theorem utf16Encode_append (text text' : List Char) :
    utf16Encode (text ++ text') = utf16Encode text ++ utf16Encode text' :=
  List.flatMap_append

theorem utf16EncodeChar_pos (c : Char) : 0 < (utf16EncodeChar c).length := by
  rw [utf16EncodeChar_length]
  split <;> decide

/-- A character of a string, which is not a terminator, is read. -/
theorem utf8to32_encode (h : 0 ∉ String.utf8EncodeChar c ++ rest) :
    utf8to32 (String.utf8EncodeChar c ++ rest) = some (c.toNat, rest) := by
  refine utf8to32_iff.mpr (decodes_iff.mpr ⟨c, rfl, .inl ⟨rfl, fun heq => h ?_⟩⟩).1
  rw [heq]
  exact .head _

/-- What is read from a string that goes on is not a terminator. -/
theorem reads_of_string {bytes : List UInt8} (h : 0 ∉ bytes) (hne : bytes ≠ [])
    (hreads : Reads (String.utf8EncodeChar c) bytes rest) :
    bytes = String.utf8EncodeChar c ++ rest ∧ c ≠ Char.ofNat 0 := by
  rcases hreads with ⟨heq, hzero⟩ | ⟨-, h0, -⟩
  · refine ⟨heq, ?_⟩
    rintro rfl
    exact hzero rfl
  · cases bytes with
    | nil => exact absurd rfl hne
    | cons b bytes =>
      rw [List.headD_cons] at h0
      exact absurd (h0 ▸ .head _) h

theorem encode_ne_nil (c : Char) : String.utf8EncodeChar c ≠ [] :=
  String.utf8EncodeChar_ne_nil

/-- No string begins with two characters. -/
theorem encode_unique {c' : Char} {rest' : List UInt8} (h : 0 ∉ String.utf8EncodeChar c ++ rest)
    (heq : String.utf8EncodeChar c ++ rest = String.utf8EncodeChar c' ++ rest') :
    c = c' ∧ rest = rest' := by
  have hread := utf8to32_encode h
  rw [heq, utf8to32_encode (heq ▸ h)] at hread
  obtain ⟨hc, hrest⟩ := Prod.mk.inj (Option.some.inj hread)
  exact ⟨Char.ext (UInt32.toNat_inj.mp hc.symm), hrest.symm⟩

theorem not_aboveUnicode_encode (h : 0 ∉ String.utf8EncodeChar c ++ rest) :
    ¬ AboveUnicode (String.utf8EncodeChar c ++ rest) := by
  intro habove
  obtain ⟨u, rest', hdec, hu⟩ := aboveUnicode_iff.mp habove
  have hread := utf8to32_iff.mpr hdec
  rw [utf8to32_encode h] at hread
  have := (toNat_valid c).1
  cases hread
  omega

/-- Whether a string that begins with a character overruns the array, by what is behind it. -/
theorem overruns_cons (h : 0 ∉ String.utf8EncodeChar c ++ rest) (hn : n < 255) :
    Overruns n (String.utf8EncodeChar c ++ rest) ↔
      (rest = [] ∧ 0x10000 ≤ c.toNat ∧ n = 254) ∨
        (n + (utf16EncodeChar c).length < 255 ∧ Overruns (n + (utf16EncodeChar c).length) rest) := by
  constructor
  · rintro ⟨text, rest', heq, hlen, hbad⟩
    cases text with
    | nil =>
      rw [List.flatMap_nil, List.nil_append] at heq
      rw [utf16Encode, List.flatMap_nil, List.length_nil, Nat.add_zero] at hbad
      rcases hbad with habove | ⟨c', rfl, hpair, hlast⟩
      · exact absurd (heq ▸ habove) (not_aboveUnicode_encode h)
      · obtain ⟨rfl, rfl⟩ := encode_unique h (heq.trans (List.append_nil _).symm)
        exact .inl ⟨rfl, hpair, hlast⟩
    | cons c' text =>
      rw [List.flatMap_cons, List.append_assoc] at heq
      obtain ⟨rfl, rfl⟩ := encode_unique h heq
      rw [utf16Encode_cons, List.length_append, ← Nat.add_assoc] at hlen hbad
      exact .inr ⟨by omega, text, rest', rfl, hlen, hbad⟩
  · rintro (⟨rfl, hpair, hlast⟩ | ⟨-, text, rest', rfl, hlen, hbad⟩)
    · refine ⟨[], _, rfl, hn, .inr ⟨c, List.append_nil _, hpair, hlast⟩⟩
    · refine ⟨c :: text, rest', by rw [List.flatMap_cons, List.append_assoc], ?_, ?_⟩
      · rwa [utf16Encode_cons, List.length_append, ← Nat.add_assoc]
      · rwa [utf16Encode_cons, List.length_append, ← Nat.add_assoc]

/-- Where the string has nothing that can be read, it does not overrun. -/
theorem not_overruns_of_unread (h : 0 ∉ utf8) (hread : utf8to32 utf8 = none) : ¬ Overruns n utf8 := by
  rintro ⟨text, rest, rfl, -, hbad⟩
  cases text with
  | nil =>
    rw [List.flatMap_nil, List.nil_append] at hread h
    rcases hbad with habove | ⟨c, rfl, -⟩
    · obtain ⟨u, rest', hdec, -⟩ := aboveUnicode_iff.mp habove
      rw [utf8to32_iff.mpr hdec] at hread
      cases hread
    · rw [← List.append_nil (String.utf8EncodeChar c)] at h hread
      have hc := utf8to32_encode h
      rw [hread] at hc
      cases hc
  | cons c text =>
    rw [List.flatMap_cons, List.append_assoc] at hread h
    rw [utf8to32_encode h] at hread
    cases hread

/-- No value that is not set is more than two units. -/
theorem utf32to16_length {u : Nat} (h : utf32to16 u = some units) : units.length ≤ 2 := by
  unfold utf32to16 at h
  split at h
  · cases h
  split at h
  · cases h
    exact Nat.le_succ _
  split at h
  · cases h
    exact Nat.le_refl _
  · cases h

theorem not_overruns_nil : ¬ Overruns n [] := by
  rintro ⟨text, rest, heq, -, hbad⟩
  obtain ⟨-, rfl⟩ := List.append_eq_nil_iff.mp heq.symm
  rcases hbad with ⟨a, b, c, d, rest, hcons, -⟩ | ⟨c, hc, -⟩
  · cases hcons
  · exact encode_ne_nil c hc.symm

theorem headD_ne_zero {bytes : List UInt8} (h : 0 ∉ bytes) : bytes.headD 0 ≠ 0 ↔ bytes ≠ [] := by
  cases bytes with
  | nil => simp
  | cons b bytes =>
    rw [List.headD_cons]
    simp only [ne_eq, reduceCtorEq, not_false_eq_true, iff_true]
    rintro rfl
    exact h (.head _)

/-- A read passes at least one byte of a string. -/
theorem exists_of_read {u : Nat} (h : 0 ∉ utf8) (hne : utf8 ≠ [])
    (hread : utf8to32 utf8 = some (u, rest)) : rest.length < utf8.length ∧ 0 ∉ rest := by
  cases utf8to32_iff.mp hread with
  | nul h0 => exact absurd h0 ((headD_ne_zero h).mpr hne)
  | one => exact ⟨by simp, fun hmem => h (.tail _ hmem)⟩
  | two => exact ⟨by simp only [List.length_cons]; omega, fun hmem => h (.tail _ (.tail _ hmem))⟩
  | three =>
    exact ⟨by simp only [List.length_cons]; omega, fun hmem => h (.tail _ (.tail _ (.tail _ hmem)))⟩
  | four =>
    exact ⟨by simp only [List.length_cons]; omega,
      fun hmem => h (.tail _ (.tail _ (.tail _ (.tail _ hmem))))⟩

theorem utf32to16_above {u : Nat} (hu : 0x110000 ≤ u) : utf32to16 u = none := by
  unfold utf32to16
  rw [if_neg (by omega), if_neg (by omega), if_neg (by omega)]

theorem storeUnits_above {u : Nat} {utf16 : Option (List UInt16)} (hu : 0x110000 ≤ u) :
    storeUnits u utf16 = some none := by
  unfold storeUnits
  rw [utf32to16_above hu]

theorem storeUnits_char (hlen : units.length < 255) :
    storeUnits c.toNat (some units) = some (some (units ++ utf16EncodeChar c)) := by
  have htwo := utf32to16_length (utf32to16_char c)
  unfold storeUnits
  rw [utf32to16_char]
  exact if_pos (by omega)

theorem storeUnits_ne_none (hlen : units.length < 255) : storeUnits v (some units) ≠ none := by
  unfold storeUnits
  cases hjunk : utf32to16 v with
  | none => exact nofun
  | some junk =>
    have := utf32to16_length hjunk
    simp only
    rw [if_pos (by omega)]
    exact nofun

/-- Nothing can be read: the loop ends and throws. -/
theorem convertLoop_unread (hread : utf8to32 utf8 = none) (hlen : units.length < 255) :
    convertLoop v (fuel + 1) utf8 (some units) = some .enametoolong := by
  rw [convertLoop, hread]
  simp only
  split
  · rename_i hstore
    exact absurd hstore (storeUnits_ne_none hlen)
  · rfl

/-- A turn that reads a character. -/
theorem convertLoop_char (hread : utf8to32 utf8 = some (c.toNat, rest)) (hlen : units.length < 255) :
    convertLoop v (fuel + 1) utf8 (some units) =
      if rest.headD 0 ≠ 0 ∧ (units ++ utf16EncodeChar c).length < 255 then
        convertLoop v fuel rest (some (units ++ utf16EncodeChar c))
      else some (terminate rest (some (units ++ utf16EncodeChar c))) := by
  rw [convertLoop, hread]
  simp only [storeUnits_char hlen, Option.mem_def, Option.some.injEq, forall_eq']

/-- A turn that reads a value above 10FFFFh: the pointer becomes null. -/
theorem convertLoop_above {u : Nat} {utf16 : Option (List UInt16)}
    (hread : utf8to32 utf8 = some (u, rest)) (hu : 0x110000 ≤ u) :
    convertLoop v (fuel + 1) utf8 utf16 =
      if rest.headD 0 ≠ 0 then convertLoop v fuel rest none else some (terminate rest none) := by
  rw [convertLoop, hread]
  simp only [storeUnits_above hu, Option.mem_def, reduceCtorEq, false_imp_iff, implies_true, and_true]

/-- Behind a null pointer, and with a zero in the variable that was not set, something is written
    through it. -/
theorem convertLoop_null (h : 0 ∉ utf8) (hne : utf8 ≠ []) (hfuel : utf8.length < fuel) :
    convertLoop 0 fuel utf8 none = some .wild := by
  induction fuel generalizing utf8 with
  | zero => exact absurd hfuel (Nat.not_lt_zero _)
  | succ fuel ih =>
    cases hread : utf8to32 utf8 with
    | none =>
      rw [convertLoop, hread]
      rfl
    | some r =>
      obtain ⟨u, rest⟩ := r
      obtain ⟨hshort, h0⟩ := exists_of_read h hne hread
      by_cases hu : u < 0x110000
      · obtain ⟨c, rfl, -⟩ := decodes_iff.mp ⟨utf8to32_iff.mp hread, hu⟩
        rw [convertLoop, hread]
        simp only [storeUnits, utf32to16_char]
      · rw [convertLoop_above hread (by omega)]
        split
        · rename_i hrest
          exact ih h0 ((headD_ne_zero h0).mp hrest) (by omega)
        · rename_i hrest
          rw [terminate, if_neg hrest]

/-- What the conversion of the rest of a string may give, behind `text`. -/
def ConvertedFrom (text : List Char) (utf8 : List UInt8) (r : Option Conversion) : Prop :=
  r = some .enametoolong ∨
    ∃ more : List Char, utf8 = more.flatMap String.utf8EncodeChar ∧
      (utf16Encode (text ++ more)).length ≤ 255 ∧ r = some (.units (utf16Encode (text ++ more)))

theorem convertedFrom_cons {r : Option Conversion} (h : 0 ∉ String.utf8EncodeChar c ++ rest) :
    ConvertedFrom text (String.utf8EncodeChar c ++ rest) r ↔ ConvertedFrom (text ++ [c]) rest r := by
  unfold ConvertedFrom
  refine or_congr_right ⟨?_, ?_⟩
  · rintro ⟨more, heq, hlen, hr⟩
    cases more with
    | nil => exact absurd (List.append_eq_nil_iff.mp heq).1 (encode_ne_nil c)
    | cons c' more =>
      obtain ⟨rfl, rfl⟩ := encode_unique h heq
      refine ⟨more, rfl, ?_, ?_⟩
      · rwa [List.append_assoc]
      · rwa [List.append_assoc]
  · rintro ⟨more, rfl, hlen, hr⟩
    refine ⟨c :: more, rfl, ?_, ?_⟩
    · rwa [List.append_assoc] at hlen
    · rwa [List.append_assoc] at hr

theorem zero_notMem_encodeChar (hc : c ≠ Char.ofNat 0) : 0 ∉ utf16EncodeChar c := by
  obtain ⟨hlt, -⟩ := toNat_valid c
  have hne : c.toNat ≠ 0 := fun heq => hc (Char.ext (UInt32.toNat_inj.mp heq))
  intro hmem
  unfold utf16EncodeChar at hmem
  split at hmem
  · have := congrArg UInt16.toNat (List.mem_singleton.mp hmem)
    simp only [UInt16.toNat_ofNat', UInt16.toNat_ofNat] at this
    omega
  · rcases List.mem_cons.mp hmem with heq | hmem
    · have := congrArg UInt16.toNat heq
      simp only [UInt16.toNat_ofNat', UInt16.toNat_ofNat] at this
      omega
    · have := congrArg UInt16.toNat (List.mem_singleton.mp hmem)
      simp only [UInt16.toNat_ofNat', UInt16.toNat_ofNat] at this
      omega

theorem untilNul_eq (h : 0 ∉ units) : untilNul units = units :=
  List.takeWhile_eq_self_iff.mpr fun u hu => decide_eq_true fun heq => h (heq ▸ hu)

/-- The loop from the rest of a string on. -/
theorem convertLoop_iff (h : 0 ∉ utf8) (hne : utf8 ≠ []) (hfuel : utf8.length < fuel)
    (hlen : (utf16Encode text).length < 255) (htext : 0 ∉ utf16Encode text) :
    (∀ v, ConvertedFrom text utf8 (convertLoop v fuel utf8 (some (utf16Encode text)))) ↔
      ¬ Overruns (utf16Encode text).length utf8 := by
  induction fuel generalizing utf8 text with
  | zero => exact absurd hfuel (Nat.not_lt_zero _)
  | succ fuel ih =>
    cases hread : utf8to32 utf8 with
    | none =>
      refine iff_of_true (fun v => .inl ?_) (not_overruns_of_unread h hread)
      exact convertLoop_unread hread hlen
    | some r =>
      obtain ⟨u, rest⟩ := r
      obtain ⟨hshort, h0⟩ := exists_of_read h hne hread
      by_cases hu : u < 0x110000
      · obtain ⟨c, rfl, hreads⟩ := decodes_iff.mp ⟨utf8to32_iff.mp hread, hu⟩
        obtain ⟨rfl, hc⟩ := reads_of_string h hne hreads
        have hafter : utf16Encode text ++ utf16EncodeChar c = utf16Encode (text ++ [c]) := by
          rw [utf16Encode_append, utf16Encode_cons]
          exact congrArg _ (List.append_nil _).symm
        have hlenafter : (utf16Encode (text ++ [c])).length =
            (utf16Encode text).length + (utf16EncodeChar c).length := by
          rw [← hafter, List.length_append]
        have hzero : 0 ∉ utf16Encode (text ++ [c]) := by
          rw [← hafter, List.mem_append]
          exact not_or.mpr ⟨htext, zero_notMem_encodeChar hc⟩
        simp only [convertLoop_char hread hlen, convertedFrom_cons h, overruns_cons h hlen, hafter,
          ← hlenafter]
        by_cases hrest : rest = []
        · subst hrest
          simp only [List.headD_nil, ne_eq, not_true_eq_false, false_and, if_false, terminate,
            true_and, not_overruns_nil, and_false, or_false, untilNul_eq hzero]
          split
          · rename_i hfits
            have hwidth := utf16EncodeChar_length c
            rw [hlenafter] at hfits
            refine iff_of_true (fun _ => .inr ⟨[], rfl, ?_, ?_⟩) ?_
            · rw [List.append_nil, hlenafter]
              omega
            · rw [List.append_nil]
            · split at hwidth <;> omega
          · rename_i hover
            have hwidth := utf16EncodeChar_length c
            rw [hlenafter] at hover
            refine iff_of_false (fun hall => ?_) ?_
            · rcases hall 0 with heq | ⟨_, _, _, heq⟩
              · cases heq
              · cases heq
            · split at hwidth <;> omega
        · by_cases hmore : (utf16Encode (text ++ [c])).length < 255
          · simp only [(headD_ne_zero h0).mpr hrest, ne_eq, not_false_eq_true, hmore, and_self,
              if_true, hrest, false_and, true_and, false_or]
            exact ih h0 hrest (by omega) hmore hzero
          · refine iff_of_true (fun v => .inl ?_) ?_
            · rw [if_neg fun hand => hmore hand.2, terminate, if_pos ((headD_ne_zero h0).mpr hrest)]
            · rintro (⟨hnil, -⟩ | ⟨hlt, -⟩)
              · exact hrest hnil
              · exact hmore hlt
      · refine iff_of_false (fun hall => ?_) (not_not.mpr ⟨[], utf8, rfl, hlen, .inl ?_⟩)
        · have hwild : convertLoop 0 (fuel + 1) utf8 (some (utf16Encode text)) = some .wild := by
            rw [convertLoop_above hread (by omega)]
            split
            · rename_i hrest
              exact convertLoop_null h0 ((headD_ne_zero h0).mp hrest) (by omega)
            · rename_i hrest
              rw [terminate, if_neg hrest]
          rcases hall 0 with heq | ⟨_, _, _, heq⟩
          · rw [hwild] at heq
            cases heq
          · rw [hwild] at heq
            cases heq
        · exact aboveUnicode_iff.mpr ⟨u, rest, utf8to32_iff.mp hread, by omega⟩

/-- Whatever a variable has that was not set, `utf8toutf16` throws or gives the UTF-16 of a string and
    writes into the array only, exactly when the string does not overrun. -/
theorem utf8toutf16_iff (h : 0 ∉ utf8) :
    (∀ utf32, Converted utf8 (utf8toutf16 utf32 utf8)) ↔ ¬ Overruns 0 utf8 := by
  by_cases hne : utf8 = []
  · subst hne
    exact iff_of_true (fun _ => .inr ⟨[], rfl, Nat.zero_le _, rfl⟩) not_overruns_nil
  · have hstart : 0 ∉ utf16Encode [] := List.not_mem_nil
    exact convertLoop_iff h hne (Nat.lt_succ_self _) (by decide) hstart

/-- A name of two letters. -/
theorem utf8toutf16_iff_ab :
    (∀ utf32, Converted [0x61, 0x62] (utf8toutf16 utf32 [0x61, 0x62])) ↔ ¬ Overruns 0 [0x61, 0x62] :=
  utf8toutf16_iff (by decide)

/-- A single value above 10FFFFh is written through a null pointer. -/
theorem utf8toutf16_not_converted :
    ¬ ∀ utf8 : List UInt8, 0 ∉ utf8 → ∀ utf32, Converted utf8 (utf8toutf16 utf32 utf8) := by
  intro h
  have hwild : utf8toutf16 0 [0xf4, 0x90, 0x80, 0x80] = some .wild := by decide
  rcases h [0xf4, 0x90, 0x80, 0x80] (by decide) 0 with heq | ⟨_, _, _, heq⟩
  · rw [hwild] at heq
    cases heq
  · rw [hwild] at heq
    cases heq

end EsOs.Fat
