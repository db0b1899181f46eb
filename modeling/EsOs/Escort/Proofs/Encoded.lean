import Mathlib
import EsOs.Escort.Proofs.Grammar
import EsOs.Escort.Proofs.Resolve

/-!
# Percent signs that were read

Every loop over the characters of a URL stops at a percent sign that does not stand before two
hexadecimal digits, so a string that was read to its end has none.
-/

namespace EsOs.Escort

open Digits Address

/-- The percent signs between two positions stand before two digits. -/
def EncodedIn (url : U16String) (pos next : Nat) : Prop :=
  ∀ i, pos ≤ i → i < next → charAt url i = '%'.toNat →
    isHexDigit (charAt url (i + 1)) ≠ 0 ∧ isHexDigit (charAt url (i + 2)) ≠ 0

namespace EncodedIn

variable {url : U16String} {pos mid next : Nat}

theorem refl : EncodedIn url pos pos :=
  fun _ hle hlt => absurd hlt (Nat.not_lt.mpr hle)

theorem trans (h : EncodedIn url pos mid) (h' : EncodedIn url mid next) :
    EncodedIn url pos next := by
  intro i hi hlt
  by_cases hmid : i < mid
  · exact h i hi hmid
  · exact h' i (Nat.le_of_not_lt hmid) hlt

theorem char (h : charAt url pos ≠ '%'.toNat) : EncodedIn url pos (pos + 1) := by
  intro i hi hlt hc
  obtain rfl : i = pos := by omega
  exact absurd hc h

end EncodedIn

theorem not_percent_of_isHexDigit {c : Nat} (h : isHexDigit c ≠ 0) : c ≠ '%'.toNat := by
  rintro rfl
  exact h (by decide)

/-- What `one` reads has no other percent signs. -/
def Encoder (one : U16String → Nat → Option Nat) : Prop :=
  ∀ url pos next, one url pos = some next → EncodedIn url pos next

theorem parsePercentEncoded_encoder : Encoder parsePercentEncoded := by
  intro url pos next h
  obtain ⟨rfl, -, hone, htwo, -⟩ := parsePercentEncoded_spec h
  intro i hi hlt hc
  have hcases : i = pos ∨ i = pos + 1 ∨ i = pos + 2 := by omega
  rcases hcases with rfl | rfl | rfl
  · exact ⟨hone, htwo⟩
  · exact absurd hc (not_percent_of_isHexDigit hone)
  · exact absurd hc (not_percent_of_isHexDigit htwo)

theorem parseUnreservedChar_percent {url : U16String} {pos : Nat}
    (h : charAt url pos = '%'.toNat) : parseUnreservedChar url pos = none := by
  unfold parseUnreservedChar
  rw [h]
  exact (if_neg (by decide)).trans (parseUCSChar_ascii (by rw [h]; decide))

theorem parseUnreservedChar_encoder : Encoder parseUnreservedChar := by
  intro url pos next h
  obtain rfl := parseUnreservedChar_succ h
  refine .char fun hc => ?_
  rw [parseUnreservedChar_percent hc] at h
  cases h

theorem parsePchar_encoder : Encoder parsePchar := by
  intro url pos next h
  simp only [parsePchar] at h
  split at h
  · rename_i one hone
    exact Option.some.inj h ▸ parseUnreservedChar_encoder url pos one hone
  split at h
  · rename_i one hone
    exact Option.some.inj h ▸ parsePercentEncoded_encoder url pos one hone
  split at h
  · rename_i hchar
    obtain rfl := Option.some.inj h
    refine .char fun hc => ?_
    rw [hc] at hchar
    revert hchar
    decide
  · cases h

theorem parsePrivate_encoder : Encoder parsePrivate := by
  intro url pos next h
  have hp : '%'.toNat = 37 := rfl
  simp only [parsePrivate] at h
  split at h
  · obtain rfl := Option.some.inj h
    exact .char (by omega)
  split at h
  · cases h
  rename_i c hsurrogate
  split at h
  · obtain rfl := Option.some.inj h
    simp only [surrogate?] at hsurrogate
    split at hsurrogate
    · exact .char (by omega)
    · cases hsurrogate
  · cases h

theorem parseQueryChar_encoder : Encoder parseQueryChar := by
  intro url pos next h
  simp only [parseQueryChar] at h
  split at h
  · rename_i one hone
    exact Option.some.inj h ▸ parsePchar_encoder url pos one hone
  split at h
  · rename_i one hone
    exact Option.some.inj h ▸ parsePrivate_encoder url pos one hone
  split at h
  · rename_i hchar
    obtain rfl := Option.some.inj h
    refine .char fun hc => ?_
    rw [hc] at hchar
    revert hchar
    decide
  · cases h

theorem parseFragmentChar_encoder : Encoder parseFragmentChar := by
  intro url pos next h
  simp only [parseFragmentChar] at h
  split at h
  · rename_i one hone
    exact Option.some.inj h ▸ parsePchar_encoder url pos one hone
  split at h
  · rename_i hchar
    obtain rfl := Option.some.inj h
    refine .char fun hc => ?_
    rw [hc] at hchar
    revert hchar
    decide
  · cases h

/-! ## Components -/

theorem skipWhile_encoded {one : U16String → Nat → Option Nat} (hone : Encoder one)
    (url : U16String) (turns : Nat) :
    ∀ pos, EncodedIn url pos (skipWhile one url turns pos) := by
  induction turns with
  | zero => exact fun pos => .refl
  | succ turns ih =>
    intro pos
    simp only [skipWhile]
    split
    · exact .refl
    split
    · rename_i next hnext
      exact (hone url pos next hnext).trans (ih next)
    · exact .refl

theorem parsePath_encoded (url : U16String) (pos : Nat) :
    EncodedIn url pos (parsePath url pos) := by
  refine skipWhile_encoded (fun url pos next h => ?_) url url.length pos
  split at h
  · cases h
  · rename_i hslash
    obtain rfl := Option.some.inj h
    refine (EncodedIn.char ?_).trans (skipWhile_encoded parsePchar_encoder url url.length (pos + 1))
    rw [Decidable.not_not.mp hslash]
    decide

namespace Url

theorem parseHash_encoded {u v : Url} {s : Nat} (h : u.parseHash s = some v) :
    EncodedIn u.url s u.url.length := by
  simp only [parseHash] at h
  split at h
  · rename_i hnumber
    split at h
    · rename_i hend
      have hfragment := skipWhile_encoded parseFragmentChar_encoder u.url u.url.length (s + 1)
      have hfirst : EncodedIn u.url s (s + 1) := .char (by rw [hnumber]; decide)
      exact fun i hi hlt => hfirst.trans hfragment i hi (Nat.lt_of_lt_of_le hlt hend)
    · cases h
  · split at h
    · rename_i hend
      exact fun i hi hlt => absurd hlt (Nat.not_lt.mpr (Nat.le_trans hend hi))
    · cases h

/-- Behind a path that was read everything is well encoded. -/
theorem parseTail_encoded {u v : Url} {p : Nat}
    (h : (u.parseSearch p).1.parseHash (u.parseSearch p).2 = some v) :
    EncodedIn u.url p u.url.length := by
  by_cases hquestion : charAt u.url p = '?'.toNat
  · rw [parseSearch, if_pos hquestion] at h
    have hhash := parseHash_encoded h
    have hfirst : EncodedIn u.url p (p + 1) := .char (by rw [hquestion]; decide)
    exact (hfirst.trans (skipWhile_encoded parseQueryChar_encoder u.url u.url.length (p + 1))).trans
      hhash
  · rw [parseSearch, if_neg hquestion] at h
    exact parseHash_encoded h

end Url

/-! ## Hosts -/

/-- No percent sign stands in an address. -/
theorem Address.Taken.percent {a : Address} (h : a.Taken) : '%'.toNat ∉ a.bracketed := by
  have hpieces : ∀ w ∈ a.pieces, '%'.toNat ∉ w := by
    intro w hw hc
    rcases mem_pieces hw with rfl | hw | hw
    · cases hc
    · exact (h.groups w hw).1 _ hc (by decide)
    · obtain ⟨octets, hquad, rfl⟩ := mem_last hw
      rcases mem_joined hc with hdot | ⟨v, hv, hc⟩
      · revert hdot
        decide
      · exact absurd (((h.quad octets hquad).octets v hv).digits _ hc) (by decide)
  rw [bracketed, List.cons_append, List.mem_cons, List.mem_append, text_eq]
  rintro (hc | hc | hc)
  · revert hc
    decide
  · rcases mem_joined hc with hcolon | ⟨w, hw, hc⟩
    · revert hcolon
      decide
    · exact hpieces w hw hc
  · revert hc
    decide

theorem encodedIn_of_stands {url w : U16String} {pos next : Nat} (h : Stands url pos w next)
    (hw : '%'.toNat ∉ w) : EncodedIn url pos next := by
  obtain ⟨⟨rest, hrest⟩, rfl⟩ := h
  intro i hi hlt hc
  refine absurd ?_ hw
  have hchar := charAt_drop url pos (i - pos)
  rw [← hrest, charAt_append_left (by omega), charAt_eq (by omega),
    show pos + (i - pos) = i by omega, hc] at hchar
  rw [← hchar]
  exact List.getElem_mem _

theorem toLower_percent {c : Nat} (h : c = '%'.toNat) : toLower c = '%'.toNat := by
  rw [h]
  decide

theorem parseIregName_encoded (turns : Nat) :
    ∀ url pos, EncodedIn url pos (parseIregName turns url pos).2 := by
  induction turns with
  | zero => exact fun url pos => .refl
  | succ turns ih =>
    intro url pos
    simp only [parseIregName]
    split
    · exact .refl
    rename_i hlt
    split
    · rename_i next hnext
      exact (parsePercentEncoded_encoder url pos next hnext).trans (ih url next)
    -- The letter that is set is no percent sign, and the others stay.
    generalize hurl : url.set pos (toLower (charAt url pos)) = url'
    have hother (i : Nat) (hi : pos + 1 ≤ i) : charAt url' i = charAt url i := by
      rw [← hurl, charAt_set, if_neg (by omega)]
    have hchar : charAt url' pos = toLower (charAt url pos) := by
      rw [← hurl, charAt_set, if_pos ⟨rfl, Nat.lt_of_not_le hlt⟩]
    have hmore {stop : Nat} (h : EncodedIn url' (pos + 1) stop)
        (hc : charAt url' pos ≠ '%'.toNat) : EncodedIn url pos stop := by
      refine (EncodedIn.char fun hpercent => hc ?_).trans fun i hi hlt hpercent => ?_
      · rw [hchar, toLower_percent hpercent]
      · have := h i hi hlt (by rw [hother i hi, hpercent])
        rwa [hother (i + 1) (by omega), hother (i + 2) (by omega)] at this
    split
    · rename_i next hnext
      obtain rfl := parseUnreservedChar_succ hnext
      refine hmore (ih url' (pos + 1)) fun hc => ?_
      rw [parseUnreservedChar_percent hc] at hnext
      cases hnext
    split
    · rename_i hsub
      refine hmore (ih url' (pos + 1)) fun hc => ?_
      rw [hc] at hsub
      revert hsub
      decide
    · exact .refl

theorem quadText_percent {pieces : List U16String}
    (h : ∀ w ∈ pieces, ∀ c ∈ w, isDigit c = true) : '%'.toNat ∉ quadText pieces := by
  intro hc
  rcases mem_joined hc with hdot | ⟨w, hw, hc⟩
  · revert hdot
    decide
  · exact absurd (h w hw _ hc) (by decide)

theorem parseHost_encoded (url : U16String) (pos : Nat) :
    EncodedIn url pos (parseHost url pos).2 := by
  simp only [parseHost]
  split
  · rename_i next hnext
    obtain ⟨a, ha, hstands⟩ := parseIPLiteral_iff.mp hnext
    exact encodedIn_of_stands hstands ha.percent
  split
  · rename_i next hnext
    obtain ⟨front, w, -, hoctets, hw, hstands, -⟩ := (parseIPv4From_iff url 3 pos next).mp hnext
    refine encodedIn_of_stands hstands (quadText_percent fun v hv => ?_)
    rcases List.mem_append.mp hv with hv | hv
    · exact (hoctets v hv).digits
    · rw [List.mem_singleton.mp hv]
      rcases hw with hw | ⟨rfl, -⟩
      · exact hw.digits
      · simp
  · exact parseIregName_encoded url.length url pos

end EsOs.Escort
