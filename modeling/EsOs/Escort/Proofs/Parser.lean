import EsOs.Escort.Url
import EsOs.Lib.Uri

/-!
# What the parser functions of a URL read

Each of them goes from a position in the string to one behind it in the string, over characters that
its component may have, and the parser of a host changes nothing outside of what it reads.
-/

namespace EsOs.Escort

open Uri (isAuthorityText isPathText isQueryText)

/-! ## Positions -/

theorem charAt_eq {url : U16String} {pos : Nat} (h : pos < url.length) :
    charAt url pos = url[pos] := by
  simp [charAt, List.getD, h]

/-- A character that is not `'\0'` is in the string. -/
theorem lt_of_charAt {url : U16String} {pos c : Nat} (h : charAt url pos = c) (hc : c ≠ 0) :
    pos < url.length := by
  refine Decidable.byContradiction fun hn => hc ?_
  rw [← h]
  simp [charAt, List.getD, List.getElem?_eq_none (Nat.le_of_not_lt hn)]

theorem charAt_append_left {front rest : U16String} {i : Nat} (h : i < front.length) :
    charAt (front ++ rest) i = charAt front i := by
  simp only [charAt, List.getD, List.getElem?_append_left h]

theorem charAt_append_right {front rest : U16String} {i : Nat} (h : front.length ≤ i) :
    charAt (front ++ rest) i = charAt rest (i - front.length) := by
  simp only [charAt, List.getD, List.getElem?_append_right h]

theorem charAt_set (url : U16String) (pos c i : Nat) :
    charAt (url.set pos c) i = if i = pos ∧ pos < url.length then c else charAt url i := by
  simp only [charAt, List.getD, List.getElem?_set]
  by_cases hi : pos = i
  · subst hi
    by_cases hlt : pos < url.length
    · simp [hlt]
    · simp [hlt]
  · have hne : ¬ i = pos := fun h => hi h.symm
    simp [hi, hne]

/-- Two slashes or two colons at a position. -/
theorem startsAt_two {url : U16String} {pos : Nat} {s : String} (hs : s.length = 2)
    (h : startsAt url pos s = true) :
    pos + 2 ≤ url.length ∧ literal s = [charAt url pos, charAt url (pos + 1)] := by
  have htake : (url.drop pos).take 2 = literal s := hs ▸ of_decide_eq_true h
  have hlen := congrArg List.length htake
  have hlit : (literal s).length = 2 := by
    rw [literal, List.length_map]
    exact hs
  rw [hlit, List.length_take, List.length_drop] at hlen
  refine ⟨by omega, ?_⟩
  rw [← htake, charAt_eq (by omega), charAt_eq (by omega),
    List.drop_eq_getElem_cons (show pos < url.length by omega),
    List.drop_eq_getElem_cons (show pos + 1 < url.length by omega)]
  rfl

/-- From `pos` to `next` the string has characters that satisfy `p`. -/
structure Reads (p : Nat → Bool) (url : U16String) (pos next : Nat) : Prop where
  le : pos ≤ next
  inString : next ≤ url.length
  all : ∀ i, pos ≤ i → i < next → p (charAt url i) = true

namespace Reads

variable {p q : Nat → Bool} {url : U16String} {pos mid next : Nat}

theorem refl (p : Nat → Bool) (h : pos ≤ url.length) : Reads p url pos pos :=
  ⟨Nat.le_refl pos, h, fun _ hle hlt => absurd hlt (Nat.not_lt.mpr hle)⟩

theorem trans (h : Reads p url pos mid) (h' : Reads p url mid next) : Reads p url pos next := by
  refine ⟨Nat.le_trans h.le h'.le, h'.inString, fun i hi hlt => ?_⟩
  by_cases hmid : i < mid
  · exact h.all i hi hmid
  · exact h'.all i (Nat.le_of_not_lt hmid) hlt

theorem char (hlt : pos < url.length) (h : p (charAt url pos) = true) :
    Reads p url pos (pos + 1) := by
  refine ⟨Nat.le_succ pos, hlt, fun i hi hi' => ?_⟩
  have heq : i = pos := by omega
  exact heq ▸ h

theorem mono (hpq : ∀ c, p c = true → q c = true) (h : Reads p url pos next) :
    Reads q url pos next :=
  ⟨h.le, h.inString, fun i hi hlt => hpq _ (h.all i hi hlt)⟩

end Reads

/-- `one` reads characters that satisfy `p`, at least one of them. -/
def Reader (p : Nat → Bool) (one : U16String → Nat → Option Nat) : Prop :=
  ∀ url pos next, pos < url.length → one url pos = some next →
    pos < next ∧ Reads p url pos next

/-! ## Characters -/

theorem isPathText_of_isAuthorityText (c : Nat) (h : isAuthorityText c = true) :
    isPathText c = true := by
  simp only [isAuthorityText, isPathText, Bool.and_eq_true] at h ⊢
  exact ⟨h.1.2, h.2⟩

theorem isQueryText_of_isPathText (c : Nat) (h : isPathText c = true) : isQueryText c = true := by
  simp only [isPathText, isQueryText, Bool.and_eq_true] at h ⊢
  exact h.2

/-- The characters that end a segment of a path. -/
theorem delimiter_cases {c : Nat} (h : isAuthorityText c = false) :
    c = '/'.toNat ∨ c = '?'.toNat ∨ c = '#'.toNat := by
  simp only [isAuthorityText, Bool.and_eq_false_iff, decide_eq_false_iff_not, Decidable.not_not,
    or_assoc] at h
  exact h

theorem isAuthorityText_of_isHexDigit {c : Nat} (h : isHexDigit c ≠ 0) :
    isAuthorityText c = true := by
  refine Decidable.byContradiction fun hc => h ?_
  rcases delimiter_cases (Bool.eq_false_iff.mpr hc) with rfl | rfl | rfl <;> decide

theorem isAuthorityText_of_isDigit {c : Nat} (h : isDigit c = true) : isAuthorityText c = true := by
  refine Decidable.byContradiction fun hc => ?_
  rcases delimiter_cases (Bool.eq_false_iff.mpr hc) with rfl | rfl | rfl <;> revert h <;> decide

theorem isAuthorityText_of_isSubDelims {c : Nat} (h : isSubDelims c = true) :
    isAuthorityText c = true := by
  refine Decidable.byContradiction fun hc => ?_
  rcases delimiter_cases (Bool.eq_false_iff.mpr hc) with rfl | rfl | rfl <;> revert h <;> decide

theorem parseUCSChar_ascii {url : U16String} {pos : Nat} (h : charAt url pos < 0x80) :
    parseUCSChar url pos = none := by
  have hsurrogate : surrogate? url pos = none := if_neg (by omega)
  simp only [parseUCSChar, hsurrogate]
  exact if_neg (by omega)

theorem parseUnreservedChar_delimiter {url : U16String} {pos : Nat}
    (h : isAuthorityText (charAt url pos) = false) : parseUnreservedChar url pos = none := by
  unfold parseUnreservedChar
  rcases delimiter_cases h with hc | hc | hc <;>
    (rw [hc]; exact (if_neg (by decide)).trans (parseUCSChar_ascii (by rw [hc]; decide)))

theorem parseUnreservedChar_succ {url : U16String} {pos next : Nat}
    (h : parseUnreservedChar url pos = some next) : next = pos + 1 := by
  simp only [parseUnreservedChar] at h
  split at h
  · exact (Option.some.inj h).symm
  simp only [parseUCSChar] at h
  split at h
  · exact (Option.some.inj h).symm
  split at h
  · cases h
  split at h
  · exact (Option.some.inj h).symm
  · cases h

theorem parseUnreservedChar_reader : Reader isAuthorityText parseUnreservedChar := by
  intro url pos next hlt h
  obtain rfl := parseUnreservedChar_succ h
  refine ⟨Nat.lt_succ_self pos, .char hlt (Decidable.byContradiction fun hc => ?_)⟩
  rw [parseUnreservedChar_delimiter (Bool.eq_false_iff.mpr hc)] at h
  cases h

/-- A percent sign and two hexadecimal digits. -/
theorem parsePercentEncoded_spec {url : U16String} {pos next : Nat}
    (h : parsePercentEncoded url pos = some next) :
    next = pos + 3 ∧ charAt url pos = '%'.toNat ∧ isHexDigit (charAt url (pos + 1)) ≠ 0 ∧
      isHexDigit (charAt url (pos + 2)) ≠ 0 ∧ pos + 2 < url.length := by
  simp only [parsePercentEncoded] at h
  split at h
  · cases h
  rename_i hpercent
  split at h
  · cases h
  split at h
  · cases h
  rename_i hone
  split at h
  · cases h
  rename_i hlen
  split at h
  · cases h
  rename_i htwo
  exact ⟨(Option.some.inj h).symm, Decidable.not_not.mp hpercent, hone, htwo,
    Nat.lt_of_not_le hlen⟩

theorem parsePercentEncoded_reads {url : U16String} {pos next : Nat}
    (h : parsePercentEncoded url pos = some next) : Reads isAuthorityText url pos next := by
  obtain ⟨rfl, hpercent, hone, htwo, hlen⟩ := parsePercentEncoded_spec h
  refine ((Reads.char (by omega) ?_).trans (.char (by omega) ?_)).trans (.char hlen ?_)
  · rw [hpercent]
    decide
  · exact isAuthorityText_of_isHexDigit hone
  · exact isAuthorityText_of_isHexDigit htwo

theorem parsePercentEncoded_reader : Reader isAuthorityText parsePercentEncoded := by
  intro url pos next _ h
  refine ⟨?_, parsePercentEncoded_reads h⟩
  obtain ⟨rfl, _⟩ := parsePercentEncoded_spec h
  omega

/-- What is read as a character of a segment does not end it. -/
theorem parsePchar_reader : Reader isAuthorityText parsePchar := by
  intro url pos next hlt h
  simp only [parsePchar] at h
  split at h
  · rename_i one hone
    exact Option.some.inj h ▸ parseUnreservedChar_reader url pos one hlt hone
  split at h
  · rename_i one hone
    exact Option.some.inj h ▸ parsePercentEncoded_reader url pos one hlt hone
  split at h
  · rename_i hchar
    obtain rfl := Option.some.inj h
    refine ⟨Nat.lt_succ_self pos, .char hlt (Decidable.byContradiction fun hc => ?_)⟩
    rcases delimiter_cases (Bool.eq_false_iff.mpr hc) with hc | hc | hc <;>
      rw [hc] at hchar <;> revert hchar <;> decide
  · cases h

theorem parsePrivate_reader : Reader isQueryText parsePrivate := by
  have hlarge {c : Nat} (hc : 0xd800 ≤ c) : isQueryText c = true := by
    have hnumber : Uri.numberSign = 35 := rfl
    simp only [isQueryText, decide_eq_true_eq]
    omega
  intro url pos next hlt h
  simp only [parsePrivate] at h
  split at h
  · rename_i hc
    obtain rfl := Option.some.inj h
    exact ⟨Nat.lt_succ_self pos, .char hlt (hlarge (by omega))⟩
  split at h
  · cases h
  rename_i c hsurrogate
  split at h
  · obtain rfl := Option.some.inj h
    refine ⟨Nat.lt_succ_self pos, .char hlt ?_⟩
    simp only [surrogate?] at hsurrogate
    split at hsurrogate
    · rename_i hhigh
      exact hlarge hhigh.1
    · cases hsurrogate
  · cases h

theorem parseQueryChar_reader : Reader isQueryText parseQueryChar := by
  intro url pos next hlt h
  simp only [parseQueryChar] at h
  split at h
  · rename_i one hone
    have hread := parsePchar_reader url pos one hlt hone
    exact Option.some.inj h ▸ ⟨hread.1, hread.2.mono fun c hc =>
      isQueryText_of_isPathText c (isPathText_of_isAuthorityText c hc)⟩
  split at h
  · rename_i one hone
    exact Option.some.inj h ▸ parsePrivate_reader url pos one hlt hone
  split at h
  · rename_i hchar
    obtain rfl := Option.some.inj h
    refine ⟨Nat.lt_succ_self pos, .char hlt ?_⟩
    simp only [Bool.or_eq_true, decide_eq_true_eq] at hchar
    rcases hchar with hc | hc <;> rw [hc] <;> decide
  · cases h

theorem parseFragmentChar_reader : Reader (fun _ => true) parseFragmentChar := by
  intro url pos next hlt h
  simp only [parseFragmentChar] at h
  split at h
  · rename_i one hone
    have hread := parsePchar_reader url pos one hlt hone
    exact Option.some.inj h ▸ ⟨hread.1, hread.2.mono fun _ _ => rfl⟩
  split at h
  · obtain rfl := Option.some.inj h
    exact ⟨Nat.lt_succ_self pos, .char hlt rfl⟩
  · cases h

/-! ## Components -/

theorem skipWhile_reads {p : Nat → Bool} {one : U16String → Nat → Option Nat}
    (hone : Reader p one) (url : U16String) (turns : Nat) :
    ∀ pos, pos ≤ url.length → Reads p url pos (skipWhile one url turns pos) := by
  induction turns with
  | zero => exact fun pos hpos => .refl p hpos
  | succ turns ih =>
    intro pos hpos
    simp only [skipWhile]
    split
    · exact .refl p hpos
    rename_i hlt
    split
    · rename_i next hnext
      have hstep := (hone url pos next (by omega) hnext).2
      exact hstep.trans (ih next hstep.inString)
    · exact .refl p hpos

theorem skipPchars_reads (url : U16String) {pos : Nat} (hpos : pos ≤ url.length) :
    Reads isAuthorityText url pos (skipPchars url pos) :=
  skipWhile_reads parsePchar_reader url _ pos hpos

theorem parseQuery_reads (url : U16String) {pos : Nat} (hpos : pos ≤ url.length) :
    Reads isQueryText url pos (parseQuery url pos) :=
  skipWhile_reads parseQueryChar_reader url _ pos hpos

theorem parseFragment_reads (url : U16String) {pos : Nat} (hpos : pos ≤ url.length) :
    Reads (fun _ => true) url pos (parseFragment url pos) :=
  skipWhile_reads parseFragmentChar_reader url _ pos hpos

/-- A slash and the segment behind it. -/
theorem segment_reads {url : U16String} {pos : Nat} (hslash : charAt url pos = '/'.toNat) :
    Reads isPathText url pos (skipPchars url (pos + 1)) := by
  have hlt := lt_of_charAt hslash (by decide)
  have hchar : isPathText (charAt url pos) = true := by
    rw [hslash]
    decide
  exact (Reads.char hlt hchar).trans ((skipPchars_reads url hlt).mono isPathText_of_isAuthorityText)

theorem parsePath_reader : Reader isPathText fun url pos =>
    if charAt url pos ≠ '/'.toNat then none else some (skipPchars url (pos + 1)) := by
  intro url pos next hlt h
  simp only at h
  split at h
  · cases h
  · rename_i hslash
    have hread := segment_reads (Decidable.not_not.mp hslash)
    obtain rfl := Option.some.inj h
    exact ⟨(skipPchars_reads url hlt).le, hread⟩

theorem parsePath_reads (url : U16String) {pos : Nat} (hpos : pos ≤ url.length) :
    Reads isPathText url pos (parsePath url pos) :=
  skipWhile_reads parsePath_reader url _ pos hpos

/-- At a slash there is something to read. -/
theorem parsePath_lt {url : U16String} {pos : Nat} (h : charAt url pos = '/'.toNat) :
    pos < parsePath url pos := by
  have hlt := lt_of_charAt h (by decide)
  have hskip := skipPchars_reads url hlt
  obtain ⟨turns, hturns⟩ : ∃ turns, url.length = turns + 1 := ⟨url.length - 1, by omega⟩
  have hrest := skipWhile_reads parsePath_reader url turns _ hskip.inString
  unfold parsePath
  rw [hturns, skipWhile, if_neg (by omega), if_neg (fun hne => hne h)]
  exact Nat.lt_of_lt_of_le (Nat.lt_of_lt_of_le (Nat.lt_succ_self pos) hskip.le) hrest.le

theorem parseSegments_reads (url : U16String) (turns : Nat) :
    ∀ pos, pos ≤ url.length → Reads isPathText url pos (parseSegments url turns pos) := by
  induction turns with
  | zero => exact fun pos hpos => .refl _ hpos
  | succ turns ih =>
    intro pos hpos
    have hskip := (skipPchars_reads url hpos).mono isPathText_of_isAuthorityText
    simp only [parseSegments]
    split
    · exact hskip
    · rename_i hmore
      rw [not_or, Decidable.not_not] at hmore
      have hchar : isPathText (charAt url (skipPchars url pos)) = true := by
        rw [hmore.2]
        decide
      have hlt := Nat.lt_of_not_le hmore.1
      exact hskip.trans ((Reads.char hlt hchar).trans (ih _ hlt))

theorem parseRelativePath_reads (url : U16String) {pos : Nat} (hpos : pos ≤ url.length) :
    Reads isPathText url pos (Url.parseRelativePath url pos) := by
  unfold Url.parseRelativePath
  split
  · exact parsePath_reads url hpos
  · exact parseSegments_reads url _ pos hpos

theorem skipDigits_reads (url : U16String) {pos : Nat} (hpos : pos ≤ url.length) :
    Reads isDigit url pos (skipDigits url pos) := by
  have hlen := (List.takeWhile_sublist isDigit (l := url.drop pos)).length_le
  simp only [List.length_drop] at hlen
  refine ⟨Nat.le_add_right _ _, by simp only [skipDigits]; omega, fun i hi hlt => ?_⟩
  simp only [skipDigits] at hlt
  have hget : getElem ((url.drop pos).takeWhile isDigit) (i - pos) (by omega) = charAt url i := by
    rw [charAt_eq (by omega), (List.takeWhile_prefix isDigit).getElem, List.getElem_drop]
    congr 1
    omega
  have hmem := List.getElem_mem (l := (url.drop pos).takeWhile isDigit) (n := i - pos) (by omega)
  rw [hget] at hmem
  exact List.mem_takeWhile_imp hmem

/-! ## Hosts -/

theorem parseOctet_reads (url : U16String) (first turns : Nat) :
    ∀ pos a next, pos ≤ url.length → parseOctet url first turns pos a = some next →
      Reads isDigit url pos next := by
  induction turns with
  | zero =>
    intro pos a next hpos h
    simp only [parseOctet, Option.some.injEq] at h
    exact h ▸ .refl _ hpos
  | succ turns ih =>
    intro pos a next hpos h
    simp only [parseOctet] at h
    split at h
    · exact Option.some.inj h ▸ .refl _ hpos
    rename_i hlt
    split at h
    · rename_i hdigit
      split at h
      · cases h
      · exact (Reads.char (by omega) hdigit).trans
          (ih (pos + 1) _ next (by omega) h)
    · split at h
      · cases h
      · exact Option.some.inj h ▸ .refl _ hpos

/-- The characters of an IPv4 address. -/
def isAddressText (c : Nat) : Bool :=
  isDigit c || c = '.'.toNat

theorem isAuthorityText_of_isAddressText (c : Nat) (h : isAddressText c = true) :
    isAuthorityText c = true := by
  rcases Bool.or_eq_true_iff.mp h with h | h
  · exact isAuthorityText_of_isDigit h
  · rw [of_decide_eq_true h]
    decide

theorem parseIPv4From_reads (url : U16String) (left : Nat) :
    ∀ pos next, pos ≤ url.length → parseIPv4From url left pos = some next →
      Reads isAddressText url pos next := by
  induction left with
  | zero =>
    intro pos next hpos h
    simp only [parseIPv4From, Option.some.injEq] at h
    exact h ▸ .refl _ hpos
  | succ left ih =>
    intro pos next hpos h
    simp only [parseIPv4From] at h
    split at h
    · cases h
    rename_i stop hoctet
    have hstop := (parseOctet_reads url pos _ pos 0 stop hpos hoctet).mono
      (q := isAddressText) fun c hc => by rw [isAddressText, hc]; rfl
    split at h
    · exact Option.some.inj h ▸ hstop
    split at h
    · cases h
    · rename_i hdot
      have hdot := Decidable.not_not.mp hdot
      have hlt : stop < url.length := lt_of_charAt hdot (by decide)
      have hchar : isAddressText (charAt url stop) = true := by
        rw [hdot]
        decide
      exact (hstop.trans (.char hlt hchar)).trans (ih (stop + 1) next hlt h)

theorem parseHex4_reads (url : U16String) (first : Nat) (useDoubleColon : Bool) (turns : Nat) :
    ∀ pos a next, pos ≤ url.length → parseHex4 url first useDoubleColon turns pos a = some next →
      Reads isAuthorityText url pos next := by
  induction turns with
  | zero =>
    intro pos a next hpos h
    simp only [parseHex4, Option.some.injEq] at h
    exact h ▸ .refl _ hpos
  | succ turns ih =>
    intro pos a next hpos h
    simp only [parseHex4] at h
    split at h
    · exact Option.some.inj h ▸ .refl _ hpos
    rename_i hlt
    split at h
    · rename_i hdigit
      split at h
      · cases h
      · exact (Reads.char (by omega) (isAuthorityText_of_isHexDigit hdigit)).trans
          (ih (pos + 1) _ next (by omega) h)
    · split at h
      · cases h
      · exact Option.some.inj h ▸ .refl _ hpos

/-- What the loop over the groups has read: everything up to the position, and everything up to the
    last colon. -/
structure Groups (url : U16String) (first colon pos : Nat) : Prop where
  toColon : Reads isAuthorityText url first colon
  toPos : Reads isAuthorityText url colon pos

theorem Groups.all {url : U16String} {first colon pos : Nat} (h : Groups url first colon pos) :
    Reads isAuthorityText url first pos := h.toColon.trans h.toPos

theorem colon_reads {url : U16String} {pos : Nat} (h : charAt url pos = ':'.toNat) :
    Reads isAuthorityText url pos (pos + 1) := by
  refine .char (lt_of_charAt h (by decide)) ?_
  rw [h]
  decide

/-- Two colons are read from the last colon on. -/
theorem Groups.doubleColon {url : U16String} {first colon pos : Nat}
    (h : Groups url first colon pos) (double : Bool) (hdouble : double = true → startsAt url colon "::" = true) :
    Groups url first colon (if double = true then colon + 2 else pos) := by
  split
  · rename_i hd
    obtain ⟨_, hlit⟩ := startsAt_two rfl (hdouble hd)
    have hchars : charAt url colon = ':'.toNat ∧ charAt url (colon + 1) = ':'.toNat := by
      have hpair : literal "::" = [':'.toNat, ':'.toNat] := rfl
      rw [hpair] at hlit
      simp only [List.cons.injEq, and_true] at hlit
      exact ⟨hlit.1.symm, hlit.2.symm⟩
    exact ⟨h.toColon, (colon_reads hchars.1).trans (colon_reads hchars.2)⟩
  · exact h

/-- Where the loop goes on behind the group that ends at `stop`. -/
theorem Groups.next {url : U16String} {first colon stop c : Nat} (h : Groups url first colon stop)
    (hmore : ¬ (decide (c < 7) && decide (charAt url stop ≠ ':'.toNat)) = true) :
    Groups url first (if c < 7 then stop else colon) (if c < 7 then stop + 1 else stop) := by
  by_cases hc : c < 7
  · have hchar : charAt url stop = ':'.toNat := by simpa [hc] using hmore
    simp only [hc, if_true]
    exact ⟨h.all, colon_reads hchar⟩
  · simp only [hc, if_false]
    exact h

theorem parseIPv6Loop_reads (url : U16String) (first turns : Nat) :
    ∀ c useDoubleColon colon pos found, Groups url first colon pos →
      parseIPv6Loop url turns c useDoubleColon colon pos = some found →
      Reads isAuthorityText url first found.2.2 := by
  induction turns with
  | zero =>
    intro c useDoubleColon colon pos found hgroups h
    simp only [parseIPv6Loop, Option.some.injEq] at h
    exact h ▸ hgroups.all
  | succ turns ih =>
    intro c useDoubleColon colon pos found hgroups h
    simp only [parseIPv6Loop] at h
    split at h
    · exact Option.some.inj h ▸ hgroups.all
    generalize hdouble : (decide (c ≤ 6) && !useDoubleColon && startsAt url colon "::") = double
      at h
    have hskip := hgroups.doubleColon double fun hd => by
      rw [hd, Bool.and_eq_true] at hdouble
      exact hdouble.2
    generalize (if double = true then colon + 2 else pos) = pos' at h hskip
    generalize (if double = true then c + 2 else c) = c' at h
    split at h
    · exact Option.some.inj h ▸ hskip.all
    split at h
    · cases h
    rename_i stop hhex
    have hstop : Groups url first colon stop :=
      ⟨hskip.toColon, hskip.toPos.trans
        (parseHex4_reads url pos' _ _ pos' 0 stop hskip.toPos.inString hhex)⟩
    split at h
    · exact Option.some.inj h ▸ hstop.all
    rename_i hmore
    have hnext := hstop.next hmore
    generalize (if c' < 7 then stop else colon) = colon' at h hnext
    generalize (if c' < 7 then stop + 1 else stop) = pos'' at h hnext
    split at h
    · split at h
      · rename_i octets hoctets
        exact Option.some.inj h ▸ hnext.all.trans
          ((parseIPv4From_reads url 4 pos'' octets hnext.toPos.inString hoctets).mono
            isAuthorityText_of_isAddressText)
      · exact ih _ _ _ _ found hnext h
    · exact ih _ _ _ _ found hnext h

theorem parseIPv6Address_reads {url : U16String} {pos next : Nat} (hpos : pos ≤ url.length)
    (h : parseIPv6Address url pos = some next) : Reads isAuthorityText url pos next := by
  simp only [parseIPv6Address] at h
  split at h
  · cases h
  rename_i c useDoubleColon stop hloop
  split at h
  · exact Option.some.inj h ▸ parseIPv6Loop_reads url pos 9 0 false pos pos _
      ⟨.refl _ hpos, .refl _ hpos⟩ hloop
  · cases h

theorem parseIPLiteral_reads {url : U16String} {pos next : Nat}
    (h : parseIPLiteral url pos = some next) : Reads isAuthorityText url pos next := by
  simp only [parseIPLiteral] at h
  split at h
  · cases h
  rename_i hopen
  split at h
  · cases h
  split at h
  · cases h
  rename_i stop haddress
  split at h
  · cases h
  split at h
  · cases h
  rename_i hclose
  obtain rfl := Option.some.inj h
  have hfirst : isAuthorityText (charAt url pos) = true := by
    rw [Decidable.not_not.mp hopen]
    decide
  have hlast : isAuthorityText (charAt url stop) = true := by
    rw [Decidable.not_not.mp hclose]
    decide
  exact ((Reads.char (by omega) hfirst).trans (parseIPv6Address_reads (by omega) haddress)).trans
    (.char (by omega) hlast)

/-- `url'` differs from `url` between `pos` and `next` only, where it is a host as long as before. -/
structure HostRead (url url' : U16String) (pos next : Nat) : Prop where
  length : url'.length = url.length
  reads : Reads isAuthorityText url' pos next
  outside : ∀ i, i < pos ∨ next ≤ i → charAt url' i = charAt url i

theorem HostRead.refl {url : U16String} {pos next : Nat} (h : Reads isAuthorityText url pos next) :
    HostRead url url pos next :=
  ⟨rfl, h, fun _ _ => rfl⟩

/-- What is read before a host that goes on. -/
theorem HostRead.prepend {url url' : U16String} {pos mid next : Nat}
    (hread : Reads isAuthorityText url pos mid) (h : HostRead url url' mid next) :
    HostRead url url' pos next := by
  refine ⟨h.length, Reads.trans ⟨hread.le, ?_, fun i hi hlt => ?_⟩ h.reads, fun i hi => ?_⟩
  · rw [h.length]
    exact hread.inString
  · rw [h.outside i (.inl hlt)]
    exact hread.all i hi hlt
  · exact h.outside i (hi.imp_left fun hlt => Nat.lt_of_lt_of_le hlt hread.le)

/-- A character that is changed before the host is read on. -/
theorem HostRead.set {url url' : U16String} {pos next c : Nat} (hlt : pos < next)
    (h : HostRead (url.set pos c) url' pos next) : HostRead url url' pos next := by
  refine ⟨h.length.trans List.length_set, h.reads, fun i hi => ?_⟩
  rw [h.outside i hi, charAt_set, if_neg (by omega)]

/-- A character that ends a name is no letter, so it has no other case. -/
theorem toLower_of_not_unreserved {url : U16String} {pos c : Nat}
    (hc : charAt url pos = toLower c) (h : parseUnreservedChar url pos = none) :
    toLower c = c := by
  unfold toLower
  split
  · rename_i hupper
    have halnum : isAlnum (charAt url pos) = true := by
      rw [hc, toLower, if_pos hupper]
      have hA : 'A'.toNat = 65 := rfl
      have hZ : 'Z'.toNat = 90 := rfl
      have ha : 'a'.toNat = 97 := rfl
      have hz : 'z'.toNat = 122 := rfl
      simp only [isAlnum, isAlpha, isDigit, Bool.or_eq_true, Bool.and_eq_true, decide_eq_true_eq]
      omega
    simp [parseUnreservedChar, halnum] at h
  · rfl

theorem parseIregName_reads (turns : Nat) :
    ∀ url pos, pos ≤ url.length →
      HostRead url (parseIregName turns url pos).1 pos (parseIregName turns url pos).2 := by
  induction turns with
  | zero => exact fun url pos hpos => .refl (.refl _ hpos)
  | succ turns ih =>
    intro url pos hpos
    simp only [parseIregName]
    split
    · exact .refl (.refl _ hpos)
    rename_i hlt
    split
    · rename_i next hnext
      have hread := parsePercentEncoded_reads hnext
      exact .prepend hread (ih url next hread.inString)
    · generalize hc : toLower (charAt url pos) = c
      split
      · rename_i next hnext
        obtain ⟨hmore, hread⟩ := parseUnreservedChar_reader (url.set pos c) pos next
          (by simpa using Nat.lt_of_not_le hlt) hnext
        have hrest := ih (url.set pos c) next hread.inString
        exact .set (Nat.lt_of_lt_of_le hmore hrest.reads.le) (.prepend hread hrest)
      split
      · rename_i hsub
        have hread : Reads isAuthorityText (url.set pos c) pos (pos + 1) :=
          .char (by simpa using Nat.lt_of_not_le hlt) (isAuthorityText_of_isSubDelims hsub)
        have hrest := ih (url.set pos c) (pos + 1) hread.inString
        exact .set (Nat.lt_of_lt_of_le (Nat.lt_succ_self pos) hrest.reads.le)
          (.prepend hread hrest)
      · rename_i hstop _
        refine ⟨List.length_set, .refl _ (by rw [List.length_set]; exact hpos), fun i _ => ?_⟩
        rw [charAt_set]
        split
        · rename_i hi
          have hchar : charAt (url.set pos c) pos = toLower (charAt url pos) := by
            rw [charAt_set, if_pos ⟨rfl, hi.2⟩, hc]
          rw [← hc, toLower_of_not_unreserved hchar hstop, hi.1]
        · rfl

theorem parseHost_reads (url : U16String) {pos : Nat} (hpos : pos ≤ url.length) :
    HostRead url (parseHost url pos).1 pos (parseHost url pos).2 := by
  simp only [parseHost]
  split
  · rename_i next hnext
    exact .refl (parseIPLiteral_reads hnext)
  split
  · rename_i next hnext
    exact .refl ((parseIPv4From_reads url 4 pos next hpos hnext).mono
      isAuthorityText_of_isAddressText)
  · exact parseIregName_reads _ url pos hpos

end EsOs.Escort
