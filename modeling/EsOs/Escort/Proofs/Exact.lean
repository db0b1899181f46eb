import EsOs.Escort.Proofs.Relative
import EsOs.Escort.Components

/-!
# A well-encoded reference is read to the end of its components

Where every percent sign stands before two digits, the loops of the parser stop at nothing but the
delimiters of the generic syntax, so that the offsets are those of the components of the text.
-/

namespace EsOs.Escort

open Uri (isAuthorityText isPathText isQueryText)

/-! ## Where the loops stop -/

/-- The percent signs from a position on. -/
def EncodedFrom (url : U16String) (first : Nat) : Prop :=
  ∀ i, first ≤ i → i < url.length → charAt url i = '%'.toNat →
    isHexDigit (charAt url (i + 1)) ≠ 0 ∧ isHexDigit (charAt url (i + 2)) ≠ 0

/-- The string ends at `stop`, or a character that `p` does not allow stands there. -/
def Ends (p : Nat → Bool) (url : U16String) (stop : Nat) : Prop :=
  stop = url.length ∨ p (charAt url stop) = false

theorem lt_of_isHexDigit {url : U16String} {pos : Nat} (h : isHexDigit (charAt url pos) ≠ 0) :
    pos < url.length :=
  lt_of_charAt rfl fun hzero => h (by rw [hzero]; decide)

theorem parsePercentEncoded_isSome {url : U16String} {pos : Nat}
    (hpercent : charAt url pos = '%'.toNat) (hone : isHexDigit (charAt url (pos + 1)) ≠ 0)
    (htwo : isHexDigit (charAt url (pos + 2)) ≠ 0) :
    parsePercentEncoded url pos = some (pos + 3) := by
  have h1 := lt_of_isHexDigit hone
  have h2 := lt_of_isHexDigit htwo
  rw [parsePercentEncoded, if_neg (fun hne => hne hpercent), if_neg (by omega), if_neg hone,
    if_neg (by omega), if_neg htwo]

/-- Every ASCII character is unreserved, delimits a subcomponent or a component, or is the percent
    sign. -/
theorem ascii_cases : ∀ c, c < 0x7f →
    (isAlnum c || (literal "-._~").contains c || c ≤ 0x20 || 0x7f ≤ c ||
      (literal "\"<>[\\]^\x60\x7b|\x7d").contains c) = true ∨
    (isSubDelims c || c = ':'.toNat || c = '@'.toNat) = true ∨
    c = '%'.toNat ∨ isAuthorityText c = false := by
  decide +kernel

/-- A segment goes on over every character that does not delimit it. -/
theorem parsePchar_none {url : U16String} {pos : Nat} (henc : charAt url pos = '%'.toNat →
      isHexDigit (charAt url (pos + 1)) ≠ 0 ∧ isHexDigit (charAt url (pos + 2)) ≠ 0)
    (h : parsePchar url pos = none) : isAuthorityText (charAt url pos) = false := by
  have hunreserved : parseUnreservedChar url pos = none := by
    unfold parsePchar at h
    split at h
    · cases h
    · assumption
  simp only [parsePchar, hunreserved] at h
  have hpercent : charAt url pos ≠ '%'.toNat := by
    intro hc
    rw [parsePercentEncoded_isSome hc (henc hc).1 (henc hc).2] at h
    cases h
  have hno : parsePercentEncoded url pos = none := if_pos hpercent
  rw [hno] at h
  dsimp only at h
  unfold parseUnreservedChar at hunreserved
  by_cases hascii : charAt url pos < 0x7f
  · rcases ascii_cases _ hascii with hc | hc | hc | hc
    · rw [if_pos hc] at hunreserved
      cases hunreserved
    · rw [if_pos hc] at h
      cases h
    · exact absurd hc hpercent
    · exact hc
  · have hlarge : (0x7f ≤ charAt url pos) = True := eq_true (Nat.le_of_not_lt hascii)
    simp only [hlarge, decide_true, Bool.or_true, Bool.true_or, if_true] at hunreserved
    cases hunreserved

/-- With enough turns a loop stops where its step reads nothing. -/
theorem skipWhile_ends {p : Nat → Bool} {one : U16String → Nat → Option Nat}
    (hone : Reader p one) (url : U16String) (turns : Nat) :
    ∀ pos, pos ≤ url.length → url.length ≤ pos + turns →
      skipWhile one url turns pos = url.length ∨
        one url (skipWhile one url turns pos) = none := by
  induction turns with
  | zero => exact fun pos hpos hturns => .inl (Nat.le_antisymm hpos hturns)
  | succ turns ih =>
    intro pos hpos hturns
    rw [skipWhile]
    split
    · rename_i hend
      exact .inl (Nat.le_antisymm hpos hend)
    rename_i hlt
    split
    · rename_i next hnext
      obtain ⟨hmore, hread⟩ := hone url pos next (by omega) hnext
      exact ih next hread.inString (by omega)
    · rename_i hnone
      exact .inr hnone

theorem skipPchars_ends {url : U16String} {first pos : Nat} (henc : EncodedFrom url first)
    (hfirst : first ≤ pos) (hpos : pos ≤ url.length) :
    Ends isAuthorityText url (skipPchars url pos) := by
  have hread := skipPchars_reads url hpos
  rcases skipWhile_ends parsePchar_reader url url.length pos hpos (Nat.le_add_left _ _) with
    hend | hnone
  · exact .inl hend
  · by_cases hlt : skipPchars url pos < url.length
    · exact .inr (parsePchar_none
        (henc _ (Nat.le_trans hfirst hread.le) hlt) hnone)
    · exact .inl (Nat.le_antisymm hread.inString (Nat.le_of_not_lt hlt))

/-- At a delimiter that is no slash the path ends. -/
theorem ends_path {url : U16String} {stop : Nat} (h : Ends isAuthorityText url stop)
    (hslash : charAt url stop ≠ '/'.toNat) : Ends isPathText url stop := by
  refine h.imp_right fun hc => ?_
  rcases delimiter_cases hc with hc | hc | hc
  · exact absurd hc hslash
  · rw [hc]
    decide
  · rw [hc]
    decide

/-- The loop over the segments stops behind a segment, where no slash follows. -/
theorem parsePath_ends {url : U16String} {first pos : Nat} (henc : EncodedFrom url first)
    (hfirst : first ≤ pos) (hslash : charAt url pos = '/'.toNat) :
    Ends isPathText url (parsePath url pos) := by
  have hlt := lt_of_charAt hslash (by decide)
  -- Every turn starts where a segment has ended.
  have hturn (turns : Nat) : ∀ pos, first ≤ pos → pos ≤ url.length →
      Ends isAuthorityText url pos → Ends isAuthorityText url (skipWhile (fun url pos =>
        if charAt url pos ≠ '/'.toNat then none else some (skipPchars url (pos + 1)))
        url turns pos) := by
    induction turns with
    | zero => exact fun _ _ _ h => h
    | succ turns ih =>
      intro pos hfirst hpos h
      rw [skipWhile]
      split
      · exact h
      rename_i hmore
      split
      · rename_i next hnext
        split at hnext
        · cases hnext
        · obtain rfl := Option.some.inj hnext
          have hskip := skipPchars_reads url (show pos + 1 ≤ url.length by omega)
          exact ih _ (by have := hskip.le; omega) hskip.inString
            (skipPchars_ends henc (by omega) (by omega))
      · exact h
  have hdelimiter : Ends isAuthorityText url pos := .inr (by rw [hslash]; decide)
  have hend := hturn url.length pos hfirst (Nat.le_of_lt hlt) hdelimiter
  rcases skipWhile_ends parsePath_reader url url.length pos (Nat.le_of_lt hlt)
    (Nat.le_add_left _ _) with hstop | hnone
  · exact .inl hstop
  · refine ends_path hend fun hc => ?_
    rw [if_neg (fun hne => hne hc)] at hnone
    cases hnone

theorem parseSegments_ends {url : U16String} {first : Nat} (henc : EncodedFrom url first)
    (turns : Nat) : ∀ pos, first ≤ pos → pos ≤ url.length → url.length ≤ pos + turns →
      (turns = 0 → Ends isPathText url pos) → Ends isPathText url (parseSegments url turns pos) := by
  induction turns with
  | zero => exact fun _ _ _ _ h => h rfl
  | succ turns ih =>
    intro pos hfirst hpos hturns _
    have hskip := skipPchars_reads url hpos
    have hend := skipPchars_ends henc hfirst hpos
    rw [parseSegments]
    split
    · rename_i hstop
      rcases hstop with hstop | hslash
      · exact .inl (Nat.le_antisymm hskip.inString hstop)
      · exact ends_path hend hslash
    · rename_i hmore
      rw [not_or] at hmore
      have hle := hskip.le
      exact ih _ (by omega) (by omega) (by omega) fun hzero => .inl (by omega)

theorem parseRelativePath_ends {url : U16String} {pos : Nat} (henc : EncodedFrom url pos)
    (hlt : pos < url.length) : Ends isPathText url (Url.parseRelativePath url pos) := by
  unfold Url.parseRelativePath
  split
  · rename_i hslash
    exact parsePath_ends henc (Nat.le_refl pos) hslash
  · exact parseSegments_ends henc _ pos (Nat.le_refl pos) (Nat.le_of_lt hlt)
      (Nat.le_add_left _ _) fun hzero => by omega

theorem parseQueryChar_none {url : U16String} {pos : Nat} (h : parseQueryChar url pos = none) :
    parsePchar url pos = none ∧ charAt url pos ≠ '/'.toNat ∧ charAt url pos ≠ '?'.toNat := by
  unfold parseQueryChar at h
  split at h
  · cases h
  rename_i hpchar
  split at h
  · cases h
  refine ⟨hpchar, fun hc => ?_, fun hc => ?_⟩ <;>
    (rw [hc] at h; revert h; exact fun h => absurd h (by simp))

theorem parseQuery_ends {url : U16String} {first pos : Nat} (henc : EncodedFrom url first)
    (hfirst : first ≤ pos) (hpos : pos ≤ url.length) :
    Ends isQueryText url (parseQuery url pos) := by
  have hread := parseQuery_reads url hpos
  rcases skipWhile_ends parseQueryChar_reader url url.length pos hpos (Nat.le_add_left _ _) with
    hend | hnone
  · exact .inl hend
  by_cases hlt : parseQuery url pos < url.length
  · obtain ⟨hpchar, hslash, hquestion⟩ := parseQueryChar_none hnone
    have hdelimiter := parsePchar_none (henc _ (Nat.le_trans hfirst hread.le) hlt) hpchar
    rcases delimiter_cases hdelimiter with hc | hc | hc
    · exact absurd hc hslash
    · exact absurd hc hquestion
    · refine .inr ?_
      rw [show charAt url (parseQuery url pos) = _ from hc]
      decide
  · exact .inl (Nat.le_antisymm hread.inString (Nat.le_of_not_lt hlt))

theorem parseFragmentChar_none {url : U16String} {pos : Nat}
    (h : parseFragmentChar url pos = none) :
    parsePchar url pos = none ∧ isAuthorityText (charAt url pos) = true := by
  unfold parseFragmentChar at h
  split at h
  · cases h
  rename_i hpchar
  refine ⟨hpchar, Decidable.byContradiction fun hdelimiter => ?_⟩
  rcases delimiter_cases (Bool.eq_false_iff.mpr hdelimiter) with hc | hc | hc <;>
    (rw [hc] at h; revert h; exact fun h => absurd h (by simp))

theorem parseFragment_ends {url : U16String} {first pos : Nat} (henc : EncodedFrom url first)
    (hfirst : first ≤ pos) (hpos : pos ≤ url.length) :
    url.length ≤ parseFragment url pos := by
  have hread := parseFragment_reads url hpos
  rcases skipWhile_ends parseFragmentChar_reader url url.length pos hpos (Nat.le_add_left _ _) with
    hend | hnone
  · exact Nat.le_of_eq hend.symm
  refine Nat.le_of_not_lt fun hlt => ?_
  obtain ⟨hpchar, hchar⟩ := parseFragmentChar_none hnone
  have hdelimiter := parsePchar_none (henc _ (Nat.le_trans hfirst hread.le) hlt) hpchar
  exact Bool.false_ne_true (hdelimiter.symm.trans hchar)

/-! ## Positions and texts -/

theorem drop_eq_substr_append {url : U16String} {i j : Nat} (hij : i ≤ j) (hj : j ≤ url.length) :
    url.drop i = substr url i j ++ url.drop j := by
  have h := substr_append url hij hj
  have hrest (k : Nat) (hk : k ≤ url.length) : substr url k url.length = url.drop k := by
    rw [substr, List.take_of_length_le (by rw [List.length_drop])]
  rwa [hrest j hj, hrest i (Nat.le_trans hij hj), eq_comm] at h

/-- What was read up to the end of its component is the component of the text. -/
theorem Reads.span {p : Nat → Bool} {url : U16String} {pos stop : Nat}
    (hread : Reads p url pos stop) (hend : Ends p url stop) :
    EsOs.Escort.substr url pos stop = (url.drop pos).takeWhile p ∧
      url.drop stop = (url.drop pos).dropWhile p := by
  have hsplit := drop_eq_substr_append hread.le hread.inString
  have hnext : ∀ c, (url.drop stop).head? = some c → p c = false := by
    intro c hc
    rcases hend with rfl | hend
    · rw [List.drop_length] at hc
      cases hc
    · rw [List.head?_drop] at hc
      obtain ⟨hlt, hget⟩ := List.getElem?_eq_some_iff.mp hc
      rw [charAt_eq hlt, hget] at hend
      exact hend
  have h := Uri.span_append (url.drop stop) hread.substr hnext
  rw [← hsplit] at h
  exact ⟨h.1.symm, h.2.symm⟩

/-- The character at a position is the first one of what is left. -/
theorem head?_drop_of_charAt {url : U16String} {pos c : Nat} (h : charAt url pos = c)
    (hc : c ≠ 0) : url.drop pos = c :: url.drop (pos + 1) := by
  have hlt := lt_of_charAt h hc
  rw [List.drop_eq_getElem_cons hlt, ← charAt_eq hlt, h]

theorem charAt_drop (url : U16String) (pos i : Nat) :
    charAt (url.drop pos) i = charAt url (pos + i) := by
  simp only [charAt, List.getD, List.getElem?_drop]

theorem encodedFrom_of_drop {url : U16String} {first : Nat} (h : WellEncoded (url.drop first)) :
    EncodedFrom url first := by
  intro i hi hlt hpercent
  have hlen : i - first < (url.drop first).length := by rw [List.length_drop]; omega
  have hat (k : Nat) : charAt (url.drop first) (i - first + k) = charAt url (i + k) := by
    rw [charAt_drop]
    congr 1
    omega
  have := h (i - first) hlen (by rw [← Nat.add_zero (i - first), hat, Nat.add_zero, hpercent])
  rwa [hat, hat] at this

theorem WellEncoded.drop {text : U16String} (h : WellEncoded text) (n : Nat) :
    WellEncoded (text.drop n) := by
  intro i hi hpercent
  rw [List.length_drop] at hi
  rw [charAt_drop] at hpercent
  rw [charAt_drop, charAt_drop]
  exact h (n + i) (by omega) hpercent

theorem WellEncoded.slash {text : U16String} (h : WellEncoded text) :
    WellEncoded (Uri.slash :: text) := by
  intro i hi hpercent
  cases i with
  | zero => exact absurd (show Uri.slash = '%'.toNat from hpercent) (by decide)
  | succ i => exact h i (by simpa using hi) hpercent

namespace Url

/-- The search and the hash behind a path are the components of what is left. -/
theorem Tailed.exact {u v : Url} {p s : Nat} (h : u.Tailed v p s) :
    v.getSearch = Uri.withDelimiter Uri.questionMark (Uri.splitQuery (u.url.drop p)).1 ∧
      v.getHash = Uri.withDelimiter Uri.numberSign
        (Uri.splitFragment (Uri.splitQuery (u.url.drop p)).2) := by
  have hurl : v.url = u.url := by rw [h.same]
  have hsearch : v.getSearch = substr u.url p s := by
    rw [getSearch, hurl]
    exact h.search.substr_eq u.url
  have hrest : u.url.drop s = substr u.url s u.url.length := by
    rw [substr, List.take_of_length_le (by rw [List.length_drop])]
  have hhash : v.getHash = u.url.drop s := by
    rw [getHash, hurl, hrest]
    exact h.hash.substr_eq u.url
  have hends : Ends isQueryText u.url s := by
    by_cases hs : s = u.url.length
    · exact .inl hs
    · exact .inr (by rw [h.number hs]; decide)
  have hfragment : u.url.drop s =
      Uri.withDelimiter Uri.numberSign (Uri.splitFragment (u.url.drop s)) := by
    by_cases hs : s = u.url.length
    · rw [hs, List.drop_length]
      rfl
    · rw [head?_drop_of_charAt (h.number hs) (by decide)]
      rfl
  suffices hsplit : Uri.withDelimiter Uri.questionMark (Uri.splitQuery (u.url.drop p)).1 =
      substr u.url p s ∧ (Uri.splitQuery (u.url.drop p)).2 = u.url.drop s by
    rw [hsplit.1, hsplit.2, ← hfragment]
    exact ⟨hsearch, hhash⟩
  by_cases hps : p = s
  · subst hps
    have hnone : Uri.splitQuery (u.url.drop p) = (none, u.url.drop p) := by
      by_cases hp : p = u.url.length
      · rw [hp, List.drop_length]
        rfl
      · rw [head?_drop_of_charAt (h.number hp) (by decide)]
        rfl
    rw [hnone, substr_self]
    exact ⟨rfl, rfl⟩
  · have hquestion := h.question hps
    have hdrop := head?_drop_of_charAt hquestion (by decide)
    have hle := h.query.le
    have hread : Reads isQueryText u.url (p + 1) s :=
      ⟨by omega, h.query.inString, fun i hi hlt => h.query.all i (by omega) hlt⟩
    obtain ⟨htake, hdropWhile⟩ := hread.span hends
    have hsome : Uri.splitQuery (u.url.drop p) =
        (some (substr u.url (p + 1) s), u.url.drop s) := by
      rw [hdrop, htake, hdropWhile]
      rfl
    rw [hsome]
    refine ⟨?_, rfl⟩
    have hone : substr u.url p (p + 1) = [Uri.questionMark] := by
      rw [substr, hdrop]
      simp [Uri.questionMark]
    rw [← substr_append u.url (Nat.le_succ p) hread.le, hone]
    rfl

theorem parseHash_ends {u : Url} {s : Nat} (hs : s ≤ u.url.length)
    (henc : EncodedFrom u.url s) (hend : s = u.url.length ∨ charAt u.url s = '#'.toNat) :
    ∃ v, u.parseHash s = some v := by
  refine Option.isSome_iff_exists.mp ((parseHash_isSome u s).mpr ?_)
  rcases hend with hend | hnumber
  · exact .inl (Nat.le_of_eq hend.symm)
  · have hlt := lt_of_charAt hnumber (by decide)
    exact .inr ⟨hnumber, parseFragment_ends henc (Nat.le_succ s) hlt⟩

/-- Behind a well-encoded path everything is read. -/
theorem parseTail_ends {u : Url} {p : Nat} (hp : p ≤ u.url.length) (henc : EncodedFrom u.url p)
    (hend : Ends isPathText u.url p) :
    ∃ v, (u.parseSearch p).1.parseHash (u.parseSearch p).2 = some v := by
  by_cases hquestion : charAt u.url p = '?'.toNat
  · have hlt := lt_of_charAt hquestion (by decide)
    have hread := parseQuery_reads u.url hlt
    have hquery := parseQuery_ends henc (Nat.le_succ p) hlt
    rw [parseSearch, if_pos hquestion]
    refine parseHash_ends (u := { u with searchStart := p, searchEnd := parseQuery u.url (p + 1) })
      hread.inString (fun i hi => henc i (Nat.le_trans (Nat.le_of_lt hread.le) hi)) ?_
    refine hquery.imp_right fun hc => ?_
    simp only [isQueryText, decide_eq_false_iff_not, Decidable.not_not] at hc
    exact hc
  · rw [parseSearch, if_neg hquestion]
    refine parseHash_ends hp henc ?_
    refine hend.imp_right fun hc => ?_
    simp only [isPathText, Bool.and_eq_false_iff, decide_eq_false_iff_not, Decidable.not_not] at hc
    exact hc.resolve_left hquestion

/-- A reference from a position on where its path starts. -/
theorem parsePath_exact {w : Url} {pos : Nat} (hw : w.Fronted) (henc : EncodedFrom w.url pos)
    (hlt : pos < w.url.length) :
    ∃ v s, (((w.setPathname pos (parseRelativePath w.url pos)).parseSearch
        (parseRelativePath w.url pos)).1.parseHash
        ((w.setPathname pos (parseRelativePath w.url pos)).parseSearch
          (parseRelativePath w.url pos)).2) = some v ∧
      (w.setPathname pos (parseRelativePath w.url pos)).Tailed v (parseRelativePath w.url pos) s ∧
      v.Reference ∧
      v.getPathname = (w.url.drop pos).takeWhile isPathText ∧
      w.url.drop (parseRelativePath w.url pos) = (w.url.drop pos).dropWhile isPathText := by
  have hread := parseRelativePath_reads w.url (Nat.le_of_lt hlt)
  have hends := parseRelativePath_ends henc hlt
  obtain ⟨v, hv⟩ := parseTail_ends (u := w.setPathname pos (parseRelativePath w.url pos))
    hread.inString (fun i hi => henc i (Nat.le_trans hread.le hi)) hends
  obtain ⟨s, ht⟩ := parseTail_spec (u := w.setPathname pos (parseRelativePath w.url pos))
    hw.opened hread.inString hv
  obtain ⟨htake, hdrop⟩ := hread.span hends
  refine ⟨v, s, hv, ht, hw.reference hread ht, ?_, hdrop⟩
  rw [getPathname, show v.url = w.url by rw [ht.same]; rfl,
    show v.pathnameStart = pos by rw [ht.same]; rfl,
    show v.pathnameEnd = parseRelativePath w.url pos by rw [ht.same]; rfl, htake]

end Url

end EsOs.Escort
