import EsOs.Escort.Proofs.Host

/-!
# The host as the whole authority

A URL of an http scheme is accepted although the parser stops inside of its authority: what is left
becomes the path, behind the slash that is put there. That happens exactly when a host starts the
authority, something is left of it behind the port, and the text is well encoded.
-/

namespace EsOs.Escort

open Digits Address Url
open Uri (isAuthorityText isPathText)

/-! ## Texts of the http schemes -/

/-- The text is a URL of an http scheme, with `rest` behind the slashes. -/
structure HttpText (text scheme rest : U16String) : Prop where
  text : stripLeadingAndTrailingWhitespace text = scheme ++ literal "://" ++ rest
  scheme : scheme.map toLower = literal "http" ∨ scheme.map toLower = literal "https"

/-- What stands behind a port, where there is one. -/
def behindPort : U16String → U16String
  | [] => []
  | c :: rest => if c = ':'.toNat then rest.dropWhile isDigit else c :: rest

/-- A host starts the well-encoded text, and its authority goes on behind the port. -/
def leavesAuthority (rest : U16String) : Prop :=
  WellEncoded rest ∧ ∃ behind, StartsHost rest behind ∧
    ∃ c, (behindPort behind).head? = some c ∧ isAuthorityText c = true

/-- The text is a URL of an http scheme whose authority is not read to its end. -/
def splitsAuthority (text : U16String) : Prop :=
  ∃ scheme rest, HttpText text scheme rest ∧ leavesAuthority rest

/-- If the string is accepted as a URL of an http scheme, then its host is the authority of the
    string, up to the case of letters. -/
def hostIsAuthority (text : U16String) : Prop :=
  (ofString text).getProtocol ∈ [literal "http:", literal "https:"] →
    ∃ authority, (Uri.split (stripLeadingAndTrailingWhitespace text)).authority = some authority ∧
      (ofString text).getHost.map toLower = authority.map toLower

/-! ## The scheme -/

theorem isAlpha_of_toLower {c : Nat} (h : isAlpha (toLower c) = true) : isAlpha c = true := by
  unfold toLower at h
  split at h
  · rename_i hupper
    simp only [isAlpha, Bool.or_eq_true, Bool.and_eq_true, decide_eq_true_eq]
    exact .inl hupper
  · exact h

theorem HttpText.alpha {text scheme rest : U16String} (h : HttpText text scheme rest) :
    ∀ c ∈ scheme, isAlpha c = true := by
  intro c hc
  have hmem : toLower c ∈ scheme.map toLower := List.mem_map_of_mem hc
  refine isAlpha_of_toLower ?_
  revert hmem
  rcases h.scheme with hs | hs <;> rw [hs] <;> generalize toLower c = d <;> revert d <;> decide

/-- The components of such a text. -/
theorem HttpText.authority {text scheme rest : U16String} (h : HttpText text scheme rest) :
    (Uri.split (stripLeadingAndTrailingWhitespace text)).authority =
      some (rest.takeWhile isAuthorityText) := by
  have hscheme : ∀ c ∈ scheme, Uri.isSchemeText c = true := fun c hc =>
    isSchemeText_of_isSchemeChar (by simp [isSchemeChar, isAlnum, h.alpha c hc])
  have hne : scheme ≠ [] := by
    rintro rfl
    rcases h.scheme with hs | hs <;> cases hs
  have hspan := Uri.span_append (literal "://" ++ rest) hscheme fun c hc => by
    rw [← Option.some.inj hc]
    decide
  have hsplit : Uri.splitScheme (scheme ++ (literal "://" ++ rest)) =
      (some scheme, literal "//" ++ rest) := by
    rw [Uri.splitScheme, hspan.1, hspan.2]
    exact if_pos ⟨rfl, hne⟩
  rw [h.text, List.append_assoc, Uri.split, hsplit]
  rfl

/-- The URL of such a text after its scheme was read. -/
def schemeRead (scheme rest : U16String) : Url :=
  { unparsed (scheme.map toLower ++ literal "://" ++ rest) with protocolEnd := scheme.length + 1 }

@[simp] theorem schemeRead_url (scheme rest : U16String) :
    (schemeRead scheme rest).url = scheme.map toLower ++ literal "://" ++ rest := rfl

@[simp] theorem schemeRead_protocolEnd (scheme rest : U16String) :
    (schemeRead scheme rest).protocolEnd = scheme.length + 1 := rfl

theorem HttpText.hasScheme {text scheme rest : U16String} (h : HttpText text scheme rest) :
    (unparsed (stripLeadingAndTrailingWhitespace text)).hasScheme =
      some (schemeRead scheme rest) := by
  obtain ⟨c, tail, rfl⟩ : ∃ c tail, scheme = c :: tail := by
    refine List.exists_cons_of_ne_nil ?_
    rintro rfl
    rcases h.scheme with hs | hs <;> cases hs
  have hchars : ∀ d ∈ tail, isSchemeChar d = true := fun d hd => by
    simp [isSchemeChar, isAlnum, h.alpha d (List.mem_cons_of_mem c hd)]
  have hspan := Uri.span_append (literal "://" ++ rest) hchars fun d hd => by
    rw [← Option.some.inj hd]
    decide
  have hstring : stripLeadingAndTrailingWhitespace text = c :: (tail ++ (literal "://" ++ rest)) := by
    rw [h.text, List.append_assoc]
    rfl
  have hcolon : charAt (c :: (tail ++ (literal "://" ++ rest))) (1 + tail.length) =
      ':'.toNat := by
    rw [Nat.add_comm, ← List.cons_append]
    exact (charAt_append_right (Nat.le_refl (c :: tail).length)).trans (by rw [Nat.sub_self]; rfl)
  have hparts : c :: (tail ++ (literal "://" ++ rest)) =
      (c :: tail ++ [':'.toNat]) ++ (literal "//" ++ rest) := by
    simp [literal]
  have hlen : (c :: tail ++ [':'.toNat]).length = 1 + tail.length + 1 := by
    simp [Nat.add_comm]
  rw [hstring]
  unfold Url.hasScheme
  rw [if_pos (show isAlpha (charAt (unparsed (c :: (tail ++ (literal "://" ++ rest)))).url 0) = true
    from h.alpha c List.mem_cons_self)]
  have htail : ((c :: (tail ++ (literal "://" ++ rest))).drop 1).takeWhile isSchemeChar = tail :=
    hspan.1
  simp only [unparsed, htail]
  rw [if_pos hcolon, hparts, List.take_left' hlen, List.drop_left' hlen, List.map_append,
    Nat.add_comm 1 tail.length]
  have hlower : [':'.toNat].map toLower = [':'.toNat] := by decide
  rw [hlower, schemeRead, unparsed]
  simp [literal]

/-- The string is accepted when it is read as a URL of its scheme. -/
theorem HttpText.ofString {text scheme rest : U16String} (h : HttpText text scheme rest) :
    Url.ofString text = ((schemeRead scheme rest).parseHTTP (scheme.length + 1)).getD cleared := by
  have htake : (schemeRead scheme rest).url.take ((schemeRead scheme rest).protocolEnd - 1) =
      scheme.map toLower := by
    rw [schemeRead_url, schemeRead_protocolEnd, Nat.add_sub_cancel, List.append_assoc]
    exact List.take_left' (List.length_map _)
  have hprotocol : ((schemeRead scheme rest).hasProtocol "http" ||
      (schemeRead scheme rest).hasProtocol "https") = true := by
    simp only [hasProtocol, htake, Bool.or_eq_true, decide_eq_true_eq]
    exact h.scheme
  unfold Url.ofString
  rw [h.hasScheme]
  simp only [Url.parse, hprotocol, if_true, schemeRead_protocolEnd]

theorem HttpText.started {text scheme rest : U16String} (h : HttpText text scheme rest) :
    (schemeRead scheme rest).Started :=
  started_of_hasScheme h.hasScheme

/-! ## Protocols -/

/-- The protocol stays what was read of it. -/
theorem parseHTTP_protocol {u v : Url} (hu : u.Started)
    (h : u.parseHTTP u.protocolEnd = some v) : v.getProtocol = u.getProtocol := by
  unfold parseHTTP at h
  split at h
  · rename_i hsl
    have hsub : u.protocolEnd + 2 ≤ u.url.length := (startsAt_two rfl hsl).1
    split at h
    · cases h
    rename_i w stop hauthority
    obtain ⟨hw, hlt⟩ := parseAuthority_spec hsub hauthority
    have hpath := parsePath_reads w.url (Nat.le_of_lt hw.lt)
    obtain ⟨s, ht⟩ := parseTail_spec (u := w.setPathname stop (parsePath w.url stop))
      (hw.open hu.open) hpath.inString h
    have hurl : v.url = w.url := by rw [ht.same]; rfl
    have hend : v.protocolEnd = u.protocolEnd := by rw [ht.same, hw.same]; rfl
    have := hw.lt
    refine getProtocol_congr hend hu.schemed.le (by rw [hurl, hend]; omega) fun i hi => ?_
    rw [hurl, hw.front i (by omega)]
  · cases h

theorem parseFile_protocol {u v : Url} (hu : u.Started)
    (h : u.parseFile u.protocolEnd = some v) : v.getProtocol = u.getProtocol := by
  unfold parseFile at h
  split at h
  · rename_i hsl
    have hsub : u.protocolEnd + 2 ≤ u.url.length := (startsAt_two rfl hsl).1
    have hw := parseFileHost_spec hsub
    have hpath := parsePath_reads (u.parseFileHost (u.protocolEnd + 2)).1.url
      (Nat.le_of_lt hw.lt)
    dsimp only at h
    generalize (u.parseFileHost (u.protocolEnd + 2)).2 = stop at h hw hpath
    generalize (u.parseFileHost (u.protocolEnd + 2)).1 = w at h hw hpath
    have ht := parseHash_tailed (u := w.setPathname stop (parsePath w.url stop))
      (hw.open hu.open) hpath.inString h
    have hurl : v.url = w.url := by rw [ht.same]; rfl
    have hend : v.protocolEnd = u.protocolEnd := by rw [ht.same, hw.same]; rfl
    have := hw.lt
    have := hw.host.le
    refine getProtocol_congr hend hu.schemed.le (by rw [hurl, hend]; omega) fun i hi => ?_
    rw [hurl, hw.front i (by omega)]
  · cases h

/-- A URL that is accepted as one of an http scheme was read as such. -/
theorem http_of_parse {u v : Url} (hu : u.Started) (h : u.parse = some v)
    (hv : v.getProtocol ∈ [literal "http:", literal "https:"]) :
    (u.hasProtocol "http" = true ∨ u.hasProtocol "https" = true) ∧
      u.parseHTTP u.protocolEnd = some v := by
  have hflat (hf : v.Flat) : False := by
    have hp := hf.protocol
    simp only [List.mem_cons, List.not_mem_nil, or_false] at hp hv
    rcases hp with hp | hp <;> rw [hp] at hv <;> revert hv <;> decide
  unfold parse at h
  split at h
  · rename_i hhttp
    exact ⟨Bool.or_eq_true_iff.mp hhttp, h⟩
  split at h
  · rename_i hfile
    rw [parseFile_protocol hu h, protocol_of_hasProtocol hu.schemed hfile] at hv
    exact absurd hv (by decide)
  split at h
  · rename_i habout
    exact absurd (parseAbout_spec hu (protocol_of_hasProtocol hu.schemed habout) h) hflat
  split at h
  · rename_i hdata
    exact absurd (parseData_spec hu (protocol_of_hasProtocol hu.schemed hdata) h) hflat
  · cases h

/-- What `hasScheme` finds: a colon, and the letters before it in lower case. -/
theorem hasScheme_exact {s : U16String} {u : Url} (h : (unparsed s).hasScheme = some u) :
    ∃ pos, charAt s pos = ':'.toNat ∧ u.protocolEnd = pos + 1 ∧
      u.url = (s.take (pos + 1)).map toLower ++ s.drop (pos + 1) := by
  unfold Url.hasScheme at h
  split at h
  · dsimp only at h
    split at h
    · rename_i hcolon
      obtain rfl := Option.some.inj h
      exact ⟨_, hcolon, rfl, rfl⟩
    · cases h
  · cases h

/-- A string that is accepted as a URL of an http scheme is a text of that scheme. -/
theorem httpText_of_ofString {text : U16String}
    (h : (Url.ofString text).getProtocol ∈ [literal "http:", literal "https:"]) :
    ∃ scheme rest, HttpText text scheme rest := by
  have hcleared : ¬ cleared.getProtocol ∈ [literal "http:", literal "https:"] := by decide
  unfold Url.ofString at h
  cases hscheme : (unparsed (stripLeadingAndTrailingWhitespace text)).hasScheme with
  | none =>
    rw [hscheme] at h
    exact absurd h hcleared
  | some u =>
    rw [hscheme] at h
    dsimp only at h
    cases hparse : u.parse with
    | none =>
      rw [hparse] at h
      exact absurd h hcleared
    | some v =>
      rw [hparse] at h
      obtain ⟨hprotocol, hhttp⟩ := http_of_parse (started_of_hasScheme hscheme) hparse h
      obtain ⟨pos, hcolon, hend, hurl⟩ := hasScheme_exact hscheme
      generalize hs : stripLeadingAndTrailingWhitespace text = s at hcolon hurl
      have hlt := lt_of_charAt hcolon colon_ne_zero
      have hlen : ((s.take (pos + 1)).map toLower).length = pos + 1 := by
        rw [List.length_map, List.length_take]
        omega
      have hslashes : startsAt u.url u.protocolEnd "//" = true := by
        by_contra hne
        rw [parseHTTP, if_neg hne] at hhttp
        cases hhttp
      have hrest : s.drop (pos + 1) = literal "//" ++ s.drop (pos + 3) := by
        have htake := of_decide_eq_true hslashes
        rw [hurl, hend, List.drop_left' hlen] at htake
        rw [← List.take_append_drop 2 (s.drop (pos + 1)), List.drop_drop]
        exact congrArg (· ++ s.drop (pos + 3)) htake
      have hfront : s = s.take pos ++ literal "://" ++ s.drop (pos + 3) := by
        rw [List.append_assoc]
        conv => lhs; rw [← List.take_append_drop pos s, head?_drop_of_charAt hcolon colon_ne_zero,
          hrest]
        rfl
      have hlower : (s.take pos).map toLower = u.url.take (u.protocolEnd - 1) := by
        rw [hurl, hend, Nat.add_sub_cancel, List.take_append_of_le_length (by omega),
          ← List.map_take, List.take_take, Nat.min_eq_left (Nat.le_succ pos)]
      refine ⟨s.take pos, s.drop (pos + 3), hs.trans hfront, ?_⟩
      rw [hlower]
      exact hprotocol.imp of_decide_eq_true of_decide_eq_true

/-! ## The authority -/

/-- Where the authority stops: behind the port. -/
theorem parseAuthority_stop {u w : Url} {pos stop : Nat} (hpos : pos ≤ u.url.length)
    (h : u.parseAuthority pos = some (w, stop)) :
    pos < (parseHost u.url pos).2 ∧ w.url = insertSlash (parseHost u.url pos).1 stop ∧
      u.url.drop stop = behindPort (u.url.drop (parseHost u.url pos).2) := by
  have hhost := parseHost_reads u.url hpos
  simp only [parseAuthority] at h
  split at h
  · cases h
  rename_i hne
  have hlt : pos < (parseHost u.url pos).2 := Nat.lt_of_le_of_ne hhost.reads.le (Ne.symm hne)
  have hdrop {k : Nat} (hk : (parseHost u.url pos).2 ≤ k) :
      (parseHost u.url pos).1.drop k = u.url.drop k := drop_of_hostRead hhost hk
  generalize (parseHost u.url pos).1 = url at h hhost hdrop
  generalize (parseHost u.url pos).2 = nameEnd at h hhost hdrop hlt
  simp only [decide_eq_true_eq, Option.some.injEq, Prod.mk.injEq] at h
  obtain ⟨rfl, hstop⟩ := h
  refine ⟨hlt, by simp only [hstop], ?_⟩
  have hchar : charAt url nameEnd = charAt u.url nameEnd := hhost.outside nameEnd (.inr (Nat.le_refl _))
  by_cases hcolon : charAt url nameEnd = ':'.toNat
  · simp only [hcolon, if_true] at hstop
    rw [head?_drop_of_charAt (hchar.symm.trans hcolon) colon_ne_zero, behindPort, if_pos rfl,
      ← hstop, skipDigits, hdrop (Nat.le_succ nameEnd)]
    exact (stands_of_drop (List.takeWhile_append_dropWhile (p := isDigit)).symm).2
  · simp only [hcolon, if_false] at hstop
    rw [← hstop]
    cases hrest : u.url.drop nameEnd with
    | nil => rfl
    | cons c rest =>
      have hc : charAt u.url nameEnd = c := head?_drop hrest rfl
      rw [behindPort, if_neg fun heq => hcolon (hchar.trans (hc.trans heq))]

theorem parseAuthority_isSome {u : Url} {pos : Nat} (h : pos < (parseHost u.url pos).2) :
    ∃ w stop, u.parseAuthority pos = some (w, stop) := by
  simp only [parseAuthority]
  rw [if_neg (Nat.ne_of_gt h)]
  exact ⟨_, _, rfl⟩

theorem wellEncoded_drop {url : U16String} {first : Nat} :
    WellEncoded (url.drop first) ↔ EncodedFrom url first := by
  refine ⟨encodedFrom_of_drop, fun h i hi hc => ?_⟩
  rw [List.length_drop] at hi
  rw [charAt_drop] at hc
  rw [charAt_drop, charAt_drop]
  exact h (first + i) (Nat.le_add_right _ _) (by omega) hc

theorem wellEncoded_slashed {rest : U16String} : WellEncoded (slashed rest) ↔ WellEncoded rest := by
  unfold slashed
  split
  · rfl
  · exact ⟨fun h => h.drop 1, fun h => h.slash⟩

/-- What stands behind the authority decides whether the string is accepted. -/
theorem parseHTTP_isSome {u w : Url} {stop : Nat} (hu : u.Started)
    (hslashes : startsAt u.url u.protocolEnd "//" = true)
    (h : u.parseAuthority (u.protocolEnd + 2) = some (w, stop)) :
    (∃ v, u.parseHTTP u.protocolEnd = some v) ↔ WellEncoded (u.url.drop stop) := by
  have hsub : u.protocolEnd + 2 ≤ u.url.length := (startsAt_two rfl hslashes).1
  obtain ⟨hw, hlt⟩ := parseAuthority_spec hsub h
  obtain ⟨hurl, hname, hstop, -⟩ := parseAuthority_url hsub h
  have hhost := parseHost_reads u.url hsub
  have hwdrop : w.url.drop stop = slashed (u.url.drop stop) := by
    rw [hurl, insertSlash_drop (by rw [hhost.length]; exact hstop), drop_of_hostRead hhost hname]
  have hpath := parsePath_reads w.url (Nat.le_of_lt hw.lt)
  rw [← wellEncoded_slashed, ← hwdrop, wellEncoded_drop, parseHTTP, if_pos hslashes, h]
  dsimp only
  constructor
  · rintro ⟨v, hv⟩ i hi hlt hc
    exact (parsePath_encoded w.url stop).trans
      (parseTail_encoded (u := w.setPathname stop (parsePath w.url stop)) hv) i hi hlt hc
  · intro henc
    exact parseTail_ends (u := w.setPathname stop (parsePath w.url stop)) hpath.inString
      (fun i hi => henc i (Nat.le_trans hpath.le hi))
      (parsePath_ends henc (Nat.le_refl stop) hw.slash)

/-- The host is what was read of the authority, up to the case of letters. -/
theorem parseHTTP_host {u v w : Url} {stop : Nat} (hu : u.Started)
    (hslashes : startsAt u.url u.protocolEnd "//" = true)
    (h : u.parseAuthority (u.protocolEnd + 2) = some (w, stop))
    (hv : u.parseHTTP u.protocolEnd = some v) :
    v.getHost.map toLower = (substr u.url (u.protocolEnd + 2) stop).map toLower ∧
      ∀ c ∈ substr u.url (u.protocolEnd + 2) stop, isAuthorityText c = true := by
  have hsub : u.protocolEnd + 2 ≤ u.url.length := (startsAt_two rfl hslashes).1
  obtain ⟨hw, hlt⟩ := parseAuthority_spec hsub h
  obtain ⟨hurl, hname, hstop, -⟩ := parseAuthority_url hsub h
  have hhost := parseHost_reads u.url hsub
  have hpath := parsePath_reads w.url (Nat.le_of_lt hw.lt)
  rw [parseHTTP, if_pos hslashes, h] at hv
  obtain ⟨s, ht⟩ := parseTail_spec (u := w.setPathname stop (parsePath w.url stop))
    (hw.open hu.open) hpath.inString hv
  have hget : v.getHost = substr w.url (u.protocolEnd + 2) stop := by
    rw [getHost, show v.url = w.url by rw [ht.same]; rfl,
      show v.hostStart = u.protocolEnd + 2 by rw [ht.same, hw.same]; rfl,
      show v.hostEnd = stop by rw [ht.same, hw.same]; rfl]
  -- The slash and the letters in lower case are all that differs.
  have hchar (i : Nat) (hi : i < stop) : toLower (charAt w.url i) = toLower (charAt u.url i) := by
    rw [hurl, (insertSlash_spec _ (by rw [hhost.length]; exact hstop)).2 i hi, parseHost_case]
  have hwlt := hw.lt
  refine ⟨?_, ?_⟩
  · rw [hget]
    refine List.ext_getElem ?_ fun i hi hi' => ?_
    · rw [List.length_map, List.length_map, length_substr (by omega), length_substr hstop]
    · rw [List.length_map, length_substr (by omega)] at hi
      have hc := hchar (u.protocolEnd + 2 + i) (by omega)
      rw [charAt_eq (by omega), charAt_eq (by omega)] at hc
      simpa [substr] using hc
  · refine Reads.substr ⟨Nat.le_of_lt hlt, hstop, fun i hi hlt => ?_⟩
    rw [← isAuthorityText_toLower, ← hchar i hlt, isAuthorityText_toLower]
    exact hw.host.all i hi hlt

/-! ## What is left of the authority -/

theorem wellEncoded_append {front rest : U16String} (hfront : '%'.toNat ∉ front)
    (h : WellEncoded rest) : WellEncoded (front ++ rest) := by
  intro i hi hc
  rw [List.length_append] at hi
  by_cases hlt : i < front.length
  · rw [charAt_append_left hlt, charAt_eq hlt] at hc
    exact absurd (hc ▸ List.getElem_mem hlt) hfront
  · have hle := Nat.le_of_not_lt hlt
    rw [charAt_append_right hle] at hc
    rw [charAt_append_right (by omega), charAt_append_right (by omega),
      show i + 1 - front.length = i - front.length + 1 by omega,
      show i + 2 - front.length = i - front.length + 2 by omega]
    exact h (i - front.length) (by omega) hc

/-- A port has no percent signs. -/
theorem wellEncoded_of_behindPort {behind : U16String} (h : WellEncoded (behindPort behind)) :
    WellEncoded behind := by
  cases behind with
  | nil => exact h
  | cons c rest =>
    rw [behindPort] at h
    split at h
    · rename_i hcolon
      rw [← List.takeWhile_append_dropWhile (p := isDigit) (l := rest), ← List.cons_append]
      refine wellEncoded_append (fun hmem => ?_) h
      rcases List.mem_cons.mp hmem with hc | hc
      · rw [hcolon] at hc
        revert hc
        decide
      · exact absurd (List.mem_takeWhile_imp hc) (by decide)
    · exact h

/-- What is left behind the port of an accepted URL. -/
theorem leavesAuthority_iff {u w : Url} {stop : Nat} (hpos : 0 < u.protocolEnd + 2)
    (hsub : u.protocolEnd + 2 ≤ u.url.length)
    (h : u.parseAuthority (u.protocolEnd + 2) = some (w, stop))
    (hrest : WellEncoded (u.url.drop stop)) :
    leavesAuthority (u.url.drop (u.protocolEnd + 2)) ↔
      ∃ c, (u.url.drop stop).head? = some c ∧ isAuthorityText c = true := by
  obtain ⟨hlt, -, hbehind⟩ := parseAuthority_stop hsub h
  have hname := (parseAuthority_url hsub h).2.1
  constructor
  · rintro ⟨henc, behind, hstarts, hc⟩
    rwa [hbehind, (hstarts.parseHost hpos hsub henc).2]
  · rintro ⟨c, hhead, hc⟩
    have hmore : stop < u.url.length := by
      by_contra hlen
      rw [List.drop_eq_nil_of_le (Nat.le_of_not_lt hlen)] at hhead
      cases hhead
    have henc : WellEncoded (u.url.drop (u.protocolEnd + 2)) := by
      have hport : EncodedFrom u.url (parseHost u.url (u.protocolEnd + 2)).2 :=
        wellEncoded_drop.mp (wellEncoded_of_behindPort (hbehind ▸ hrest))
      refine wellEncoded_drop.mpr fun i hi hilt => ?_
      by_cases hend : i < (parseHost u.url (u.protocolEnd + 2)).2
      · exact parseHost_encoded u.url _ i hi hend
      · exact hport i (Nat.le_of_not_lt hend) hilt
    refine ⟨henc, _, startsHost_of_parseHost hpos hsub henc hlt
      (Nat.lt_of_le_of_lt hname hmore), c, ?_, hc⟩
    rwa [← hbehind]

theorem hostIsAuthority_of_http {text scheme rest : U16String} (h : HttpText text scheme rest) :
    hostIsAuthority text ↔ ¬ leavesAuthority rest := by
  have hu := h.started
  have hparts : (schemeRead scheme rest).url =
      (scheme.map toLower ++ literal "://") ++ rest := schemeRead_url scheme rest
  have hlen : (scheme.map toLower ++ literal "://").length = scheme.length + 1 + 2 := by
    rw [List.length_append, List.length_map]
    rfl
  have hdrop : (schemeRead scheme rest).url.drop ((schemeRead scheme rest).protocolEnd + 2) =
      rest := by
    rw [hparts, schemeRead_protocolEnd, List.drop_left' hlen]
  have hslashes : startsAt (schemeRead scheme rest).url (schemeRead scheme rest).protocolEnd
      "//" = true := by
    have hcolon : (scheme.map toLower ++ [':'.toNat]).length = scheme.length + 1 := by
      rw [List.length_append, List.length_map]
      rfl
    rw [startsAt, schemeRead_protocolEnd, hparts,
      show scheme.map toLower ++ literal "://" ++ rest =
        (scheme.map toLower ++ [':'.toNat]) ++ (literal "//" ++ rest) by simp [literal],
      List.drop_left' hcolon]
    rfl
  have hsub : (schemeRead scheme rest).protocolEnd + 2 ≤ (schemeRead scheme rest).url.length :=
    (startsAt_two rfl hslashes).1
  have hprotocol : (schemeRead scheme rest).getProtocol ∈ [literal "http:", literal "https:"] := by
    have htake : (schemeRead scheme rest).getProtocol = scheme.map toLower ++ [':'.toNat] := by
      rw [getProtocol, substr, List.drop_zero, Nat.sub_zero, hparts, schemeRead_protocolEnd,
        show scheme.map toLower ++ literal "://" ++ rest =
          (scheme.map toLower ++ [':'.toNat]) ++ (literal "//" ++ rest) by simp [literal]]
      exact List.take_left' (by rw [List.length_append, List.length_map]; rfl)
    rw [htake]
    rcases h.scheme with hs | hs <;> rw [hs] <;> decide
  -- Where a host starts the text, the authority is read.
  have hread (hleaves : leavesAuthority rest) : ∃ w stop, (schemeRead scheme rest).parseAuthority
      ((schemeRead scheme rest).protocolEnd + 2) = some (w, stop) := by
    obtain ⟨henc, behind, hstarts, -⟩ := hleaves
    rw [← hdrop] at henc hstarts
    exact parseAuthority_isSome (hstarts.parseHost (Nat.succ_pos _) hsub henc).1
  have hwell {stop : Nat} (hstop : (schemeRead scheme rest).protocolEnd + 2 ≤ stop)
      (henc : WellEncoded rest) : WellEncoded ((schemeRead scheme rest).url.drop stop) := by
    rw [← hdrop] at henc
    rw [wellEncoded_drop] at henc ⊢
    exact fun i hi => henc i (Nat.le_trans hstop hi)
  have hfinal := h.ofString
  rw [← schemeRead_protocolEnd scheme rest] at hfinal
  unfold hostIsAuthority
  rw [hfinal]
  generalize schemeRead scheme rest = u at hu hdrop hslashes hsub hprotocol hread hwell
  cases hv : u.parseHTTP u.protocolEnd with
  | none =>
    refine ⟨fun _ hleaves => ?_, fun _ hp => absurd hp (by decide)⟩
    obtain ⟨w, stop, hauthority⟩ := hread hleaves
    have hstop := Nat.le_of_lt (parseAuthority_spec hsub hauthority).2
    obtain ⟨v, hsome⟩ := (parseHTTP_isSome hu hslashes hauthority).mpr (hwell hstop hleaves.1)
    rw [hv] at hsome
    cases hsome
  | some v =>
    obtain ⟨w, stop, hauthority⟩ : ∃ w stop, u.parseAuthority (u.protocolEnd + 2) =
        some (w, stop) := by
      rw [parseHTTP, if_pos hslashes] at hv
      cases hfound : u.parseAuthority (u.protocolEnd + 2) with
      | none =>
        rw [hfound] at hv
        cases hv
      | some found => exact ⟨found.1, found.2, rfl⟩
    have hrest := (parseHTTP_isSome hu hslashes hauthority).mp ⟨v, hv⟩
    obtain ⟨hhost, hchars⟩ := parseHTTP_host hu hslashes hauthority hv
    obtain ⟨-, hstop⟩ := parseAuthority_spec hsub hauthority
    have hend := (parseAuthority_url hsub hauthority).2.2.1
    have hsplit := drop_eq_substr_append (Nat.le_of_lt hstop) hend
    rw [hdrop] at hsplit
    have htake : rest.takeWhile isAuthorityText = substr u.url (u.protocolEnd + 2) stop ++
        (u.url.drop stop).takeWhile isAuthorityText := by
      rw [hsplit, List.takeWhile_append_of_pos hchars]
    have hleft := leavesAuthority_iff (Nat.succ_pos _) hsub hauthority hrest
    rw [hdrop] at hleft
    rw [hleft, Option.getD_some, parseHTTP_protocol hu hv, h.authority]
    constructor
    · rintro hwhole ⟨c, hhead, hc⟩
      obtain ⟨authority, hsome, heq⟩ := hwhole hprotocol
      have hlen := congrArg List.length (hhost.symm.trans heq)
      rw [← Option.some.inj hsome, htake, List.length_map, List.length_map,
        List.length_append] at hlen
      cases hback : u.url.drop stop with
      | nil =>
        rw [hback] at hhead
        cases hhead
      | cons d back =>
        rw [hback] at hhead hlen
        rw [← Option.some.inj hhead] at hc
        rw [List.takeWhile_cons, hc] at hlen
        simp at hlen
    · intro hnone _
      refine ⟨_, rfl, ?_⟩
      have hnil : (u.url.drop stop).takeWhile isAuthorityText = [] := by
        cases hback : u.url.drop stop with
        | nil => rfl
        | cons d back =>
          rw [List.takeWhile_cons, if_neg fun hd => hnone ⟨d, by rw [hback]; rfl, hd⟩]
      rw [hhost, htake, hnil, List.append_nil]

/-- A string is no URL of an http scheme, or one whose host is the authority of the string, unless it
    is well encoded and a part of its authority is left behind its host and port. -/
theorem hostIsAuthority_iff (text : U16String) : hostIsAuthority text ↔ ¬ splitsAuthority text := by
  constructor
  · rintro hhost ⟨scheme, rest, h, hleaves⟩
    exact (hostIsAuthority_of_http h).mp hhost hleaves
  · intro hnone
    by_cases hhttp : ∃ scheme rest, HttpText text scheme rest
    · obtain ⟨scheme, rest, h⟩ := hhttp
      exact (hostIsAuthority_of_http h).mpr fun hleaves => hnone ⟨scheme, rest, h, hleaves⟩
    · exact fun hp => absurd (httpText_of_ofString hp) hhttp

/-- `http://user@evil/` has the host `user`. -/
theorem not_hostIsAuthority_userInformation : ¬ hostIsAuthority (literal "http://user@evil/") := by
  intro h
  obtain ⟨authority, hsome, heq⟩ := h (by decide +kernel)
  have hauthority : (Uri.split (stripLeadingAndTrailingWhitespace
      (literal "http://user@evil/"))).authority = some (literal "user@evil") := by decide +kernel
  rw [← Option.some.inj (hauthority.symm.trans hsome)] at heq
  revert heq
  decide +kernel

end EsOs.Escort
