import Mathlib
import EsOs.Escort.Proofs.Exact

/-!
# `URL(base, relative)` is the resolution of the reference

Six cases of the generic algorithm against the choices of the merge: a reference with an authority,
with a rooted, a relative or no path, and with a query or none.
-/

namespace EsOs.Escort.Url

open Uri (isAuthorityText isPathText isQueryText withDelimiter)

/-! ## The base -/

/-- What a component that is written with its delimiter consists of. -/
theorem exists_withDelimiter {text : U16String} {c : Nat} (h : text = [] ∨ text.head? = some c) :
    ∃ component, text = withDelimiter c component ∧
      ∀ t, component = some t → ∀ d ∈ t, d ∈ text := by
  cases text with
  | nil => exact ⟨none, rfl, nofun⟩
  | cons d text =>
    obtain rfl := Option.some.inj (h.resolve_left nofun)
    refine ⟨some text, rfl, fun t ht e he => ?_⟩
    obtain rfl := Option.some.inj ht
    exact List.mem_cons_of_mem _ he

/-- The scheme of a hierarchical URL. -/
theorem Hierarchical.scheme {base : Url} (h : base.Hierarchical) :
    ∃ scheme, base.getProtocol = scheme ++ [Uri.colon] ∧ scheme ≠ [] ∧
      ∀ c ∈ scheme, Uri.isSchemeText c = true := by
  have hp := h.protocol
  simp only [hierarchical, List.mem_cons, List.not_mem_nil, or_false] at hp
  rcases hp with hp | hp | hp
  · exact ⟨literal "http", by rw [hp]; rfl, by decide, by decide⟩
  · exact ⟨literal "https", by rw [hp]; rfl, by decide, by decide⟩
  · exact ⟨literal "file", by rw [hp]; rfl, by decide, by decide⟩

/-- The components of the string of a hierarchical URL are what its accessors give. -/
theorem Hierarchical.split_url {base : Url} (h : base.Hierarchical) :
    ∃ scheme query fragment,
      Uri.split base.url =
        ⟨some scheme, some base.getHost, base.getPathname, query, fragment⟩ ∧
      base.getProtocol = scheme ++ [Uri.colon] ∧
      base.getSearch = withDelimiter Uri.questionMark query := by
  obtain ⟨_, _, _, hlaid⟩ := h.laid
  have hwf := hlaid.wellFormed
  obtain ⟨scheme, hprotocol, hne, hscheme⟩ := h.scheme
  obtain ⟨query, hsearch, hquery⟩ := exists_withDelimiter hwf.search_start
  obtain ⟨fragment, hhash, _⟩ := exists_withDelimiter hwf.hash_start
  refine ⟨scheme, query, fragment, ?_, hprotocol, hsearch⟩
  have hurl : base.url = Uri.Reference.recompose
      ⟨some scheme, some base.getHost, base.getPathname, query, fragment⟩ := by
    rw [Uri.recompose_full, ← hprotocol,
      show withDelimiter Uri.questionMark query = base.getSearch from hsearch.symm,
      show withDelimiter Uri.numberSign fragment = base.getHash from hhash.symm]
    have hwhole := hwf.whole
    rw [slashes_of_hierarchical h.protocol] at hwhole
    exact hwhole
  rw [hurl]
  refine Uri.split_recompose ⟨?_, ?_, h.spelled.path, ?_⟩ rfl rfl ?_
  · intro s hs
    obtain rfl := Option.some.inj hs
    exact ⟨hne, hscheme⟩
  · intro a ha
    obtain rfl := Option.some.inj ha
    exact h.spelled.host
  · intro q hq c hc
    exact h.spelled.search c (hquery q hq c hc)
  · have hrooted := h.spelled.rooted
    cases hpath : base.getPathname with
    | nil =>
      rw [hpath] at hrooted
      cases hrooted
    | cons c path =>
      rw [hpath] at hrooted
      exact .inr ⟨path, by rw [Option.some.inj hrooted]; rfl⟩

/-! ## The reference -/

/-- A reference that was read, with the texts of its components. -/
structure ReadAs (v : Url) (path search hash : U16String) : Prop where
  reference : v.Reference
  path_eq : v.getPathname = path
  search_eq : v.getSearch = search
  noSearch : v.searchStart = v.searchEnd ↔ search = []
  hash_eq : v.getHash = hash

theorem Tailed.search_absent {u v : Url} {p s : Nat} (h : u.Tailed v p s) :
    v.searchStart = v.searchEnd ↔ v.getSearch = [] := by
  have hurl : v.url = u.url := by rw [h.same]
  have hle := h.query.inString
  have hsearch : v.getSearch = substr u.url p s := by
    rw [getSearch, hurl]
    exact h.search.substr_eq u.url
  constructor
  · intro habsent
    rw [getSearch, habsent, substr_self]
  · intro hnil
    have hlen : s - p = 0 := by
      rw [← length_substr (i := p) hle, ← hsearch, hnil]
      rfl
    have hps := h.query.le
    rcases h.search.fills with ⟨hfirst, hlast⟩ | ⟨habsent, _, _⟩
    · have h1 : v.searchStart = p := hfirst
      have h2 : v.searchEnd = s := hlast
      omega
    · exact habsent

/-- The path and the search of the target, from the texts of the reference. -/
theorem ReadAs.targetPath {v base : Url} {path search hash : U16String}
    (h : v.ReadAs path search hash) :
    v.targetPath base =
      if path = [] then (base.getPathname, if search = [] then base.getSearch else search)
      else (removeDotSegments
        (if path.head? = some Uri.slash then path else base.directory ++ path), search) := by
  obtain ⟨hle, hend⟩ := h.reference.path
  have hlen : path.length = v.pathnameEnd - v.pathnameStart := by
    rw [← h.path_eq, getPathname, length_substr hend]
  unfold Url.targetPath
  by_cases hpath : path = []
  · have habsent : v.pathnameStart = v.pathnameEnd := by
      rw [hpath, List.length_nil] at hlen
      omega
    rw [if_pos habsent, if_pos hpath]
    by_cases hsearch : search = []
    · rw [if_neg (fun hne => hne (h.noSearch.mpr hsearch)), if_pos hsearch]
    · rw [if_pos (fun habsent => hsearch (h.noSearch.mp habsent)), if_neg hsearch, h.search_eq]
  · have hpos := List.length_pos_iff.mpr hpath
    have hhead : path.head? = some (charAt v.url v.pathnameStart) := by
      rw [← h.path_eq, getPathname]
      exact head?_substr (by omega) hend
    rw [if_neg (by omega), if_neg hpath, hhead, h.path_eq, h.search_eq]
    by_cases hslash : charAt v.url v.pathnameStart = '/'.toNat
    · rw [if_pos hslash, if_pos (show some _ = some Uri.slash from congrArg some hslash)]
    · rw [if_neg hslash,
        if_neg (show ¬ some _ = some Uri.slash from fun hsome => hslash (Option.some.inj hsome))]

theorem isSchemeText_of_isSchemeChar {c : Nat} (h : isSchemeChar c = true) :
    Uri.isSchemeText c = true := by
  have hcolon : Uri.colon = 58 := rfl
  have hslash : Uri.slash = 47 := rfl
  have hquestion : Uri.questionMark = 63 := rfl
  have hnumber : Uri.numberSign = 35 := rfl
  refine Decidable.byContradiction fun hc => ?_
  simp only [Uri.isSchemeText, Bool.and_eq_true, decide_eq_true_eq] at hc
  have hcases : c = 58 ∨ c = 47 ∨ c = 63 ∨ c = 35 := by omega
  rcases hcases with rfl | rfl | rfl | rfl <;> revert h <;> decide

/-- A text that has no scheme for the generic syntax has none for `hasScheme`. -/
theorem hasScheme_none {text : U16String} (h : (Uri.split text).scheme = none) :
    (unparsed text).hasScheme = none := by
  unfold hasScheme
  by_cases halpha : isAlpha (charAt (unparsed text).url 0) = true
  · rw [if_pos halpha]
    refine if_neg fun hcolon => ?_
    change isAlpha (charAt text 0) = true at halpha
    change charAt text (1 + ((text.drop 1).takeWhile isSchemeChar).length) = ':'.toNat at hcolon
    -- The letter and the scheme characters up to the colon are a scheme.
    cases text with
    | nil => cases halpha
    | cons c text =>
      change isAlpha c = true at halpha
      rw [Nat.add_comm] at hcolon
      change charAt text (text.takeWhile isSchemeChar).length = ':'.toNat at hcolon
      have hsplit := List.takeWhile_append_dropWhile (p := isSchemeChar) (l := text)
      have hdrop : text.drop (text.takeWhile isSchemeChar).length =
          text.dropWhile isSchemeChar := by
        conv => lhs; arg 2; rw [← hsplit]
        exact List.drop_left
      have hrest := head?_drop_of_charAt hcolon (by decide)
      rw [hdrop] at hrest
      have hfirst : ∀ d ∈ c :: text.takeWhile isSchemeChar, Uri.isSchemeText d = true := by
        intro d hd
        rcases List.mem_cons.mp hd with rfl | hd
        · exact isSchemeText_of_isSchemeChar (by simp [isSchemeChar, isAlnum, halpha])
        · exact isSchemeText_of_isSchemeChar (List.mem_takeWhile_imp hd)
      have hspan := Uri.span_append (text.dropWhile isSchemeChar) hfirst (by
        rw [hrest]
        intro d hd
        rw [← Option.some.inj hd]
        decide)
      rw [List.cons_append, hsplit] at hspan
      have hscheme : (Uri.splitScheme (c :: text)).1 = none := h
      rw [Uri.splitScheme, hspan.2, hrest] at hscheme
      simp only [hspan.1] at hscheme
      rw [if_pos ⟨rfl, List.cons_ne_nil _ _⟩] at hscheme
      cases hscheme
  · exact if_neg halpha

/-! ## The case of a host -/

/-- The first three characters are an encoded octet. -/
def startsEncoded : U16String → Prop
  | c :: d :: e :: _ => c = '%'.toNat ∧ isHexDigit d ≠ 0 ∧ isHexDigit e ≠ 0
  | _ => False

theorem lowerName_cons {c : Nat} {rest : U16String} (h : ¬ startsEncoded (c :: rest)) :
    lowerName (c :: rest) = toLower c :: lowerName rest := by
  rcases rest with _ | ⟨d, _ | ⟨e, rest⟩⟩
  · rfl
  · rfl
  · rw [lowerName]
    exact if_neg h

/-- A text without capital letters is left as it is. -/
theorem lowerName_self (s : U16String) (h : ∀ c ∈ s, toLower c = c) : lowerName s = s := by
  fun_induction lowerName s with
  | case1 c d e rest _ ih =>
    rw [ih fun x hx => h x (by simp [hx])]
  | case2 c d e rest _ ih =>
    rw [ih fun x hx => h x (List.mem_cons_of_mem _ hx), h c List.mem_cons_self]
  | case3 c rest _ ih =>
    rw [ih fun x hx => h x (List.mem_cons_of_mem _ hx), h c List.mem_cons_self]
  | case4 => rfl

theorem substr_cons {url : U16String} {i j : Nat} (hij : i < j) (hj : j ≤ url.length) :
    substr url i j = charAt url i :: substr url (i + 1) j := by
  have hone : substr url i (i + 1) = [charAt url i] := by
    rw [substr, List.drop_eq_getElem_cons (show i < url.length by omega), charAt_eq (by omega),
      Nat.add_sub_cancel_left]
    rfl
  rw [← substr_append url (Nat.le_succ i) hij, hone]
  rfl

/-- An encoded octet inside of a part is one that is read there. -/
theorem not_startsEncoded {url : U16String} {i j : Nat} (hj : j ≤ url.length)
    (h : parsePercentEncoded url i = none) : ¬ startsEncoded (substr url i j) := by
  intro henc
  have hlen := length_substr (i := i) hj
  by_cases hthree : i + 3 ≤ j
  · rw [substr_cons (by omega) hj, substr_cons (by omega) hj, substr_cons (by omega) hj] at henc
    obtain ⟨hc, hd, he⟩ := henc
    rw [parsePercentEncoded_isSome hc hd he] at h
    cases h
  · rcases hs : substr url i j with _ | ⟨c, _ | ⟨d, _ | ⟨e, rest⟩⟩⟩
    · rw [hs] at henc
      exact henc
    · rw [hs] at henc
      exact henc
    · rw [hs] at henc
      exact henc
    · rw [hs] at hlen
      simp only [List.length_cons] at hlen
      omega

theorem substr_set {url : U16String} {pos i j c : Nat} (h : pos < i) (hj : j ≤ url.length) :
    substr (url.set pos c) i j = substr url i j := by
  refine substr_congr hj (by rw [List.length_set]; exact hj) fun k hk _ => ?_
  rw [charAt_set, if_neg (by omega)]

/-- A character of a name in lower case, and what is read behind it. -/
theorem lowerName_step {url url' : U16String} {pos next stop : Nat}
    (hstop : stop ≤ url.length) (hnext : next ≤ stop) (hlt : pos < next)
    (hpercent : parsePercentEncoded url pos = none)
    (hread : HostRead (url.set pos (toLower (charAt url pos))) url' (pos + 1) next)
    (ih : lowerName (substr (url.set pos (toLower (charAt url pos))) (pos + 1) stop) =
      substr url' (pos + 1) next ++
        lowerName (substr (url.set pos (toLower (charAt url pos))) next stop)) :
    lowerName (substr url pos stop) = substr url' pos next ++ lowerName (substr url next stop) := by
  have hchar : charAt url' pos = toLower (charAt url pos) := by
    rw [hread.outside pos (.inl (Nat.lt_succ_self pos)), charAt_set, if_pos ⟨rfl, by omega⟩]
  have hlen := hread.length
  rw [List.length_set] at hlen
  rw [substr_set (Nat.lt_succ_self pos) hstop, substr_set hlt hstop] at ih
  have hnot := not_startsEncoded hstop hpercent
  rw [substr_cons (by omega) hstop] at hnot ⊢
  rw [lowerName_cons hnot, ih, substr_cons hlt (by omega), hchar]
  rfl

/-- What is read of a name is the name in lower case, in front of any part that goes on from it. -/
theorem parseIregName_lowers (turns : Nat) :
    ∀ url pos stop, stop ≤ url.length → (parseIregName turns url pos).2 ≤ stop → pos ≤ url.length →
      lowerName (substr url pos stop) =
        substr (parseIregName turns url pos).1 pos (parseIregName turns url pos).2 ++
          lowerName (substr url (parseIregName turns url pos).2 stop) := by
  induction turns with
  | zero =>
    intro url pos stop _ _ _
    rw [show parseIregName 0 url pos = (url, pos) from rfl, substr_self]
    rfl
  | succ turns ih =>
    intro url pos stop hstop hnext hpos
    simp only [parseIregName] at hnext ⊢
    by_cases hend : url.length ≤ pos
    · simp only [hend, if_true, substr_self]
      rfl
    simp only [hend, if_false] at hnext ⊢
    cases hpercent : parsePercentEncoded url pos with
    | some mid =>
      simp only [hpercent] at hnext ⊢
      have hread := parsePercentEncoded_reads hpercent
      obtain ⟨rfl, hc, hd, he, _⟩ := parsePercentEncoded_spec hpercent
      have hrest := parseIregName_reads turns url (pos + 3) hread.inString
      have hle := hrest.reads.le
      have hlen := hrest.length
      have hihs := ih url (pos + 3) stop hstop hnext hread.inString
      generalize parseIregName turns url (pos + 3) = found at hnext hrest hle hlen hihs ⊢
      have hsame (k : Nat) (hk : k < pos + 3) : charAt found.1 k = charAt url k :=
        hrest.outside k (.inl hk)
      rw [substr_cons (show pos < stop by omega) hstop,
        substr_cons (show pos + 1 < stop by omega) hstop,
        substr_cons (show pos + 1 + 1 < stop by omega) hstop,
        substr_cons (show pos < found.2 by omega) (by omega),
        substr_cons (show pos + 1 < found.2 by omega) (by omega),
        substr_cons (show pos + 1 + 1 < found.2 by omega) (by omega),
        hsame pos (by omega), hsame (pos + 1) (by omega), hsame (pos + 1 + 1) (by omega),
        lowerName, if_pos ⟨hc, hd, he⟩, hihs]
      rfl
    | none =>
      simp only [hpercent] at hnext ⊢
      have hset : (url.set pos (toLower (charAt url pos))).length = url.length := List.length_set
      cases hunreserved : parseUnreservedChar (url.set pos (toLower (charAt url pos))) pos with
      | some mid =>
        simp only [hunreserved] at hnext ⊢
        obtain rfl := parseUnreservedChar_succ hunreserved
        have hrest := parseIregName_reads turns (url.set pos (toLower (charAt url pos))) (pos + 1)
          (by omega)
        exact lowerName_step hstop hnext hrest.reads.le hpercent hrest
          (ih _ (pos + 1) stop (by omega) hnext (by omega))
      | none =>
        simp only [hunreserved] at hnext ⊢
        by_cases hsub : isSubDelims (charAt (url.set pos (toLower (charAt url pos))) pos) = true
        · simp only [hsub, if_true] at hnext ⊢
          have hrest := parseIregName_reads turns (url.set pos (toLower (charAt url pos)))
            (pos + 1) (by omega)
          exact lowerName_step hstop hnext hrest.reads.le hpercent hrest
            (ih _ (pos + 1) stop (by omega) hnext (by omega))
        · simp only [hsub, if_false, Bool.false_eq_true, substr_self]
          rfl

theorem toLower_of_isAddressText {c : Nat} (h : isAddressText c = true) : toLower c = c := by
  unfold toLower
  split
  · rename_i hupper
    have hA : 'A'.toNat = 65 := rfl
    have h9 : '9'.toNat = 57 := rfl
    have hdot : '.'.toNat = 46 := rfl
    simp only [isAddressText, isDigit, Bool.or_eq_true, Bool.and_eq_true, decide_eq_true_eq] at h
    omega
  · rfl

/-- The host and what follows it up to `stop`, which has no capital letters. -/
theorem parseHost_lowers {url : U16String} {pos stop : Nat} (hpos : pos ≤ url.length)
    (hstop : stop ≤ url.length) (hnext : (parseHost url pos).2 ≤ stop)
    (hport : ∀ c ∈ substr url (parseHost url pos).2 stop, toLower c = c) :
    substr (parseHost url pos).1 pos stop =
      if (parseIPLiteral url pos).isSome then substr url pos stop
      else lowerName (substr url pos stop) := by
  have hreads := parseHost_reads url hpos
  unfold parseHost at hnext hport hreads ⊢
  cases hliteral : parseIPLiteral url pos with
  | some next => rfl
  | none =>
    simp only [hliteral] at hnext hport hreads ⊢
    cases haddress : parseIPv4Address url pos with
    | some next =>
      simp only [haddress] at hnext hport hreads ⊢
      have hread := parseIPv4From_reads url 4 pos next hpos haddress
      refine (lowerName_self _ fun c hc => ?_).symm
      rw [← substr_append url hread.le hnext] at hc
      rcases List.mem_append.mp hc with hc | hc
      · exact toLower_of_isAddressText (hread.substr c hc)
      · exact hport c hc
    | none =>
      simp only [haddress] at hnext hport hreads ⊢
      have hlen := hreads.length
      have hname := parseIregName_lowers url.length url pos stop hstop hnext hpos
      have htail : substr (parseIregName url.length url pos).1
          (parseIregName url.length url pos).2 stop =
          substr url (parseIregName url.length url pos).2 stop :=
        substr_congr hstop (by omega) fun k hk _ => hreads.outside k (.inr hk)
      rw [if_neg (by simp), hname, lowerName_self _ hport, ← htail,
        substr_append _ hreads.reads.le hnext]

/-! ## The target -/

/-- The string of a merged URL. -/
theorem merge_url {v base : Url} {path search hash : U16String} (h : v.ReadAs path search hash) :
    (v.merge base true).url = base.getProtocol ++ literal "//" ++ (v.mergeHost base).2 ++
      (v.targetPath base).1 ++ (v.targetPath base).2 ++ hash := by
  rw [← h.hash_eq]
  rfl

theorem withDelimiter_eq_nil {c : Nat} {component : Option U16String} :
    withDelimiter c component = [] ↔ component = none := by
  cases component with
  | none => exact ⟨fun _ => rfl, fun _ => rfl⟩
  | some t => exact ⟨nofun, nofun⟩

/-- A reference without an authority. -/
theorem merge_same_authority {v base : Url} {path : U16String} {query fragment : Option U16String}
    (hbase : base.Hierarchical)
    (h : v.ReadAs path (withDelimiter Uri.questionMark query)
      (withDelimiter Uri.numberSign fragment)) (hhost : v.hostStart = v.hostEnd) :
    (v.merge base true).url = (rootedTarget (Uri.transform (Uri.split base.url)
      ⟨none, none, path, query, fragment⟩)).recompose := by
  obtain ⟨scheme, bquery, bfragment, hsplit, hprotocol, hsearch⟩ := hbase.split_url
  have hhostText : (v.mergeHost base).2 = base.getHost := by
    unfold mergeHost
    rw [if_pos hhost]
  have hbasePath : base.getPathname ≠ [] := by
    intro hnil
    have := hbase.spelled.rooted
    rw [hnil] at this
    cases this
  rw [merge_url h, hhostText, h.targetPath, hsplit, hprotocol]
  simp only [withDelimiter_eq_nil]
  by_cases hpath : path = []
  · have htarget : Uri.transform
        ⟨some scheme, some base.getHost, base.getPathname, bquery, bfragment⟩
        ⟨none, none, path, query, fragment⟩ = ⟨some scheme, some base.getHost, base.getPathname,
          if query.isSome then query else bquery, fragment⟩ := by
      simp [Uri.transform, hpath]
    rw [if_pos hpath, htarget, rootedTarget, if_neg hbasePath, Uri.recompose_full]
    cases query with
    | none =>
      rw [if_pos rfl, hsearch]
      rfl
    | some q => rfl
  · have htarget : Uri.transform
        ⟨some scheme, some base.getHost, base.getPathname, bquery, bfragment⟩
        ⟨none, none, path, query, fragment⟩ = ⟨some scheme, some base.getHost,
          Uri.removeDotSegments (if path.head? = some Uri.slash then path
            else base.directory ++ path), query, fragment⟩ := by
      simp [Uri.transform, hpath, Uri.merge, hbasePath, hbase.directory_eq]
    rw [if_neg hpath, htarget, rootedTarget, Uri.recompose_full, removeDotSegments_eq]
    rfl

/-- A reference with an authority. -/
theorem merge_own_authority {v base : Url} {path : U16String} {query fragment : Option U16String}
    {host : U16String} (hbase : base.Hierarchical) (hrooted : path = [] ∨ path.head? = some Uri.slash)
    (h : v.ReadAs (rooted path) (withDelimiter Uri.questionMark query)
      (withDelimiter Uri.numberSign fragment)) (hhost : v.hostStart ≠ v.hostEnd)
    (hhostText : v.getHost = host) :
    (v.merge base true).url = (rootedTarget (Uri.transform (Uri.split base.url)
      ⟨none, some host, path, query, fragment⟩)).recompose := by
  obtain ⟨scheme, bquery, bfragment, hsplit, hprotocol, hsearch⟩ := hbase.split_url
  have hmerged : (v.mergeHost base).2 = host := by
    unfold mergeHost
    rw [if_neg hhost]
    exact hhostText
  have hslash : (rooted path).head? = some Uri.slash := by
    unfold rooted
    split
    · rfl
    · rename_i hne
      exact hrooted.resolve_left hne
  have hne : rooted path ≠ [] := by
    intro hnil
    rw [hnil] at hslash
    cases hslash
  have hdots : removeDotSegments (rooted path) = rooted (Uri.removeDotSegments path) := by
    rw [removeDotSegments_eq]
    by_cases hpath : path = []
    · rw [hpath]
      decide
    · rw [show rooted path = path from if_neg hpath]
  have htarget : Uri.transform
      ⟨some scheme, some base.getHost, base.getPathname, bquery, bfragment⟩
      ⟨none, some host, path, query, fragment⟩ =
      ⟨some scheme, some host, Uri.removeDotSegments path, query, fragment⟩ := by
    simp [Uri.transform]
  rw [merge_url h, hmerged, h.targetPath, hsplit, hprotocol, if_neg hne, if_pos hslash, hdots,
    htarget, rootedTarget, Uri.recompose_full]
  rfl

/-! ## Reading a reference -/

/-- A reference whose path starts at a position of the string. -/
theorem readAs_of_path {w : Url} {pos : Nat} (hw : w.Fronted) (henc : EncodedFrom w.url pos)
    (hlt : pos < w.url.length) :
    ∃ v, (((w.setPathname pos (parseRelativePath w.url pos)).parseSearch
        (parseRelativePath w.url pos)).1.parseHash
        ((w.setPathname pos (parseRelativePath w.url pos)).parseSearch
          (parseRelativePath w.url pos)).2) = some v ∧
      v.ReadAs ((w.url.drop pos).takeWhile isPathText)
        (withDelimiter Uri.questionMark
          (Uri.splitQuery ((w.url.drop pos).dropWhile isPathText)).1)
        (withDelimiter Uri.numberSign (Uri.splitFragment
          (Uri.splitQuery ((w.url.drop pos).dropWhile isPathText)).2)) ∧
      v.hostStart = w.hostStart ∧ v.hostEnd = w.hostEnd ∧ v.getHost = w.getHost := by
  obtain ⟨v, s, hv, ht, href, hpath, hdrop⟩ := parsePath_exact hw henc hlt
  obtain ⟨hsearch, hhash⟩ := ht.exact
  rw [show (w.setPathname pos (parseRelativePath w.url pos)).url = w.url from rfl, hdrop]
    at hsearch hhash
  have habsent := ht.search_absent
  rw [hsearch] at habsent
  refine ⟨v, hv, ⟨href, hpath, hsearch, habsent, hhash⟩, ?_, ?_, ?_⟩ <;> rw [ht.same] <;> rfl

theorem startsAt_slashes {text : U16String} :
    startsAt text 0 "//" = true ↔ ∃ rest, text = Uri.slash :: Uri.slash :: rest := by
  constructor
  · intro h
    obtain ⟨hlen, hlit⟩ := startsAt_two rfl h
    have hpair : literal "//" = [Uri.slash, Uri.slash] := rfl
    rw [hpair] at hlit
    simp only [List.cons.injEq, and_true] at hlit
    refine ⟨text.drop 2, ?_⟩
    have hone : text.drop 1 = Uri.slash :: text.drop 2 :=
      head?_drop_of_charAt hlit.2.symm (by decide)
    have hzero : text.drop 0 = Uri.slash :: text.drop 1 :=
      head?_drop_of_charAt hlit.1.symm (by decide)
    rw [← hone, ← hzero, List.drop_zero]
  · rintro ⟨rest, rfl⟩
    rfl

theorem splitAuthority_none {text : U16String} (h : ¬ startsAt text 0 "//" = true) :
    Uri.splitAuthority text = (none, text) := by
  rcases text with _ | ⟨c, _ | ⟨d, rest⟩⟩
  · rfl
  · rfl
  · refine if_neg fun hcd => h (startsAt_slashes.mpr ⟨rest, ?_⟩)
    rw [hcd.1, hcd.2]

/-- A reference without an authority is read as its components. -/
theorem parseHTTPRelative_same {text : U16String} (henc : WellEncoded text)
    (h : ¬ startsAt text 0 "//" = true) :
    ∃ v, (unparsed text).parseHTTPRelative = some v ∧
      v.ReadAs (text.takeWhile isPathText)
        (withDelimiter Uri.questionMark (Uri.splitQuery (text.dropWhile isPathText)).1)
        (withDelimiter Uri.numberSign (Uri.splitFragment
          (Uri.splitQuery (text.dropWhile isPathText)).2)) ∧
      v.hostStart = v.hostEnd := by
  have hfront := (unparsed_unread text).fronted
  unfold parseHTTPRelative
  rw [if_neg (show ¬ startsAt (unparsed text).url (unparsed text).protocolEnd "//" = true from h)]
  dsimp only
  by_cases hempty : text.length ≤ 0
  · rw [if_pos (show (unparsed text).url.length ≤ (unparsed text).protocolEnd from hempty)]
    obtain rfl := List.length_eq_zero_iff.mp (Nat.le_zero.mp hempty)
    exact ⟨_, rfl, ⟨hfront.reference_self, rfl, rfl, ⟨fun _ => rfl, fun _ => rfl⟩, rfl⟩, rfl⟩
  · rw [if_neg (show ¬ (unparsed text).url.length ≤ (unparsed text).protocolEnd from hempty)]
    obtain ⟨v, hv, hread, hstart, hend, _⟩ := readAs_of_path (w := unparsed text)
      hfront (show EncodedFrom text 0 from encodedFrom_of_drop henc) (Nat.lt_of_not_le hempty)
    exact ⟨v, hv, hread, hstart.trans hend.symm⟩

/-- The slash behind an authority that has none. -/
def slashed (rest : U16String) : U16String :=
  if rest.head? = some Uri.slash then rest else Uri.slash :: rest

theorem insertSlash_drop {url : U16String} {pos : Nat} (hpos : pos ≤ url.length) :
    (insertSlash url pos).drop pos = slashed (url.drop pos) := by
  unfold insertSlash slashed
  by_cases hend : url.length ≤ pos
  · have hlen : pos = url.length := Nat.le_antisymm hpos hend
    rw [if_pos hend, hlen, List.drop_length, List.drop_left]
    rfl
  · have hhead : (url.drop pos).head? = some (charAt url pos) := by
      rw [List.drop_eq_getElem_cons (Nat.lt_of_not_le hend), charAt_eq (Nat.lt_of_not_le hend)]
      rfl
    rw [if_neg hend, hhead]
    by_cases hslash : charAt url pos = '/'.toNat
    · rw [if_neg (fun hne => hne hslash),
        if_pos (show some _ = some Uri.slash from congrArg some hslash)]
    · rw [if_pos hslash,
        if_neg (show ¬ some _ = some Uri.slash from fun hsome => hslash (Option.some.inj hsome)),
        List.append_assoc, List.drop_left' (by rw [List.length_take]; omega)]
      rfl

theorem drop_of_hostRead {url url' : U16String} {pos next k : Nat} (h : HostRead url url' pos next)
    (hk : next ≤ k) : url'.drop k = url.drop k := by
  refine List.ext_getElem (by rw [List.length_drop, List.length_drop, h.length]) fun i hi hi' => ?_
  rw [List.length_drop] at hi hi'
  have hchar := h.outside (k + i) (.inr (by omega))
  rw [charAt_eq (by omega), charAt_eq (by omega)] at hchar
  rw [List.getElem_drop, List.getElem_drop, hchar]

/-- The components of what follows an authority, with its slash. -/
theorem slashed_components (s : U16String) :
    (slashed (s.dropWhile isAuthorityText)).takeWhile isPathText =
        rooted ((s.dropWhile isAuthorityText).takeWhile isPathText) ∧
      (slashed (s.dropWhile isAuthorityText)).dropWhile isPathText =
        (s.dropWhile isAuthorityText).dropWhile isPathText := by
  generalize hrest : s.dropWhile isAuthorityText = rest
  have hcases := Uri.authority_rest_path s
  rw [hrest] at hcases
  unfold slashed
  rcases hcases with ⟨hpath, hnot⟩ | hslash
  · have hhead : ¬ rest.head? = some Uri.slash := by
      intro hsome
      exact absurd (hnot _ hsome) (by decide)
    have hdrop : rest.dropWhile isPathText = rest := by
      cases rest with
      | nil => rfl
      | cons c rest => rw [List.dropWhile_cons, hnot c rfl]; rfl
    rw [if_neg hhead, hpath, hdrop]
    rw [List.takeWhile_cons, List.dropWhile_cons]
    simp only [show isPathText Uri.slash = true by decide, if_true, hpath, hdrop]
    exact ⟨rfl, trivial⟩
  · rw [if_pos hslash]
    refine ⟨?_, rfl⟩
    cases rest with
    | nil => cases hslash
    | cons c rest =>
      obtain rfl := Option.some.inj hslash
      have htake : (Uri.slash :: rest).takeWhile isPathText =
          Uri.slash :: rest.takeWhile isPathText := by
        rw [List.takeWhile_cons]
        rfl
      rw [htake]
      rfl

/-- What the authority makes of the string. -/
theorem parseAuthority_url {u w : Url} {pos stop : Nat} (hpos : pos ≤ u.url.length)
    (h : u.parseAuthority pos = some (w, stop)) :
    w.url = insertSlash (parseHost u.url pos).1 stop ∧ (parseHost u.url pos).2 ≤ stop ∧
      stop ≤ u.url.length ∧
      ∀ c ∈ substr (parseHost u.url pos).1 (parseHost u.url pos).2 stop, toLower c = c := by
  have hhost := parseHost_reads u.url hpos
  simp only [parseAuthority] at h
  split at h
  · cases h
  generalize (parseHost u.url pos).1 = url at h hhost ⊢
  generalize (parseHost u.url pos).2 = nameEnd at h hhost ⊢
  simp only [decide_eq_true_eq, Option.some.injEq, Prod.mk.injEq] at h
  obtain ⟨rfl, hstop⟩ := h
  simp only [hstop]
  have hlen := hhost.length
  have hend := hhost.reads.inString
  by_cases hcolon : charAt url nameEnd = ':'.toNat
  · have hread := colon_reads hcolon
    have hdigits := skipDigits_reads url hread.inString
    simp only [hcolon, if_true] at hstop
    rw [hstop] at hdigits
    refine ⟨trivial, Nat.le_trans hread.le hdigits.le, by have := hdigits.inString; omega, ?_⟩
    rw [substr_cons (Nat.lt_of_lt_of_le (Nat.lt_succ_self nameEnd) hdigits.le) hdigits.inString,
      hcolon]
    intro c hc
    rcases List.mem_cons.mp hc with rfl | hc
    · decide
    · exact toLower_of_isAddressText (by rw [isAddressText, hdigits.substr c hc]; rfl)
  · simp only [hcolon, if_false] at hstop
    rw [← hstop, substr_self]
    exact ⟨trivial, Nat.le_refl _, by omega, by simp⟩

/-- A reference with an authority is read as its components, with the host in lower case. -/
theorem parseHTTPRelative_own {rest : U16String}
    (henc : WellEncoded (Uri.slash :: Uri.slash :: rest))
    (hread : readsAuthority (Uri.slash :: Uri.slash :: rest) (rest.takeWhile isAuthorityText)) :
    ∃ v, (unparsed (Uri.slash :: Uri.slash :: rest)).parseHTTPRelative = some v ∧
      v.ReadAs (rooted ((rest.dropWhile isAuthorityText).takeWhile isPathText))
        (withDelimiter Uri.questionMark (Uri.splitQuery
          ((rest.dropWhile isAuthorityText).dropWhile isPathText)).1)
        (withDelimiter Uri.numberSign (Uri.splitFragment (Uri.splitQuery
          ((rest.dropWhile isAuthorityText).dropWhile isPathText)).2)) ∧
      v.hostStart ≠ v.hostEnd ∧
      v.getHost = lowerAuthority (Uri.slash :: Uri.slash :: rest)
        (rest.takeWhile isAuthorityText) := by
  generalize htext : Uri.slash :: Uri.slash :: rest = text at henc hread ⊢
  have hstarts : startsAt text 0 "//" = true := startsAt_slashes.mpr ⟨rest, htext.symm⟩
  have hdrop : text.drop 2 = rest := by
    rw [← htext]
    rfl
  have hlen : 2 ≤ text.length := by
    rw [← htext]
    exact Nat.le_add_left 2 _
  unfold readsAuthority at hread
  cases hparse : (unparsed text).parseAuthority 2 with
  | none =>
    rw [hparse] at hread
    cases hread
  | some found =>
    obtain ⟨w, stop⟩ := found
    rw [hparse] at hread
    have hstop : stop = (rest.takeWhile isAuthorityText).length + 2 := Option.some.inj hread
    obtain ⟨hw, hpos⟩ := parseAuthority_spec (u := unparsed text) hlen hparse
    obtain ⟨hurl, hname, hend, hport⟩ := parseAuthority_url (u := unparsed text) hlen hparse
    change w.url = insertSlash (parseHost text 2).1 stop at hurl
    change (parseHost text 2).2 ≤ stop at hname
    change stop ≤ text.length at hend
    change ∀ c ∈ substr (parseHost text 2).1 (parseHost text 2).2 stop, toLower c = c at hport
    have hreads := parseHost_reads text hlen
    have hhostLen := hreads.length
    -- The authority of the text, and what follows it.
    have hsplit := List.takeWhile_append_dropWhile (p := isAuthorityText) (l := rest)
    have hauthority : substr text 2 stop = rest.takeWhile isAuthorityText := by
      rw [substr, hdrop, hstop, Nat.add_sub_cancel]
      conv => lhs; arg 2; rw [← hsplit]
      exact List.take_left
    have hbehind : text.drop stop = rest.dropWhile isAuthorityText := by
      rw [hstop, Nat.add_comm, ← List.drop_drop, hdrop]
      conv => lhs; arg 2; rw [← hsplit]
      exact List.drop_left
    have hwdrop : w.url.drop stop = slashed (rest.dropWhile isAuthorityText) := by
      rw [hurl, insertSlash_drop (by omega), drop_of_hostRead hreads hname, hbehind]
    have hwenc : EncodedFrom w.url stop := by
      refine encodedFrom_of_drop ?_
      rw [hwdrop, ← hbehind, slashed]
      split
      · exact henc.drop stop
      · exact (henc.drop stop).slash
    obtain ⟨v, hv, hreadAs, hstart, hvend, hhost⟩ :=
      readAs_of_path (hw.fronted (unparsed_unread text)) hwenc hw.lt
    rw [hwdrop, (slashed_components rest).1, (slashed_components rest).2] at hreadAs
    have hwstart : w.hostStart = 2 := by rw [hw.same]
    have hwend : w.hostEnd = stop := by rw [hw.same]
    refine ⟨v, ?_, hreadAs, ?_, ?_⟩
    · unfold parseHTTPRelative
      rw [if_pos (show startsAt (unparsed text).url (unparsed text).protocolEnd "//" = true
        from hstarts), show (unparsed text).protocolEnd + 2 = 2 from rfl, hparse]
      exact (if_neg (Nat.not_le.mpr hw.lt)).trans hv
    · rw [hstart, hvend, hwstart, hwend]
      exact Nat.ne_of_lt hpos
    · have hsame : substr w.url 2 stop = substr (parseHost text 2).1 2 stop := by
        rw [hurl]
        refine substr_congr (by omega) (by have := hw.lt; rw [← hurl]; omega) fun k _ hk => ?_
        exact (insertSlash_spec _ (by omega)).2 k hk
      have hportText : ∀ c ∈ substr text (parseHost text 2).2 stop, toLower c = c := by
        have htail : substr (parseHost text 2).1 (parseHost text 2).2 stop =
            substr text (parseHost text 2).2 stop :=
          substr_congr hend (by omega) fun k hk _ => hreads.outside k (.inr hk)
        rwa [← htail]
      rw [hhost, getHost, hwstart, hwend, hsame,
        parseHost_lowers hlen hend hname hportText, hauthority, lowerAuthority]

/-! ## Resolution -/

/-- `URL(base, relative)` for a hierarchical base other than a file. -/
theorem ofRelative_eq {base v : Url} {text : U16String}
    (hhttp : base.getProtocol ∈ [literal "http:", literal "https:"]) (hbase : base.Hierarchical)
    (hscheme : (unparsed (stripLeadingAndTrailingWhitespace text)).hasScheme = none)
    (hv : (unparsed (stripLeadingAndTrailingWhitespace text)).parseHTTPRelative = some v) :
    ofRelative base text = v.merge base true := by
  obtain ⟨_, _, _, hlaid⟩ := hbase.laid
  have hprotocol : (base.hasProtocol "http" || base.hasProtocol "https") = true := by
    simp only [List.mem_cons, List.not_mem_nil, or_false] at hhttp
    rcases hhttp with hp | hp <;>
      rw [hasProtocol_of_protocol hlaid.protocolEnd_le hp,
        hasProtocol_of_protocol hlaid.protocolEnd_le hp] <;> decide
  simp only [ofRelative, hscheme, parseRelative, hprotocol, if_true, hv, Option.map_some,
    Option.getD_some]

/-- A reference without a scheme is resolved as by the generic algorithm, its host in lower case. -/
theorem ofRelative_resolves {base : Url} {text : U16String}
    (hhttp : base.getProtocol ∈ [literal "http:", literal "https:"]) (hbase : base.Hierarchical)
    (hscheme : (Uri.split (stripLeadingAndTrailingWhitespace text)).scheme = none)
    (henc : WellEncoded (stripLeadingAndTrailingWhitespace text))
    (hauthority : ∀ authority,
      (Uri.split (stripLeadingAndTrailingWhitespace text)).authority = some authority →
        readsAuthority (stripLeadingAndTrailingWhitespace text) authority) :
    (ofRelative base text).url = (rootedTarget (Uri.transform (Uri.split base.url)
      (lowered (stripLeadingAndTrailingWhitespace text)))).recompose := by
  have hno := hasScheme_none hscheme
  have heq {v : Url} (hv) := ofRelative_eq (v := v) hhttp hbase hno hv
  generalize stripLeadingAndTrailingWhitespace text = s at hscheme henc hauthority heq ⊢
  have hsplit := Uri.split_of_no_scheme hscheme
  by_cases hstarts : startsAt s 0 "//" = true
  · obtain ⟨rest, rfl⟩ := startsAt_slashes.mp hstarts
    have hown : Uri.splitAuthority (Uri.slash :: Uri.slash :: rest) =
        (some (rest.takeWhile isAuthorityText), rest.dropWhile isAuthorityText) := by
      simp [Uri.splitAuthority]
    rw [hown] at hsplit
    obtain ⟨v, hv, hread, hne, hhost⟩ :=
      parseHTTPRelative_own henc (hauthority _ (by rw [hsplit]))
    have hrooted : (rest.dropWhile isAuthorityText).takeWhile isPathText = [] ∨
        ((rest.dropWhile isAuthorityText).takeWhile isPathText).head? = some Uri.slash := by
      rcases Uri.authority_rest_path rest with ⟨hnil, _⟩ | hhead
      · exact .inl hnil
      · refine .inr ?_
        cases hrest : rest.dropWhile isAuthorityText with
        | nil =>
          rw [hrest] at hhead
          cases hhead
        | cons c tail =>
          rw [hrest] at hhead
          obtain rfl := Option.some.inj hhead
          rfl
    rw [heq hv, merge_own_authority hbase hrooted hread hne hhost, lowered, hsplit]
    rfl
  · rw [splitAuthority_none hstarts] at hsplit
    obtain ⟨v, hv, hread, hsame⟩ := parseHTTPRelative_same henc hstarts
    rw [heq hv, merge_same_authority hbase hread hsame, lowered, hsplit]
    rfl

/-- A URL that was built with an http or https protocol is hierarchical. -/
theorem Construction.hierarchical (c : Construction)
    (h : c.build.getProtocol ∈ [literal "http:", literal "https:"]) : c.build.Hierarchical := by
  have hnot (hp : c.build.getProtocol = literal "about:" ∨ c.build.getProtocol = literal "data:" ∨
      c.build.getProtocol = []) : False := by
    rcases hp with hp | hp | hp <;> rw [hp] at h <;> revert h <;> decide
  cases c.standing with
  | cleared hb => exact absurd (.inr (.inr (by rw [hb]; rfl))) hnot
  | hierarchical hb => exact hb
  | flat hb =>
    have hp := hb.protocol
    simp only [List.mem_cons, List.not_mem_nil, or_false] at hp
    exact absurd (hp.imp_right .inl) hnot
  | stray hb => exact absurd (.inl hb.protocol) hnot

/-! ## Names as authorities -/

/-- A character of a name: nothing that ends the host. -/
def isNameText (c : Nat) : Bool :=
  isAuthorityText c && c ≠ ':'.toNat && c ≠ '@'.toNat

/-- The end of a name: of the string, of the authority, or the colon of a port. -/
def NameEnd (url : U16String) (stop : Nat) : Prop :=
  stop = url.length ∨ charAt url stop = ':'.toNat ∨ isAuthorityText (charAt url stop) = false

theorem toLower_isNameText {c : Nat} (h : isNameText c = true) : isNameText (toLower c) = true := by
  unfold toLower
  split
  · rename_i hupper
    refine Decidable.byContradiction fun hc => ?_
    have hA : 'A'.toNat = 65 := rfl
    have hZ : 'Z'.toNat = 90 := rfl
    have ha : 'a'.toNat = 97 := rfl
    have hslash : Uri.slash = 47 := rfl
    have hquestion : Uri.questionMark = 63 := rfl
    have hnumber : Uri.numberSign = 35 := rfl
    have hcolon : ':'.toNat = 58 := rfl
    have hat : '@'.toNat = 64 := rfl
    simp only [isNameText, isAuthorityText, Bool.and_eq_true, decide_eq_true_eq] at hc
    omega
  · exact h

/-- A character of a name is unreserved or delimits a subcomponent, but for the percent sign. -/
theorem name_cases {url : U16String} {pos : Nat} (h : isNameText (charAt url pos) = true)
    (hpercent : charAt url pos ≠ '%'.toNat) :
    parseUnreservedChar url pos = some (pos + 1) ∨ isSubDelims (charAt url pos) = true := by
  unfold parseUnreservedChar
  simp only [isNameText, Bool.and_eq_true, decide_eq_true_eq] at h
  obtain ⟨⟨hauthority, hcolon⟩, hat⟩ := h
  by_cases hascii : charAt url pos < 0x7f
  · rcases ascii_cases _ hascii with hc | hc | hc | hc
    · exact .inl (if_pos hc)
    · simp only [Bool.or_eq_true, decide_eq_true_eq] at hc
      exact .inr ((hc.resolve_right hat).resolve_right hcolon)
    · exact absurd hc hpercent
    · rw [hauthority] at hc
      cases hc
  · have hlarge : (0x7f ≤ charAt url pos) = True := eq_true (Nat.le_of_not_lt hascii)
    refine .inl (if_pos ?_)
    simp only [hlarge, decide_true, Bool.or_true, Bool.true_or]

/-- The characters that end a name. -/
theorem nameEnd_cases {c : Nat} (h : isNameText c = false) :
    c = ':'.toNat ∨ c = '@'.toNat ∨ c = '/'.toNat ∨ c = '?'.toNat ∨ c = '#'.toNat := by
  simp only [isNameText, Bool.and_eq_false_iff, decide_eq_false_iff_not, Decidable.not_not] at h
  rcases h with (h | h) | h
  · exact .inr (.inr (delimiter_cases h))
  · exact .inl h
  · exact .inr (.inl h)

theorem NameEnd.ends {url : U16String} {stop : Nat} (h : NameEnd url stop) :
    Ends isNameText url stop := by
  refine h.imp_right fun h => ?_
  rcases h with h | h
  · rw [h]
    decide
  · rw [isNameText, h]
    rfl

/-- A character that ends a name is not read. -/
theorem nameEnd_char {url : U16String} {pos : Nat} (h : isNameText (charAt url pos) = false) :
    parsePercentEncoded url pos = none ∧ toLower (charAt url pos) = charAt url pos ∧
      parseUnreservedChar url pos = none ∧ isSubDelims (charAt url pos) = false := by
  have hcases := nameEnd_cases h
  have hascii : charAt url pos < 0x80 := by
    rcases hcases with hc | hc | hc | hc | hc <;> rw [hc] <;> decide
  unfold parsePercentEncoded parseUnreservedChar
  rcases hcases with hc | hc | hc | hc | hc <;> rw [hc] <;>
    exact ⟨if_pos (by decide), by decide, (if_neg (by decide)).trans (parseUCSChar_ascii hascii),
      by decide⟩

theorem set_self {url : U16String} {pos : Nat} : url.set pos (charAt url pos) = url := by
  refine List.ext_getElem List.length_set fun i hi hi' => ?_
  rw [List.getElem_set]
  split
  · rename_i heq
    subst heq
    exact charAt_eq hi'
  · rfl

/-- A name is read to its end. -/
theorem parseIregName_exact (turns : Nat) :
    ∀ (url : U16String) (pos stop : Nat), EncodedFrom url pos → pos ≤ stop → stop ≤ url.length →
      (∀ i, pos ≤ i → i < stop → isNameText (charAt url i) = true) → Ends isNameText url stop →
      stop < pos + turns → (parseIregName turns url pos).2 = stop := by
  induction turns with
  | zero =>
    intro url pos stop _ _ _ _ _ hturns
    omega
  | succ turns ih =>
    intro url pos stop henc hpos hstop hname hend hturns
    simp only [parseIregName]
    by_cases hlength : url.length ≤ pos
    · rw [if_pos hlength]
      exact Nat.le_antisymm hpos (Nat.le_trans hstop hlength)
    rw [if_neg hlength]
    rcases Nat.eq_or_lt_of_le hpos with rfl | hlt
    · obtain ⟨hpercent, hlower, hunreserved, hsub⟩ :=
        nameEnd_char (hend.resolve_left (by omega))
      simp only [hpercent, hlower, set_self, hunreserved, hsub, Bool.false_eq_true, if_false]
    by_cases hpercent : charAt url pos = '%'.toNat
    · obtain ⟨hone, htwo⟩ := henc pos (Nat.le_refl pos) (by omega) hpercent
      -- The digits belong to the name, for neither of them ends it.
      have hinside {k : Nat} (hk : k ≤ stop) (hdigit : isHexDigit (charAt url k) ≠ 0) :
          k < stop := by
        refine Nat.lt_of_le_of_ne hk fun heq => ?_
        subst heq
        rcases hend with hend | hend
        · have := lt_of_isHexDigit hdigit
          omega
        · rcases nameEnd_cases hend with hc | hc | hc | hc | hc <;> rw [hc] at hdigit <;>
            exact hdigit (by decide)
      have h1 := hinside hlt hone
      have h2 := hinside h1 htwo
      simp only [parsePercentEncoded_isSome hpercent hone htwo]
      exact ih url (pos + 3) stop (fun i hi => henc i (by omega)) h2 hstop
        (fun i hi => hname i (by omega)) hend (by omega)
    · have hnone : parsePercentEncoded url pos = none := if_pos hpercent
      have hchar : charAt (url.set pos (toLower (charAt url pos))) pos =
          toLower (charAt url pos) := by
        rw [charAt_set, if_pos ⟨rfl, by omega⟩]
      have hother {i : Nat} (hi : pos + 1 ≤ i) :
          charAt (url.set pos (toLower (charAt url pos))) i = charAt url i := by
        rw [charAt_set, if_neg (by omega)]
      have hlower : toLower (charAt url pos) ≠ '%'.toNat := by
        unfold toLower
        split
        · have ha : 'a'.toNat - 'A'.toNat = 32 := rfl
          have hA : 'A'.toNat = 65 := rfl
          have hp : '%'.toNat = 37 := rfl
          omega
        · exact hpercent
      have hlen : (url.set pos (toLower (charAt url pos))).length = url.length := List.length_set
      have hrest := ih (url.set pos (toLower (charAt url pos))) (pos + 1) stop
        (fun i hi hilt hc => by
          rw [hother hi] at hc
          rw [hother (by omega), hother (by omega)]
          exact henc i (by omega) (by omega) hc)
        hlt (by omega)
        (fun i hi hilt => by
          rw [hother hi]
          exact hname i (by omega) hilt)
        (by
          unfold Ends
          rw [hother hlt, hlen]
          exact hend)
        (by omega)
      simp only [hnone]
      have hcase := toLower_isNameText (hname pos (Nat.le_refl pos) hlt)
      rw [← hchar] at hcase hlower
      rcases name_cases hcase hlower with hunreserved | hsub
      · simp only [hunreserved]
        exact hrest
      · cases hunreserved : parseUnreservedChar (url.set pos (toLower (charAt url pos))) pos with
        | some next =>
          obtain rfl := parseUnreservedChar_succ hunreserved
          exact hrest
        | none =>
          simp only [hsub, if_true]
          exact hrest

/-- A port: nothing, or a colon and digits. -/
def IsPort (port : U16String) : Prop :=
  port = [] ∨ ∃ digits, port = ':'.toNat :: digits ∧ ∀ c ∈ digits, isDigit c = true

/-- A name that starts with no digit and no bracket is a host for the parser. -/
theorem parseHost_name {text : U16String} {stop : Nat} (henc : WellEncoded text) (hlt : 2 < stop)
    (hstop : stop ≤ text.length) (hname : ∀ i, 2 ≤ i → i < stop → isNameText (charAt text i) = true)
    (hdigit : isDigit (charAt text 2) = false) (hbracket : charAt text 2 ≠ '['.toNat)
    (hend : NameEnd text stop) : (parseHost text 2).2 = stop := by
  have hliteral : parseIPLiteral text 2 = none := if_pos hbracket
  have haddress : parseIPv4Address text 2 = none := by
    obtain ⟨turns, hturns⟩ : ∃ turns, text.length = turns + 1 := ⟨text.length - 1, by omega⟩
    have hoctet : parseOctet text 2 text.length 2 0 = none := by
      rw [hturns, parseOctet, if_neg (by omega), if_neg (by rw [hdigit]; exact Bool.false_ne_true)]
      exact if_pos rfl
    rw [parseIPv4Address, parseIPv4From, hoctet]
  simp only [parseHost, hliteral, haddress]
  exact parseIregName_exact text.length text 2 stop
    (fun i _ hi => henc i hi) (Nat.le_of_lt hlt) hstop hname hend.ends (by omega)

/-- A name, with a port or without, is an authority that is read to its end. -/
theorem readsAuthority_name {rest name port : U16String}
    (henc : WellEncoded (Uri.slash :: Uri.slash :: rest))
    (hauthority : rest.takeWhile isAuthorityText = name ++ port)
    (hname : ∀ c ∈ name, isNameText c = true) (hport : IsPort port)
    (hfirst : ∃ c, name.head? = some c ∧ isDigit c = false ∧ c ≠ '['.toNat) :
    readsAuthority (Uri.slash :: Uri.slash :: rest) (rest.takeWhile isAuthorityText) := by
  have hsplit := List.takeWhile_append_dropWhile (p := isAuthorityText) (l := rest)
  rw [hauthority, List.append_assoc] at hsplit
  rw [hauthority]
  have hdelimiter : ∀ c, (rest.dropWhile isAuthorityText).head? = some c →
      isAuthorityText c = false := by
    intro c hc
    cases hrest : rest.dropWhile isAuthorityText with
    | nil =>
      rw [hrest] at hc
      cases hc
    | cons d tail =>
      have hhead := List.head_dropWhile_not isAuthorityText (l := rest) (by rw [hrest]; exact nofun)
      simp only [hrest, List.head_cons, List.head?_cons, Option.some.injEq] at hhead hc
      rw [← hc, hhead]
  generalize rest.dropWhile isAuthorityText = tail at hsplit hdelimiter
  subst hsplit
  obtain ⟨c, hhead, hdigit, hbracket⟩ := hfirst
  obtain ⟨name', hname'⟩ : ∃ name', name = c :: name' := by
    cases name with
    | nil => cases hhead
    | cons d name' => exact ⟨name', by rw [Option.some.inj hhead]⟩
  have hlen : 0 < name.length := by rw [hname']; exact Nat.succ_pos _
  generalize htext : Uri.slash :: Uri.slash :: (name ++ (port ++ tail)) = text at henc ⊢
  have htextLen : text.length = 2 + name.length + (port ++ tail).length := by
    rw [← htext]
    simp only [List.length_cons, List.length_append]
    omega
  have hdrop : text.drop (2 + name.length) = port ++ tail := by
    rw [← htext, ← List.drop_drop]
    exact List.drop_left
  have hchar (i : Nat) (hi : i < name.length) : charAt text (2 + i) = charAt name i := by
    rw [← charAt_drop, ← htext]
    exact charAt_append_left hi
  have hzero : charAt text 2 = c := by
    rw [show 2 = 2 + 0 from rfl, hchar 0 hlen, hname']
    rfl
  have hbehind : charAt text (2 + name.length) = charAt (port ++ tail) 0 := by
    rw [← hdrop, charAt_drop, Nat.add_zero]
  have hhost : (parseHost text 2).2 = 2 + name.length := by
    refine parseHost_name henc (by omega) (by omega) (fun i hi hlt => ?_) (by rw [hzero, hdigit])
      (by rw [hzero]; exact hbracket) ?_
    · have hi' : i = 2 + (i - 2) := by omega
      rw [hi', hchar _ (by omega)]
      refine hname _ ?_
      rw [charAt_eq (by omega)]
      exact List.getElem_mem _
    · unfold NameEnd
      rw [hbehind]
      rcases hport with rfl | ⟨digits, rfl, _⟩
      · cases tail with
        | nil => exact .inl (by rw [htextLen]; rfl)
        | cons d tail => exact .inr (.inr (hdelimiter d rfl))
      · exact .inr (.inl rfl)
  have hreads := parseHost_reads text (show 2 ≤ text.length by omega)
  have hcolon : charAt (parseHost text 2).1 (2 + name.length) = charAt (port ++ tail) 0 := by
    rw [hreads.outside _ (.inr (Nat.le_of_eq hhost)), hbehind]
  unfold readsAuthority parseAuthority
  rw [show (unparsed text).url = text from rfl]
  simp only [hhost, hcolon]
  rw [if_neg (by omega)]
  rcases hport with rfl | ⟨digits, rfl, hdigits⟩
  · have hno : ¬ charAt ([] ++ tail) 0 = ':'.toNat := by
      intro hc
      cases tail with
      | nil => exact absurd hc (by decide)
      | cons d tail =>
        have := hdelimiter d rfl
        rw [show d = ':'.toNat from hc] at this
        revert this
        decide
    simp only [hno, decide_false, Bool.false_eq_true, if_false, Option.map_some, List.append_nil]
    rw [Nat.add_comm]
  · have hyes : charAt (':'.toNat :: digits ++ tail) 0 = ':'.toNat := rfl
    have hskip : skipDigits (parseHost text 2).1 (2 + name.length + 1) =
        2 + name.length + 1 + digits.length := by
      have hrest : (parseHost text 2).1.drop (2 + name.length + 1) = digits ++ tail := by
        rw [drop_of_hostRead hreads (by omega), ← List.drop_drop, hdrop]
        rfl
      rw [skipDigits, hrest, (Uri.span_append tail hdigits fun d hd => ?_).1]
      refine Bool.eq_false_iff.mpr fun hdigit => ?_
      have := isAuthorityText_of_isDigit hdigit
      rw [hdelimiter d hd] at this
      cases this
    simp only [hyes, decide_true, if_true, hskip, Option.map_some, List.length_append,
      List.length_cons]
    rw [show 2 + name.length + 1 + digits.length = name.length + (digits.length + 1) + 2 by omega]

/-- Every path loses its dot segments as by the generic algorithm, with `/` for the empty path; every
    reference without a scheme, whose authority is read to its end, is resolved by it against every
    URL of the http schemes; and an authority is, where its host is a name. -/
theorem Construction.resolves :
    (∀ path, removeDotSegments path = rooted (Uri.removeDotSegments path) ∧
      removeDotSegments (removeDotSegments path) = removeDotSegments path ∧
      Uri.NoDots (removeDotSegments path)) ∧
    (∀ (base : Construction) (text : U16String),
      base.build.getProtocol ∈ [literal "http:", literal "https:"] →
      (Uri.split (stripLeadingAndTrailingWhitespace text)).scheme = none →
      WellEncoded (stripLeadingAndTrailingWhitespace text) →
      (∀ authority,
        (Uri.split (stripLeadingAndTrailingWhitespace text)).authority = some authority →
          readsAuthority (stripLeadingAndTrailingWhitespace text) authority) →
      (Construction.relative base text).build.url =
        (rootedTarget (Uri.transform (Uri.split base.build.url)
          (lowered (stripLeadingAndTrailingWhitespace text)))).recompose) ∧
    ∀ rest name port : U16String, WellEncoded (literal "//" ++ rest) →
      rest.takeWhile isAuthorityText = name ++ port → (∀ c ∈ name, isNameText c = true) →
      IsPort port → (∃ c, name.head? = some c ∧ isDigit c = false ∧ c ≠ '['.toNat) →
      readsAuthority (literal "//" ++ rest) (rest.takeWhile isAuthorityText) :=
  ⟨fun path => ⟨removeDotSegments_eq path, removeDotSegments_idem path,
    removeDotSegments_noDots path⟩,
    fun base _ hhttp hscheme henc hauthority =>
      ofRelative_resolves hhttp (base.hierarchical hhttp) hscheme henc hauthority,
    fun _ _ _ henc hauthority hname hport hfirst =>
      readsAuthority_name henc hauthority hname hport hfirst⟩

/-- `//Example.COM:80/b/../c?q` against `http://a/`, and `example.com` as an authority. -/
theorem Construction.resolves_example :
    (Construction.relative (.string (literal "http://a/"))
      (literal "//Example.COM:80/b/../c?q")).build.url = literal "http://example.com:80/c?q" ∧
    readsAuthority (literal "//example.com") (literal "example.com") := by
  have hstrip : stripLeadingAndTrailingWhitespace (literal "//Example.COM:80/b/../c?q") =
      literal "//Example.COM:80/b/../c?q" := by decide +kernel
  refine ⟨?_, ?_⟩
  · refine (Construction.resolves.2.1 (.string (literal "http://a/"))
      (literal "//Example.COM:80/b/../c?q") (by decide +kernel) ?_ ?_ ?_).trans ?_
    · rw [hstrip]
      decide +kernel
    · rw [hstrip]
      unfold WellEncoded
      decide +kernel
    · rw [hstrip]
      intro authority h
      obtain rfl : literal "Example.COM:80" = authority := Option.some.inj h
      unfold readsAuthority
      decide +kernel
    · rw [hstrip]
      decide +kernel
  · refine Construction.resolves.2.2 (literal "example.com") (literal "example.com") [] ?_
      (by decide +kernel) (by decide +kernel) (.inl rfl) ⟨'e'.toNat, by decide +kernel⟩
    unfold WellEncoded
    decide +kernel

/-- The generic algorithm keeps the case of `//EXAMPLE.com/`. -/
theorem Construction.resolves_fails :
    ¬ ∀ (base : Construction) (text : U16String),
      base.build.getProtocol ∈ [literal "http:", literal "https:"] →
      (Uri.split (stripLeadingAndTrailingWhitespace text)).scheme = none →
      (Construction.relative base text).build.url =
        (rootedTarget (Uri.transform (Uri.split base.build.url)
          (Uri.split (stripLeadingAndTrailingWhitespace text)))).recompose := by
  intro h
  have hcase := h (.string (literal "http://a/")) (literal "//EXAMPLE.com/") (by decide +kernel)
    (by decide +kernel)
  revert hcase
  decide +kernel

end EsOs.Escort.Url
