import EsOs.Escort.Components
import EsOs.Escort.Proofs.Parser

/-!
# Every parser lays the components out

The four parsers and the merge with a base put the components of a URL one behind the other over the
whole string. From that layout the promises of the accessors follow. The one merge that does not do
so is that of a reference with an `about:` URL: it makes a new string, but leaves the offsets of the
path where the reference had it.
-/

namespace EsOs.Escort

open Uri (isAuthorityText isPathText isQueryText)

/-! ## Parts of a string -/

theorem substr_self (url : U16String) (i : Nat) : substr url i i = [] := by
  simp [substr]

theorem substr_all (url : U16String) : substr url 0 url.length = url := by
  simp [substr]

theorem length_substr {url : U16String} {i j : Nat} (h : j ≤ url.length) :
    (substr url i j).length = j - i := by
  simp only [substr, List.length_take, List.length_drop]
  omega

theorem substr_append (url : U16String) {i j k : Nat} (hij : i ≤ j) (hjk : j ≤ k) :
    substr url i j ++ substr url j k = substr url i k := by
  have hk : k - i = (j - i) + (k - j) := by omega
  have hj : url.drop j = (url.drop i).drop (j - i) := by
    rw [List.drop_drop]
    congr 1
    omega
  simp only [substr, hk, hj, List.take_add]

theorem head?_substr {url : U16String} {i j : Nat} (hij : i < j) (hj : j ≤ url.length) :
    (substr url i j).head? = some (charAt url i) := by
  have hi : i < url.length := by omega
  rw [substr, List.head?_take, if_neg (by omega), List.head?_drop, charAt_eq hi]
  simp [hi]

/-- A part of a concatenation that is one of its pieces. -/
theorem substr_middle (front middle rest : U16String) :
    substr (front ++ middle ++ rest) front.length (front ++ middle).length = middle := by
  have hn : (front ++ middle).length - front.length = middle.length := by simp
  simp [substr, hn]

/-- The same characters make the same part. -/
theorem substr_congr {url url' : U16String} {i j : Nat} (hj : j ≤ url.length)
    (hj' : j ≤ url'.length) (h : ∀ k, i ≤ k → k < j → charAt url' k = charAt url k) :
    substr url' i j = substr url i j := by
  refine List.ext_getElem (by rw [length_substr hj, length_substr hj']) fun k hk hk' => ?_
  rw [length_substr hj'] at hk
  have := h (i + k) (by omega) (by omega)
  rw [charAt_eq (by omega), charAt_eq (by omega)] at this
  simpa [substr] using this

/-- The characters of a part that was read. -/
theorem Reads.substr {p : Nat → Bool} {url : U16String} {i j : Nat} (h : Reads p url i j) :
    ∀ c ∈ substr url i j, p c = true := by
  intro c hc
  obtain ⟨k, hk, rfl⟩ := List.mem_iff_getElem.mp hc
  have hlen := length_substr (i := i) h.inString
  have hget : (EsOs.Escort.substr url i j)[k] = charAt url (i + k) := by
    rw [charAt_eq (by have := h.inString; omega)]
    simp [EsOs.Escort.substr]
  rw [hget]
  exact h.all _ (by omega) (by omega)

/-! ## Layouts -/

/-- The range is the place from `i` to `j`, or it is absent and the place is empty. -/
structure Range.Fills (r : Range) (i j : Nat) : Prop where
  le : i ≤ j
  fills : (r.first = i ∧ r.last = j) ∨ (r.absent ∧ i = j ∧ r.last ≤ i)

namespace Range.Fills

theorem inString {r : Range} {i j n : Nat} (h : r.Fills i j) (hn : j ≤ n) : r.inString n := by
  have := h.le
  rcases h.fills with ⟨hi, hj⟩ | ⟨he, hij, hlast⟩
  · exact ⟨by omega, by omega⟩
  · exact ⟨by rw [Range.absent] at he; omega, by omega⟩

theorem before {r s : Range} {i j k l : Nat} (hr : r.Fills i j) (hs : s.Fills k l) (h : j ≤ k) :
    r.before s := by
  rcases hr.fills with ⟨_, hj⟩ | ⟨he, _, _⟩
  · rcases hs.fills with ⟨hk, _⟩ | ⟨he, _, _⟩
    · exact .inr (.inr (by omega))
    · exact .inr (.inl he)
  · exact .inl he

theorem substr_eq {r : Range} {i j : Nat} (h : r.Fills i j) (url : U16String) :
    substr url r.first r.last = substr url i j := by
  rcases h.fills with ⟨hi, hj⟩ | ⟨he, hij, _⟩
  · rw [hi, hj]
  · rw [he, hij, substr_self, substr_self]

end Range.Fills

namespace Url

/-- The components one behind the other: the host up to `h`, the path up to `p`, the search up to
    `s`, the hash up to the end. -/
structure Laid (u : Url) (h p s : Nat) : Prop where
  slashes : substr u.url u.protocolEnd (u.protocolEnd + u.slashes.length) = u.slashes
  host : u.host.Fills (u.protocolEnd + u.slashes.length) h
  hostname : u.hostStart ≤ u.hostnameStart ∧ u.hostnameStart ≤ u.hostnameEnd ∧
    u.hostnameEnd ≤ u.hostEnd
  port : (u.port.absent ∧ u.portEnd ≤ u.hostEnd) ∨
    (u.hostnameEnd ≤ u.portStart ∧ u.portStart ≤ u.portEnd ∧ u.portEnd ≤ u.hostEnd)
  path : u.pathname.Fills h p
  search : u.search.Fills p s
  hash : u.hash.Fills s u.url.length
  question : p ≠ s → charAt u.url p = '?'.toNat
  number : s ≠ u.url.length → charAt u.url s = '#'.toNat

theorem Laid.wellFormed {u : Url} {h p s : Nat} (l : u.Laid h p s) : u.WellFormed := by
  have hprotocol : u.protocol.Fills 0 u.protocolEnd := ⟨Nat.zero_le _, .inl ⟨rfl, rfl⟩⟩
  have hh := l.host.le
  have hp := l.path.le
  have hs := l.search.le
  have hend := l.hash.le
  have hhost := l.host.inString (n := u.url.length) (by omega)
  obtain ⟨hname, hname', hname''⟩ := l.hostname
  have hhostEnd : u.hostEnd ≤ u.url.length := hhost.2
  refine ⟨?_, ?_, ?_, ?_, ?_, ?_, ?_, ?_⟩
  · intro r hr
    simp only [List.mem_cons, List.not_mem_nil, or_false] at hr
    rcases hr with rfl | rfl | rfl | rfl | rfl | rfl | rfl
    · exact hprotocol.inString (by omega)
    · exact hhost
    · exact ⟨hname', Nat.le_trans hname'' hhostEnd⟩
    · rcases l.port with ⟨habsent, hle⟩ | ⟨_, hle, hle'⟩
      · exact ⟨Nat.le_of_eq habsent, Nat.le_trans hle hhostEnd⟩
      · exact ⟨hle, Nat.le_trans hle' hhostEnd⟩
    · exact l.path.inString (by omega)
    · exact l.search.inString (by omega)
    · exact l.hash.inString (Nat.le_refl _)
  · simp only [List.pairwise_cons, List.mem_cons, List.not_mem_nil, or_false, forall_eq_or_imp,
      forall_eq, false_implies, implies_true, and_true]
    exact ⟨⟨hprotocol.before l.host (by omega), hprotocol.before l.path (by omega),
      hprotocol.before l.search (by omega), hprotocol.before l.hash (by omega)⟩,
      ⟨l.host.before l.path (by omega), l.host.before l.search (by omega),
        l.host.before l.hash (by omega)⟩,
      ⟨l.path.before l.search (by omega), l.path.before l.hash (by omega)⟩,
      l.search.before l.hash (by omega), trivial, List.Pairwise.nil⟩
  · exact .inr ⟨hname, hname''⟩
  · rcases l.port with ⟨habsent, _⟩ | ⟨hge, _, hle⟩
    · exact .inl habsent
    · exact .inr ⟨show u.hostStart ≤ u.portStart by omega, hle⟩
  · rcases l.port with ⟨habsent, _⟩ | ⟨hge, _, _⟩
    · exact .inr (.inl habsent)
    · exact .inr (.inr hge)
  · rw [getSearch, show substr u.url u.searchStart u.searchEnd = substr u.url p s
      from l.search.substr_eq u.url]
    by_cases hps : p = s
    · exact .inl (by rw [hps, substr_self])
    · exact .inr (by rw [head?_substr (by omega) hend, l.question hps])
  · rw [getHash, show substr u.url u.hashStart u.hashEnd = substr u.url s u.url.length
      from l.hash.substr_eq u.url]
    by_cases hse : s = u.url.length
    · exact .inl (by rw [hse, substr_self])
    · exact .inr (by rw [head?_substr (by omega) (Nat.le_refl _), l.number hse])
  · have h1 : u.getHost = substr u.url (u.protocolEnd + u.slashes.length) h :=
      l.host.substr_eq u.url
    have h2 : u.getPathname = substr u.url h p := l.path.substr_eq u.url
    have h3 : u.getSearch = substr u.url p s := l.search.substr_eq u.url
    have h4 : u.getHash = substr u.url s u.url.length := l.hash.substr_eq u.url
    have h0 : u.getProtocol ++ u.slashes = substr u.url 0 (u.protocolEnd + u.slashes.length) := by
      rw [← substr_append u.url (Nat.zero_le u.protocolEnd) (Nat.le_add_right _ _), l.slashes]
      rfl
    rw [h1, h2, h3, h4, h0, substr_append _ (by omega) hh, substr_append _ (by omega) hp,
      substr_append _ (by omega) hs, substr_append _ (by omega) hend, substr_all]

/-! ## Schemes -/

/-- What `hasScheme` leaves: the string up to a colon is the protocol. -/
structure Schemed (u : Url) : Prop where
  colon : charAt u.url (u.protocolEnd - 1) = ':'.toNat
  pos : 0 < u.protocolEnd

theorem Schemed.le {u : Url} (h : u.Schemed) : u.protocolEnd ≤ u.url.length := by
  have := lt_of_charAt h.colon (by decide)
  have := h.pos
  omega

/-- A URL that was parsed no further than its scheme. -/
def Blank (u : Url) : Prop :=
  u = { unparsed u.url with protocolEnd := u.protocolEnd }

theorem hasScheme_spec {u v : Url} (h : u.hasScheme = some v) :
    v.Schemed ∧ v = { u with url := v.url, protocolEnd := v.protocolEnd } ∧
      v.url.length = u.url.length := by
  unfold hasScheme at h
  by_cases halpha : isAlpha (charAt u.url 0) = true
  · rw [if_pos halpha] at h
    dsimp only at h
    generalize 1 + ((u.url.drop 1).takeWhile isSchemeChar).length = pos at h
    by_cases hcolon : charAt u.url pos = ':'.toNat
    · rw [if_pos hcolon] at h
      have hlt := lt_of_charAt hcolon (by decide)
      obtain rfl := Option.some.inj h
      refine ⟨⟨?_, Nat.succ_pos pos⟩, rfl, ?_⟩
      · rw [charAt_eq hlt] at hcolon
        simp only [charAt, List.getD, Nat.add_sub_cancel]
        rw [List.getElem?_append_left (by simp; omega)]
        simp [hlt, hcolon, toLower]
      · simp
        omega
    · rw [if_neg hcolon] at h
      cases h
  · rw [if_neg halpha] at h
    cases h

/-- The protocol is a scheme that was compared with and its colon. -/
theorem protocol_of_hasProtocol {u : Url} (hu : u.Schemed) {scheme : String}
    (h : u.hasProtocol scheme = true) : u.getProtocol = literal scheme ++ [':'.toNat] := by
  have htake := of_decide_eq_true h
  have hpos := hu.pos
  have hle := hu.le
  have hsplit := substr_append u.url (Nat.zero_le (u.protocolEnd - 1)) (Nat.sub_le _ 1)
  have hlast : substr u.url (u.protocolEnd - 1) u.protocolEnd = [':'.toNat] := by
    have hlen : (substr u.url (u.protocolEnd - 1) u.protocolEnd).length = 1 := by
      rw [length_substr hle]
      omega
    have hhead : (substr u.url (u.protocolEnd - 1) u.protocolEnd).head? =
        some (charAt u.url (u.protocolEnd - 1)) := head?_substr (by omega) hle
    obtain ⟨c, hc⟩ := List.length_eq_one_iff.mp hlen
    rw [hc, hu.colon] at hhead
    simpa [hc] using hhead
  rw [getProtocol, ← hsplit, hlast, ← htake]
  simp [substr]

/-- Conversely, the protocol decides every comparison. -/
theorem hasProtocol_of_protocol {u : Url} (hle : u.protocolEnd ≤ u.url.length) {t : U16String}
    (h : u.getProtocol = t) (scheme : String) :
    u.hasProtocol scheme = decide (t.take (t.length - 1) = literal scheme) := by
  have hlen : t.length = u.protocolEnd := by
    rw [← h, getProtocol, length_substr hle, Nat.sub_zero]
  have htake : t.take (t.length - 1) = u.url.take (u.protocolEnd - 1) := by
    rw [hlen, ← h, getProtocol, substr, List.drop_zero, Nat.sub_zero, List.take_take,
      Nat.min_eq_left (Nat.sub_le _ 1)]
  rw [hasProtocol, htake]

/-! ## The end of a URL -/

/-- What `parseSearch` and then `parseHash` make of a URL whose path ends at `p`: only the offsets of
    these two components. -/
structure Tailed (u v : Url) (p s : Nat) : Prop where
  same : v = { u with
    searchStart := v.searchStart
    searchEnd := v.searchEnd
    hashStart := v.hashStart
    hashEnd := v.hashEnd }
  query : Reads isQueryText u.url p s
  search : v.search.Fills p s
  hash : v.hash.Fills s u.url.length
  question : p ≠ s → charAt u.url p = '?'.toNat
  number : s ≠ u.url.length → charAt u.url s = '#'.toNat

/-- No offset of the search or of the hash is set. -/
def Open (u : Url) : Prop :=
  u.searchStart = 0 ∧ u.searchEnd = 0 ∧ u.hashStart = 0 ∧ u.hashEnd = 0

theorem parseHash_spec {u v : Url} {s : Nat} (ho : u.hashStart = 0 ∧ u.hashEnd = 0)
    (hs : s ≤ u.url.length) (h : u.parseHash s = some v) :
    v = { u with hashStart := v.hashStart, hashEnd := v.hashEnd } ∧
      v.hash.Fills s u.url.length ∧ (s ≠ u.url.length → charAt u.url s = '#'.toNat) := by
  simp only [parseHash] at h
  split at h
  · rename_i hnumber
    have hlt := lt_of_charAt hnumber (by decide)
    have hread := parseFragment_reads u.url hlt
    split at h
    · rename_i hend
      simp only [Option.some.injEq] at h
      subst h
      exact ⟨rfl, ⟨hs, .inl ⟨rfl, Nat.le_antisymm hread.inString hend⟩⟩, fun _ => hnumber⟩
    · cases h
  · split at h
    · simp only [Option.some.injEq] at h
      subst h
      refine ⟨rfl, ⟨hs, .inr ⟨?_, by omega, ?_⟩⟩, fun hne => absurd (by omega) hne⟩
      · exact ho.1.trans ho.2.symm
      · exact Nat.le_trans (Nat.le_of_eq ho.2) (Nat.zero_le s)
    · cases h

/-- A hash without a search before it. -/
theorem parseHash_tailed {u v : Url} {p : Nat} (ho : u.Open) (hp : p ≤ u.url.length)
    (h : u.parseHash p = some v) : u.Tailed v p p := by
  obtain ⟨hs1, hs2, hh1, hh2⟩ := ho
  obtain ⟨hsame, hhash, hnumber⟩ := parseHash_spec ⟨hh1, hh2⟩ hp h
  have hsearch : v.search = u.search := by rw [hsame]; rfl
  refine ⟨by rw [hsame], .refl _ hp, ?_, hhash, fun hne => absurd rfl hne, hnumber⟩
  rw [hsearch]
  refine ⟨Nat.le_refl p, .inr ⟨hs1.trans hs2.symm, rfl, ?_⟩⟩
  exact Nat.le_trans (Nat.le_of_eq hs2) (Nat.zero_le p)

theorem parseTail_spec {u v : Url} {p : Nat} (ho : u.Open) (hp : p ≤ u.url.length)
    (h : (u.parseSearch p).1.parseHash (u.parseSearch p).2 = some v) :
    ∃ s, u.Tailed v p s := by
  obtain ⟨hs1, hs2, hh1, hh2⟩ := ho
  by_cases hquestion : charAt u.url p = '?'.toNat
  · have hlt := lt_of_charAt hquestion (by decide)
    have hchar : isQueryText (charAt u.url p) = true := by
      rw [hquestion]
      decide
    have hread := (Reads.char hlt hchar).trans (parseQuery_reads u.url hlt)
    rw [parseSearch, if_pos hquestion] at h
    obtain ⟨hsame, hhash, hnumber⟩ := parseHash_spec
      (u := { u with searchStart := p, searchEnd := parseQuery u.url (p + 1) })
      ⟨hh1, hh2⟩ hread.inString h
    have hsearch : v.search = ⟨p, parseQuery u.url (p + 1)⟩ := by rw [hsame]; rfl
    refine ⟨parseQuery u.url (p + 1), ?_, hread, ?_, hhash, fun _ => hquestion, hnumber⟩
    · rw [hsame]
    · rw [hsearch]
      exact ⟨hread.le, .inl ⟨rfl, rfl⟩⟩
  · rw [parseSearch, if_neg hquestion] at h
    exact ⟨p, parseHash_tailed ⟨hs1, hs2, hh1, hh2⟩ hp h⟩

/-! ## Hosts -/

theorem insertSlash_spec (url : U16String) {pos : Nat} (hpos : pos ≤ url.length) :
    charAt (insertSlash url pos) pos = '/'.toNat ∧
      ∀ i, i < pos → charAt (insertSlash url pos) i = charAt url i := by
  unfold insertSlash
  split
  · have hlen : url.length = pos := by omega
    refine ⟨?_, fun i hi => ?_⟩
    · simp [charAt, List.getD, literal, ← hlen]
    · simp only [charAt, List.getD]
      rw [List.getElem?_append_left (by omega)]
  split
  · have htake : (url.take pos).length = pos := by simp [hpos]
    refine ⟨?_, fun i hi => ?_⟩
    · simp only [charAt, List.getD, List.append_assoc]
      rw [List.getElem?_append_right (by omega), htake]
      simp [literal]
    · simp only [charAt, List.getD, List.append_assoc]
      rw [List.getElem?_append_left (by omega), List.getElem?_take, if_pos hi]
  · rename_i hslash
    exact ⟨Decidable.not_not.mp hslash, fun i _ => rfl⟩

/-- The host of `v` was read from `pos` to `stop`, where a slash follows. -/
structure Hosted (u v : Url) (pos stop : Nat) : Prop where
  same : v = { u with
    url := v.url
    hostStart := pos
    hostEnd := stop
    hostnameStart := pos
    hostnameEnd := v.hostnameEnd
    portStart := v.portStart
    portEnd := v.portEnd }
  hostname : pos ≤ v.hostnameEnd ∧ v.hostnameEnd ≤ stop
  port : (v.portStart = u.portStart ∧ v.portEnd = u.portEnd) ∨
    (v.hostnameEnd ≤ v.portStart ∧ v.portStart ≤ v.portEnd ∧ v.portEnd ≤ stop)
  host : Reads isAuthorityText v.url pos stop
  slash : charAt v.url stop = '/'.toNat
  front : ∀ i, i < pos → charAt v.url i = charAt u.url i

theorem Hosted.lt {u v : Url} {pos stop : Nat} (h : u.Hosted v pos stop) : stop < v.url.length :=
  lt_of_charAt h.slash (by decide)

/-- The slash behind a host leaves what was read. -/
theorem insertSlash_reads {url : U16String} {pos stop : Nat}
    (h : Reads isAuthorityText url pos stop) :
    Reads isAuthorityText (insertSlash url stop) pos stop := by
  obtain ⟨hslash, hfront⟩ := insertSlash_spec url h.inString
  have hlt := lt_of_charAt hslash (by decide)
  refine ⟨h.le, Nat.le_of_lt hlt, fun i hi hlt => ?_⟩
  rw [hfront i hlt]
  exact h.all i hi hlt

/-- Where a port starts and ends. -/
theorem port_reads (url : U16String) {nameEnd : Nat} (hend : nameEnd ≤ url.length) :
    let portStart := if charAt url nameEnd = ':'.toNat then nameEnd + 1 else nameEnd
    let portEnd := if charAt url nameEnd = ':'.toNat then skipDigits url portStart else nameEnd
    Reads isAuthorityText url nameEnd portStart ∧ Reads isAuthorityText url portStart portEnd := by
  intro portStart portEnd
  by_cases hcolon : charAt url nameEnd = ':'.toNat
  · have hread := colon_reads hcolon
    simp only [portEnd, portStart, if_pos hcolon]
    exact ⟨hread, (skipDigits_reads url hread.inString).mono fun _ => isAuthorityText_of_isDigit⟩
  · simp only [portEnd, portStart, if_neg hcolon]
    exact ⟨.refl _ hend, .refl _ hend⟩

theorem parseAuthority_spec {u v : Url} {pos stop : Nat} (hpos : pos ≤ u.url.length)
    (h : u.parseAuthority pos = some (v, stop)) : u.Hosted v pos stop ∧ pos < stop := by
  have hhost := parseHost_reads u.url hpos
  simp only [parseAuthority] at h
  split at h
  · cases h
  rename_i hne
  generalize (parseHost u.url pos).1 = url at h hhost
  generalize (parseHost u.url pos).2 = nameEnd at h hhost hne
  have hport := port_reads url hhost.reads.inString
  simp only [decide_eq_true_eq, Option.some.injEq, Prod.mk.injEq] at h hport
  obtain ⟨rfl, hstop⟩ := h
  rw [hstop] at hport
  have hread := (hhost.reads.trans hport.1).trans hport.2
  have hslash := insertSlash_spec url hread.inString
  have hlt : pos < stop := by
    have := hhost.reads.le
    have := hport.1.le
    have := hport.2.le
    omega
  refine ⟨⟨?_, ?_, ?_, ?_, ?_, ?_⟩, hlt⟩
  · simp only [hstop]
  · exact ⟨hhost.reads.le, Nat.le_trans hport.1.le hport.2.le⟩
  · refine .inr ⟨hport.1.le, ?_, ?_⟩
    · simpa only [hstop] using hport.2.le
    · simp only [hstop]
      exact Nat.le_refl stop
  · simpa only [hstop] using insertSlash_reads hread
  · simpa only [hstop] using hslash.1
  · intro i hi
    simp only [hstop]
    rw [hslash.2 i (by omega), hhost.outside i (.inl hi)]

theorem parseFileHost_spec {u : Url} {pos : Nat} (hpos : pos ≤ u.url.length) :
    u.Hosted (u.parseFileHost pos).1 pos (u.parseFileHost pos).2 := by
  have hhost := parseHost_reads u.url hpos
  have hle := hhost.reads.le
  have hslash := insertSlash_spec (parseHost u.url pos).1 hhost.reads.inString
  refine ⟨rfl, ⟨hle, Nat.le_refl _⟩, .inl ⟨rfl, rfl⟩, insertSlash_reads hhost.reads, hslash.1,
    fun i hi => ?_⟩
  exact (hslash.2 i (Nat.lt_of_lt_of_le hi hle)).trans (hhost.outside i (.inl hi))

/-! ## Absolute URLs -/

/-- The characters of the components of a hierarchical URL. -/
structure Spelled (u : Url) : Prop where
  host : ∀ c ∈ u.getHost, isAuthorityText c = true
  rooted : u.getPathname.head? = some '/'.toNat
  path : ∀ c ∈ u.getPathname, isPathText c = true
  search : ∀ c ∈ u.getSearch, isQueryText c = true

/-- A hierarchical URL, as the parsers and the merge leave it. -/
structure Hierarchical (u : Url) : Prop where
  protocol : u.getProtocol ∈ hierarchical
  hostStart : u.hostStart = u.protocolEnd + 2
  laid : ∃ h p s, u.Laid h p s
  spelled : u.Spelled

/-- A URL without a host, as the parsers leave it. -/
structure Flat (u : Url) : Prop where
  protocol : u.getProtocol ∈ [literal "about:", literal "data:"]
  noHost : u.hostStart = 0 ∧ u.hostEnd = 0 ∧ u.hostnameStart = 0 ∧ u.hostnameEnd = 0 ∧
    u.portStart = 0 ∧ u.portEnd = 0
  laid : ∃ h p s, u.Laid h p s

/-- Only the scheme has been read. -/
structure Started (u : Url) : Prop where
  schemed : u.Schemed
  blank : u = { unparsed u.url with protocolEnd := u.protocolEnd }

theorem slashes_of_hierarchical {u : Url} (h : u.getProtocol ∈ hierarchical) :
    u.slashes = literal "//" := if_pos h

theorem slashes_of_flat {u : Url} (h : u.getProtocol ∈ [literal "about:", literal "data:"]) :
    u.slashes = [] := by
  refine if_neg fun hmem => ?_
  simp only [hierarchical, List.mem_cons, List.not_mem_nil, or_false] at h hmem
  rcases h with h | h <;> rw [h] at hmem <;> revert hmem <;> decide

theorem getProtocol_congr {u v : Url} (hend : v.protocolEnd = u.protocolEnd)
    (hu : u.protocolEnd ≤ u.url.length) (hv : v.protocolEnd ≤ v.url.length)
    (h : ∀ i, i < u.protocolEnd → charAt v.url i = charAt u.url i) :
    v.getProtocol = u.getProtocol := by
  rw [getProtocol, getProtocol, hend]
  exact substr_congr hu (hend ▸ hv) fun i _ hi => h i hi

/-- A host, a path behind it and the tail: a hierarchical URL. -/
theorem hierarchical_of_parts {u w v : Url} {h p s : Nat} (hu : u.Started)
    (hsl : startsAt u.url u.protocolEnd "//" = true) (hier : u.getProtocol ∈ hierarchical)
    (hw : u.Hosted w (u.protocolEnd + 2) h)
    (hp : Reads isPathText w.url h p) (hlong : h < p) (ht : (w.setPathname h p).Tailed v p s) :
    v.Hierarchical := by
  have hpe := hu.schemed.le
  have hblank := hu.blank
  have hlt := hw.lt
  have hname := hw.hostname
  have hurl : v.url = w.url := by rw [ht.same]; rfl
  have hend : v.protocolEnd = u.protocolEnd := by rw [ht.same, hw.same]; rfl
  have hsub : u.protocolEnd + 2 ≤ u.url.length := (startsAt_two rfl hsl).1
  have hstart : v.hostStart = u.protocolEnd + 2 := by rw [ht.same, hw.same]; rfl
  have hprotocol : v.getProtocol = u.getProtocol := by
    refine getProtocol_congr hend hpe (by rw [hurl, hend]; omega) fun i hi => ?_
    rw [hurl, hw.front i (by omega)]
  have hslashes : v.slashes = literal "//" := slashes_of_hierarchical (hprotocol ▸ hier)
  have htwo : v.slashes.length = 2 := by rw [hslashes]; rfl
  have hhostEnd : v.hostEnd = h := by rw [ht.same, hw.same]; rfl
  have hpath : v.getPathname = substr w.url h p := by
    rw [getPathname, hurl, ht.same]
    rfl
  have hspelled : v.Spelled := by
    refine ⟨?_, ?_, ?_, ?_⟩
    · rw [getHost, hurl, hstart, hhostEnd]
      exact hw.host.substr
    · rw [hpath, head?_substr hlong hp.inString, hw.slash]
    · rw [hpath]
      exact hp.substr
    · have hsearch : v.getSearch = substr v.url p s := ht.search.substr_eq v.url
      rw [hsearch, hurl]
      exact ht.query.substr
  refine ⟨hprotocol ▸ hier, by rw [hstart, hend], ⟨h, p, s, ?_⟩, hspelled⟩
  refine ⟨?_, ?_, ?_, ?_, ?_, ?_, ?_, ?_, ?_⟩
  · rw [hslashes, hurl, hend]
    have hpart : substr u.url u.protocolEnd (u.protocolEnd + 2) = literal "//" := by
      have := of_decide_eq_true hsl
      rw [show ("//" : String).length = 2 from rfl] at this
      simpa [substr] using this
    rw [show (literal "//").length = 2 from rfl, ← hpart]
    exact substr_congr hsub (by omega) fun i _ hi => hw.front i hi
  · rw [htwo, hend]
    exact ⟨hw.host.le, .inl ⟨hstart, hhostEnd⟩⟩
  · rw [ht.same, hw.same]
    exact ⟨Nat.le_refl _, hname⟩
  · rcases hw.port with ⟨hps, hpe⟩ | hport
    · refine .inl ⟨?_, ?_⟩
      · show v.portStart = v.portEnd
        rw [ht.same, show (w.setPathname h p).portStart = w.portStart from rfl,
          show (w.setPathname h p).portEnd = w.portEnd from rfl, hps, hpe, hblank]
        rfl
      · rw [ht.same, show (w.setPathname h p).portEnd = w.portEnd from rfl, hpe, hblank]
        exact Nat.zero_le _
    · refine .inr ?_
      rw [ht.same, hw.same]
      exact hport
  · refine ⟨hp.le, .inl ⟨?_, ?_⟩⟩
    · show v.pathnameStart = h
      rw [ht.same]
      rfl
    · show v.pathnameEnd = p
      rw [ht.same]
      rfl
  · exact ht.search
  · rw [hurl]
    exact ht.hash
  · rw [hurl]
    exact ht.question
  · rw [hurl]
    exact ht.number

/-- A URL whose path starts where its scheme ends. -/
theorem flat_of_parts {u v : Url} {r : Range} {p s : Nat} (hu : u.Started)
    (hflat : u.getProtocol ∈ [literal "about:", literal "data:"])
    (hr : r.Fills u.protocolEnd p) (ht : (u.setPathname r.first r.last).Tailed v p s) :
    v.Flat := by
  have hblank := hu.blank
  have hurl : v.url = u.url := by rw [ht.same]; rfl
  have hend : v.protocolEnd = u.protocolEnd := by rw [ht.same]; rfl
  have hprotocol : v.getProtocol = u.getProtocol := by rw [getProtocol, getProtocol, hurl, hend]
  have hslashes : v.slashes = [] := slashes_of_flat (hprotocol ▸ hflat)
  have hnoHost : v.hostStart = 0 ∧ v.hostEnd = 0 ∧ v.hostnameStart = 0 ∧ v.hostnameEnd = 0 ∧
      v.portStart = 0 ∧ v.portEnd = 0 := by
    rw [ht.same, hblank]
    exact ⟨rfl, rfl, rfl, rfl, rfl, rfl⟩
  refine ⟨hprotocol ▸ hflat, hnoHost, u.protocolEnd, p, s, ?_⟩
  obtain ⟨h1, h2, h3, h4, h5, h6⟩ := hnoHost
  refine ⟨?_, ?_, ?_, ?_, ?_, ?_, ?_, ?_, ?_⟩
  · rw [hslashes, List.length_nil, Nat.add_zero, substr_self]
  · rw [hslashes, List.length_nil, Nat.add_zero, hend]
    exact ⟨Nat.le_refl _, .inr ⟨h1.trans h2.symm, rfl, Nat.le_trans (Nat.le_of_eq h2)
      (Nat.zero_le _)⟩⟩
  · omega
  · exact .inl ⟨h5.trans h6.symm, by omega⟩
  · have hpathname : v.pathname = r := by rw [ht.same]; rfl
    rw [hpathname]
    exact hr
  · exact ht.search
  · rw [hurl]
    exact ht.hash
  · rw [hurl]
    exact ht.question
  · rw [hurl]
    exact ht.number

/-- There is no search and no hash behind a path that ends the string. -/
theorem Open.tailed {u : Url} (ho : u.Open) : u.Tailed u u.url.length u.url.length := by
  obtain ⟨hs1, hs2, hh1, hh2⟩ := ho
  have hnone (r : Range) (hfirst : r.first = 0) (hlast : r.last = 0) :
      r.Fills u.url.length u.url.length :=
    ⟨Nat.le_refl _, .inr ⟨hfirst.trans hlast.symm, rfl, by omega⟩⟩
  exact ⟨rfl, .refl _ (Nat.le_refl _), hnone _ hs1 hs2, hnone _ hh1 hh2, fun hne => absurd rfl hne,
    fun hne => absurd rfl hne⟩

theorem Started.open {u : Url} (hu : u.Started) : u.Open := by
  rw [hu.blank]
  exact ⟨rfl, rfl, rfl, rfl⟩

theorem Hosted.open {u w : Url} {pos stop h p : Nat} (hw : u.Hosted w pos stop) (hu : u.Open) :
    (w.setPathname h p).Open := by
  rw [hw.same]
  exact hu

theorem findFrom_within {c data pos : Nat} {url : U16String}
    (h : findFrom c url pos = some data) : pos ≤ data ∧ data < url.length := by
  simp only [findFrom] at h
  split at h
  · rename_i hlt
    obtain rfl := Option.some.inj h
    exact ⟨Nat.le_add_right _ _, hlt⟩
  · cases h

theorem parseHTTP_spec {u v : Url} (hu : u.Started) (hier : u.getProtocol ∈ hierarchical)
    (h : u.parseHTTP u.protocolEnd = some v) : v.Hierarchical := by
  unfold parseHTTP at h
  split at h
  · rename_i hsl
    have hsub : u.protocolEnd + 2 ≤ u.url.length := (startsAt_two rfl hsl).1
    split at h
    · cases h
    rename_i w stop hauthority
    have hw := (parseAuthority_spec hsub hauthority).1
    have hpath := parsePath_reads w.url (Nat.le_of_lt hw.lt)
    obtain ⟨s, ht⟩ := parseTail_spec (u := w.setPathname stop (parsePath w.url stop))
      (hw.open hu.open) hpath.inString h
    exact hierarchical_of_parts hu hsl hier hw hpath (parsePath_lt hw.slash) ht
  · cases h

theorem parseFile_spec {u v : Url} (hu : u.Started) (hier : u.getProtocol ∈ hierarchical)
    (h : u.parseFile u.protocolEnd = some v) : v.Hierarchical := by
  unfold parseFile at h
  split at h
  · rename_i hsl
    have hsub : u.protocolEnd + 2 ≤ u.url.length := (startsAt_two rfl hsl).1
    have hw := parseFileHost_spec hsub
    have hpath := parsePath_reads (u.parseFileHost (u.protocolEnd + 2)).1.url
      (Nat.le_of_lt hw.lt)
    exact hierarchical_of_parts hu hsl hier hw hpath (parsePath_lt hw.slash)
      (parseHash_tailed (hw.open hu.open) hpath.inString h)
  · cases h

theorem parseAbout_spec {u v : Url} (hu : u.Started) (hflat : u.getProtocol = literal "about:")
    (h : u.parseAbout u.protocolEnd = some v) : v.Flat := by
  have hmem : u.getProtocol ∈ [literal "about:", literal "data:"] := by
    rw [hflat]
    exact List.mem_cons_self
  have hpe := hu.schemed.le
  unfold parseAbout at h
  split at h
  · rename_i hend
    have hlen : u.url.length = u.protocolEnd := by omega
    have hsame : u.setPathname 0 0 = v := by
      rw [← Option.some.inj h, hu.blank]
      rfl
    refine flat_of_parts (r := ⟨0, 0⟩) (p := u.url.length) (s := u.url.length) hu hmem
      ⟨Nat.le_of_eq hlen.symm, .inr ⟨rfl, hlen.symm, Nat.zero_le _⟩⟩ ?_
    rw [← hsame]
    exact Open.tailed (u := u.setPathname 0 0) hu.open
  · have hpath := skipPchars_reads u.url hpe
    obtain ⟨s, ht⟩ := parseTail_spec
      (u := u.setPathname u.protocolEnd (skipPchars u.url u.protocolEnd)) hu.open hpath.inString h
    exact flat_of_parts (r := ⟨u.protocolEnd, skipPchars u.url u.protocolEnd⟩) hu hmem
      ⟨hpath.le, .inl ⟨rfl, rfl⟩⟩ ht

theorem parseData_spec {u v : Url} (hu : u.Started) (hflat : u.getProtocol = literal "data:")
    (h : u.parseData u.protocolEnd = some v) : v.Flat := by
  have hmem : u.getProtocol ∈ [literal "about:", literal "data:"] := by
    rw [hflat]
    exact List.mem_cons_of_mem _ List.mem_cons_self
  unfold parseData at h
  split at h
  · cases h
  split at h
  · cases h
  rename_i data hdata
  dsimp only at h
  split at h
  · rename_i hend
    obtain ⟨hge, hlt⟩ := findFrom_within hdata
    have hpath := skipPchars_reads u.url hlt
    have hlen : skipPchars u.url (data + 1) = u.url.length := Nat.le_antisymm hpath.inString hend
    rw [hlen] at h
    refine flat_of_parts (r := ⟨u.protocolEnd, u.url.length⟩) (p := u.url.length)
      (s := u.url.length) hu hmem
      ⟨hu.schemed.le, .inl ⟨rfl, rfl⟩⟩ ?_
    rw [← Option.some.inj h]
    exact Open.tailed (u := u.setPathname u.protocolEnd u.url.length) hu.open
  · cases h

theorem parse_spec {u v : Url} (hu : u.Started) (h : u.parse = some v) :
    v.Hierarchical ∨ v.Flat := by
  unfold parse at h
  split at h
  · rename_i hhttp
    refine .inl (parseHTTP_spec hu ?_ h)
    rcases Bool.or_eq_true_iff.mp hhttp with hp | hp <;>
      rw [protocol_of_hasProtocol hu.schemed hp] <;> decide
  split at h
  · rename_i hfile
    refine .inl (parseFile_spec hu ?_ h)
    rw [protocol_of_hasProtocol hu.schemed hfile]
    decide
  split at h
  · rename_i habout
    refine .inr (parseAbout_spec hu ?_ h)
    rw [protocol_of_hasProtocol hu.schemed habout]
    decide
  split at h
  · rename_i hdata
    refine .inr (parseData_spec hu ?_ h)
    rw [protocol_of_hasProtocol hu.schemed hdata]
    decide
  · cases h

theorem started_of_hasScheme {url : U16String} {v : Url}
    (h : (unparsed url).hasScheme = some v) : v.Started := by
  obtain ⟨hschemed, hsame, _⟩ := hasScheme_spec h
  exact ⟨hschemed, hsame⟩

end Url

end EsOs.Escort
