import Mathlib
import EsOs.Escort.Proofs.DotSegments
import EsOs.Escort.Proofs.Layout

/-!
# The merge with a base

A reference that was read against a hierarchical base makes a URL that is laid out again. One that
was read against an `about:` URL does so where it repeats the scheme, and nowhere else.
-/

namespace EsOs.Escort.Url

open Uri (isAuthorityText isPathText isQueryText)

/-! ## References -/

/-- What the parser of a reference leaves in its offsets. -/
structure Reference (v : Url) : Prop where
  host : v.hostStart ≤ v.hostnameStart ∧ v.hostnameStart ≤ v.hostnameEnd ∧
    v.hostnameEnd ≤ v.hostEnd ∧ v.hostEnd ≤ v.url.length
  port : (v.port.absent ∧ v.portEnd ≤ v.hostStart) ∨
    (v.hostnameEnd ≤ v.portStart ∧ v.portStart ≤ v.portEnd ∧ v.portEnd ≤ v.hostEnd)
  search : v.getSearch = [] ∨ v.getSearch.head? = some '?'.toNat
  hash : v.getHash = [] ∨ v.getHash.head? = some '#'.toNat
  path : v.pathnameStart ≤ v.pathnameEnd ∧ v.pathnameEnd ≤ v.url.length
  hostText : ∀ c ∈ v.getHost, isAuthorityText c = true
  pathText : ∀ c ∈ v.getPathname, isPathText c = true
  searchText : ∀ c ∈ v.getSearch, isQueryText c = true

/-- Nothing but perhaps a scheme has been read. -/
structure Unread (u : Url) : Prop where
  le : u.protocolEnd ≤ u.url.length
  blank : u = { unparsed u.url with protocolEnd := u.protocolEnd }

theorem Started.unread {u : Url} (hu : u.Started) : u.Unread := ⟨hu.schemed.le, hu.blank⟩

theorem unparsed_unread (url : U16String) : (unparsed url).Unread := ⟨Nat.zero_le _, rfl⟩

theorem Unread.open {u : Url} (hu : u.Unread) : u.Open := by
  rw [hu.blank]
  exact ⟨rfl, rfl, rfl, rfl⟩

/-- The host of a reference: none, or one that was read. -/
structure Fronted (u : Url) : Prop where
  host : u.hostStart ≤ u.hostnameStart ∧ u.hostnameStart ≤ u.hostnameEnd ∧
    u.hostnameEnd ≤ u.hostEnd ∧ u.hostEnd ≤ u.url.length
  port : (u.port.absent ∧ u.portEnd ≤ u.hostStart) ∨
    (u.hostnameEnd ≤ u.portStart ∧ u.portStart ≤ u.portEnd ∧ u.portEnd ≤ u.hostEnd)
  opened : u.Open
  hostText : ∀ c ∈ u.getHost, isAuthorityText c = true
  noPath : u.pathnameStart = 0 ∧ u.pathnameEnd = 0

theorem Unread.fronted {u : Url} (hu : u.Unread) : u.Fronted := by
  rw [hu.blank]
  exact ⟨⟨Nat.le_refl _, Nat.le_refl _, Nat.le_refl _, Nat.zero_le _⟩,
    .inl ⟨rfl, Nat.le_refl _⟩, ⟨rfl, rfl, rfl, rfl⟩, nofun, rfl, rfl⟩

theorem Hosted.fronted {u w : Url} {pos stop : Nat} (hw : u.Hosted w pos stop) (hu : u.Unread) :
    w.Fronted := by
  have hlt := hw.lt
  obtain ⟨hname, hname'⟩ := hw.hostname
  refine ⟨?_, ?_, ?_, ?_, ?_⟩
  · rw [hw.same]
    exact ⟨Nat.le_refl _, hname, hname', Nat.le_of_lt hlt⟩
  · rcases hw.port with ⟨hps, hpe⟩ | hport
    · refine .inl ⟨?_, ?_⟩
      · show w.portStart = w.portEnd
        rw [hps, hpe, hu.blank]
        rfl
      · rw [hpe, hu.blank]
        exact Nat.zero_le _
    · refine .inr ?_
      rw [hw.same]
      exact hport
  · rw [hw.same]
    exact hu.open
  · rw [getHost, show w.hostStart = pos by rw [hw.same], show w.hostEnd = stop by rw [hw.same]]
    exact hw.host.substr
  · rw [hw.same, hu.blank]
    exact ⟨rfl, rfl⟩

/-- The tail completes the reference. -/
theorem Fronted.reference {w v : Url} {h p s : Nat} (hw : w.Fronted)
    (hpath : Reads isPathText w.url h p) (ht : (w.setPathname h p).Tailed v p s) : v.Reference := by
  have hurl : v.url = w.url := by rw [ht.same]; rfl
  have hs := ht.hash.le
  have hp := ht.search.le
  have hgetPath : v.getPathname = substr w.url h p := by
    rw [getPathname, hurl, ht.same]
    rfl
  refine ⟨?_, ?_, ?_, ?_, ?_, ?_, ?_, ?_⟩
  · rw [ht.same]
    exact hw.host
  · rw [ht.same]
    exact hw.port
  · rw [getSearch, show substr v.url v.searchStart v.searchEnd = substr v.url p s
      from ht.search.substr_eq v.url]
    by_cases hps : p = s
    · exact .inl (by rw [hps, substr_self])
    · refine .inr ?_
      rw [head?_substr (by omega) (hurl ▸ hs), hurl]
      exact congrArg some (ht.question hps)
  · rw [getHash, show substr v.url v.hashStart v.hashEnd = substr v.url s v.url.length
      from hurl ▸ ht.hash.substr_eq v.url]
    by_cases hse : s = w.url.length
    · exact .inl (by rw [hse, hurl, substr_self])
    · have hlt : s < v.url.length := by
        rw [hurl]
        exact Nat.lt_of_le_of_ne hs hse
      refine .inr ?_
      rw [head?_substr hlt (Nat.le_refl _), hurl]
      exact congrArg some (ht.number hse)
  · rw [ht.same]
    exact ⟨hpath.le, hpath.inString⟩
  · rw [ht.same]
    exact hw.hostText
  · rw [hgetPath]
    exact hpath.substr
  · rw [getSearch, show substr v.url v.searchStart v.searchEnd = substr v.url p s
      from ht.search.substr_eq v.url, hurl]
    exact ht.query.substr

/-- A reference that ends behind its host. -/
theorem Fronted.reference_self {w : Url} (hw : w.Fronted) : w.Reference := by
  obtain ⟨hs1, hs2, hh1, hh2⟩ := hw.opened
  obtain ⟨hp1, hp2⟩ := hw.noPath
  have hsearch : w.getSearch = [] := by rw [getSearch, hs1, hs2, substr_self]
  have hpath : w.getPathname = [] := by rw [getPathname, hp1, hp2, substr_self]
  refine ⟨hw.host, hw.port, .inl hsearch, .inl ?_, ?_, hw.hostText, ?_, ?_⟩
  · rw [getHash, hh1, hh2, substr_self]
  · rw [hp1, hp2]
    exact ⟨Nat.le_refl _, Nat.zero_le _⟩
  · rw [hpath]
    simp
  · rw [hsearch]
    simp

theorem parseHTTPRelative_spec {u v : Url} (hu : u.Unread) (h : u.parseHTTPRelative = some v) :
    v.Reference := by
  have hfront : ∀ w pos, (if startsAt u.url u.protocolEnd "//" then
      u.parseAuthority (u.protocolEnd + 2) else some (u, u.protocolEnd)) = some (w, pos) →
      w.Fronted := by
    intro w pos hw
    split at hw
    · rename_i hsl
      exact (parseAuthority_spec (startsAt_two rfl hsl).1 hw).1.fronted hu
    · obtain ⟨rfl, -⟩ := Prod.mk.inj (Option.some.inj hw)
      exact hu.fronted
  unfold parseHTTPRelative at h
  split at h
  · cases h
  rename_i w pos hw
  have hf := hfront w pos hw
  split at h
  · rw [← Option.some.inj h]
    exact hf.reference_self
  · rename_i hlt
    have hpath := parseRelativePath_reads w.url (Nat.le_of_not_le hlt)
    obtain ⟨s, ht⟩ := parseTail_spec (u := w.setPathname pos (parseRelativePath w.url pos))
      hf.opened hpath.inString h
    exact hf.reference hpath ht

theorem parseFileRelative_spec {u v : Url} (hu : u.Unread) (h : u.parseFileRelative = some v) :
    v.Reference := by
  have hf : (if startsAt u.url u.protocolEnd "//" then u.parseFileHost (u.protocolEnd + 2)
      else (u, u.protocolEnd)).1.Fronted := by
    split
    · rename_i hsl
      exact (parseFileHost_spec (startsAt_two rfl hsl).1).fronted hu
    · exact hu.fronted
  unfold parseFileRelative at h
  dsimp only at h
  generalize (if startsAt u.url u.protocolEnd "//" then u.parseFileHost (u.protocolEnd + 2)
      else (u, u.protocolEnd)) = next at h hf
  split at h
  · rw [← Option.some.inj h]
    exact hf.reference_self
  · rename_i hlt
    have hpath := parseRelativePath_reads next.1.url (Nat.le_of_not_le hlt)
    exact hf.reference hpath (parseHash_tailed
      (u := next.1.setPathname next.2 (parseRelativePath next.1.url next.2)) hf.opened
      hpath.inString h)

theorem Laid.protocolEnd_le {u : Url} {h p s : Nat} (l : u.Laid h p s) :
    u.protocolEnd ≤ u.url.length := by
  have := l.host.le
  have := l.path.le
  have := l.search.le
  have := l.hash.le
  omega

theorem Hierarchical.protocol_length {u : Url} (h : u.Hierarchical) :
    u.getProtocol.length = u.protocolEnd := by
  obtain ⟨_, _, _, hlaid⟩ := h.laid
  rw [getProtocol, length_substr hlaid.protocolEnd_le, Nat.sub_zero]

/-! ## Hierarchical bases -/

/-- The host of a merged URL and its offsets. -/
structure Merged (m : Url) (host : U16String) (first : Nat) : Prop where
  host : m.hostStart = first ∧ m.hostEnd = first + host.length
  hostname : m.hostStart ≤ m.hostnameStart ∧ m.hostnameStart ≤ m.hostnameEnd ∧
    m.hostnameEnd ≤ m.hostEnd
  port : (m.port.absent ∧ m.portEnd ≤ m.hostEnd) ∨
    (m.hostnameEnd ≤ m.portStart ∧ m.portStart ≤ m.portEnd ∧ m.portEnd ≤ m.hostEnd)

theorem mergeHost_spec {v base : Url} (hv : v.Reference) (hbase : base.Hierarchical) :
    Merged (v.mergeHost base).1 (v.mergeHost base).2 (base.protocolEnd + 2) := by
  obtain ⟨h, p, s, hlaid⟩ := hbase.laid
  have hstart := hbase.hostStart
  obtain ⟨hb1, hb2, hb3⟩ := hlaid.hostname
  have hbend : base.hostEnd ≤ base.url.length := by
    have := hlaid.path.le
    have := hlaid.search.le
    have := hlaid.hash.le
    exact (hlaid.host.inString (n := base.url.length) (by omega)).2
  obtain ⟨hv1, hv2, hv3, hv4⟩ := hv.host
  unfold mergeHost
  split
  · have hlen : base.getHost.length = base.hostEnd - base.hostStart := length_substr hbend
    refine ⟨⟨hstart, ?_⟩, ⟨hb1, hb2, hb3⟩, ?_⟩
    · show base.hostEnd = base.protocolEnd + 2 + base.getHost.length
      omega
    · exact hlaid.port
  · have hlen : v.getHost.length = v.hostEnd - v.hostStart := length_substr hv4
    refine ⟨⟨?_, ?_⟩, ⟨?_, ?_, ?_⟩, ?_⟩
    · show v.hostStart + base.hostStart - v.hostStart = base.protocolEnd + 2
      omega
    · show v.hostEnd + base.hostStart - v.hostStart = base.protocolEnd + 2 + v.getHost.length
      omega
    · show v.hostStart + base.hostStart - v.hostStart ≤
        v.hostnameStart + base.hostStart - v.hostStart
      omega
    · show v.hostnameStart + base.hostStart - v.hostStart ≤
        v.hostnameEnd + base.hostStart - v.hostStart
      omega
    · show v.hostnameEnd + base.hostStart - v.hostStart ≤ v.hostEnd + base.hostStart - v.hostStart
      omega
    · rcases hv.port with ⟨habsent, hle⟩ | ⟨hp1, hp2, hp3⟩
      · refine .inl ⟨?_, ?_⟩
        · show v.portStart + base.hostStart - v.hostStart = v.portEnd + base.hostStart - v.hostStart
          rw [show v.portStart = v.portEnd from habsent]
        · show v.portEnd + base.hostStart - v.hostStart ≤ v.hostEnd + base.hostStart - v.hostStart
          omega
      · refine .inr ⟨?_, ?_, ?_⟩
        · show v.hostnameEnd + base.hostStart - v.hostStart ≤
            v.portStart + base.hostStart - v.hostStart
          omega
        · show v.portStart + base.hostStart - v.hostStart ≤
            v.portEnd + base.hostStart - v.hostStart
          omega
        · show v.portEnd + base.hostStart - v.hostStart ≤ v.hostEnd + base.hostStart - v.hostStart
          omega

/-- The path of a hierarchical URL stands at its offsets, behind what has no part in it. -/
theorem Hierarchical.directory_eq {base : Url} (hbase : base.Hierarchical) :
    base.directory = Uri.directory base.getPathname := by
  obtain ⟨h, p, s, hlaid⟩ := hbase.laid
  have hrange : base.pathnameStart ≤ base.pathnameEnd ∧ base.pathnameEnd ≤ base.url.length :=
    hlaid.path.inString (by have := hlaid.search.le; have := hlaid.hash.le; omega)
  have hsplit : base.url.take base.pathnameEnd =
      base.url.take base.pathnameStart ++ base.getPathname := by
    have := substr_append base.url (Nat.zero_le base.pathnameStart) hrange.1
    simpa [substr, getPathname] using this.symm
  have hlen : (base.url.take base.pathnameStart).length = base.pathnameStart := by
    rw [List.length_take]
    omega
  have hslash : Uri.slash ∈ base.getPathname :=
    List.mem_of_mem_head? (Option.mem_def.mpr hbase.spelled.rooted)
  have hdir := Uri.directory_append (base.url.take base.pathnameStart) hslash
  unfold directory
  rw [hsplit]
  exact (congrArg (List.drop base.pathnameStart) hdir).trans (List.drop_left' hlen)

/-- The path that a relative path is merged to. -/
theorem merged_rooted {base : Url} (hbase : base.Hierarchical) (path : U16String) :
    (base.directory ++ path).head? = some Uri.slash := by
  rw [hbase.directory_eq, List.head?_append, Uri.directory_rooted hbase.spelled.rooted,
    Option.some_or]

/-- What the path and the search of a merged URL are. -/
structure Target (target : U16String × U16String) : Prop where
  rooted : target.1.head? = some Uri.slash
  path : ∀ c ∈ target.1, isPathText c = true
  search : target.2 = [] ∨ target.2.head? = some '?'.toNat
  searchText : ∀ c ∈ target.2, isQueryText c = true

theorem targetPath_spec {v base : Url} (hv : v.Reference) (hbase : base.Hierarchical) :
    Target (v.targetPath base) := by
  obtain ⟨h, p, s, hlaid⟩ := hbase.laid
  have hremoved {path : U16String} (hpath : ∀ c ∈ path, isPathText c = true) :
      ∀ c ∈ removeDotSegments path, isPathText c = true := by
    intro c hc
    rcases mem_removeDotSegments hc with rfl | hc
    · decide
    · exact hpath c hc
  unfold targetPath
  split
  · refine ⟨hbase.spelled.rooted, hbase.spelled.path, ?_, ?_⟩ <;> dsimp only <;> split
    · exact hv.search
    · exact hlaid.wellFormed.search_start
    · exact hv.searchText
    · exact hbase.spelled.search
  rename_i hpath
  split
  · rename_i hslash
    have hrooted : v.getPathname.head? = some Uri.slash := by
      obtain ⟨hle, hend⟩ := hv.path
      rw [getPathname, head?_substr (by omega) hend, hslash]
      rfl
    exact ⟨removeDotSegments_rooted hrooted, hremoved hv.pathText, hv.search, hv.searchText⟩
  · refine ⟨removeDotSegments_rooted (merged_rooted hbase _), hremoved fun c hc => ?_, hv.search,
      hv.searchText⟩
    rcases List.mem_append.mp hc with hc | hc
    · rw [hbase.directory_eq] at hc
      exact hbase.spelled.path c ((Uri.directory_isPrefix _).subset hc)
    · exact hv.pathText c hc

/-- What a piece of a string starts with. -/
theorem charAt_of_head? (front rest : U16String) {piece : U16String} {c : Nat}
    (h : piece.head? = some c) : charAt (front ++ piece ++ rest) front.length = c := by
  cases piece with
  | nil => cases h
  | cons d piece =>
    obtain rfl := Option.some.inj h
    simp [charAt, List.getD]

/-! The string of a merged URL, up to the end of its host, of its path and of its search. -/

def mergedHost (v base : Url) : U16String :=
  base.getProtocol ++ literal "//" ++ (v.mergeHost base).2

def mergedPath (v base : Url) : U16String :=
  v.mergedHost base ++ (v.targetPath base).1

def mergedSearch (v base : Url) : U16String :=
  v.mergedPath base ++ (v.targetPath base).2

theorem merge_true (v base : Url) :
    v.merge base true = { (v.mergeHost base).1 with
      url := v.mergedSearch base ++ v.getHash
      protocolEnd := base.protocolEnd
      pathnameStart := (v.mergedHost base).length
      pathnameEnd := (v.mergedPath base).length
      searchStart := (v.mergedPath base).length
      searchEnd := (v.mergedSearch base).length
      hashStart := (v.mergedSearch base).length
      hashEnd := (v.mergedSearch base ++ v.getHash).length } := rfl

/-- The components of a merged URL. -/
structure MergedText (v base : Url) : Prop where
  protocol : (v.merge base true).getProtocol = base.getProtocol
  host : (v.merge base true).getHost = (v.mergeHost base).2
  path : (v.merge base true).getPathname = (v.targetPath base).1
  search : (v.merge base true).getSearch = (v.targetPath base).2

theorem merge_text {v base : Url} (hplen : base.getProtocol.length = base.protocolEnd)
    (hm : Merged (v.mergeHost base).1 (v.mergeHost base).2 (base.protocolEnd + 2)) :
    v.MergedText base := by
  have hlen2 : (literal "//").length = 2 := rfl
  refine ⟨?_, ?_, ?_, ?_⟩
  · show substr (v.mergedSearch base ++ v.getHash) 0 base.protocolEnd = _
    rw [mergedSearch, mergedPath, mergedHost, ← hplen]
    simp [substr]
  · have h := substr_middle (base.getProtocol ++ literal "//") (v.mergeHost base).2
      ((v.targetPath base).1 ++ (v.targetPath base).2 ++ v.getHash)
    simp only [List.length_append, hplen, hlen2] at h
    show substr (v.mergedSearch base ++ v.getHash) (v.mergeHost base).1.hostStart
      (v.mergeHost base).1.hostEnd = _
    rw [hm.host.1, hm.host.2, mergedSearch, mergedPath, mergedHost]
    simpa only [List.append_assoc] using h
  · have h := substr_middle (v.mergedHost base) (v.targetPath base).1
      ((v.targetPath base).2 ++ v.getHash)
    show substr (v.mergedSearch base ++ v.getHash) (v.mergedHost base).length
      (v.mergedPath base).length = _
    rw [mergedSearch, mergedPath]
    simpa only [List.append_assoc] using h
  · exact substr_middle (v.mergedPath base) (v.targetPath base).2 v.getHash

/-- The merge lays the components out over the new string. -/
theorem merge_laid {v base : Url} (hv : v.Reference) (hbase : base.Hierarchical) :
    (v.merge base true).Laid (v.mergedHost base).length (v.mergedPath base).length
      (v.mergedSearch base).length := by
  have hm := mergeHost_spec hv hbase
  have htarget := targetPath_spec hv hbase
  have hplen := hbase.protocol_length
  have htext := merge_text hplen hm
  have hslashes : (v.merge base true).slashes = literal "//" :=
    slashes_of_hierarchical (htext.protocol ▸ hbase.protocol)
  have hlen2 : (literal "//").length = 2 := rfl
  have hurl : (v.merge base true).url = v.mergedSearch base ++ v.getHash := rfl
  have hend : (v.merge base true).protocolEnd = base.protocolEnd := rfl
  have hhostLen : (v.mergedHost base).length =
      base.protocolEnd + 2 + (v.mergeHost base).2.length := by
    simp only [mergedHost, List.length_append, hplen, hlen2]
  have hpathLen : (v.mergedHost base).length ≤ (v.mergedPath base).length := by
    rw [mergedPath, List.length_append]
    exact Nat.le_add_right _ _
  have hsearchLen : (v.mergedPath base).length ≤ (v.mergedSearch base).length := by
    rw [mergedSearch, List.length_append]
    exact Nat.le_add_right _ _
  have hhashLen : (v.mergedSearch base).length ≤ (v.mergedSearch base ++ v.getHash).length := by
    rw [List.length_append]
    exact Nat.le_add_right _ _
  refine ⟨?_, ⟨?_, .inl ⟨?_, ?_⟩⟩, hm.hostname, hm.port, ⟨hpathLen, .inl ⟨rfl, rfl⟩⟩,
    ⟨hsearchLen, .inl ⟨rfl, rfl⟩⟩, ⟨hhashLen, .inl ⟨rfl, rfl⟩⟩, ?_, ?_⟩
  · have h := substr_middle base.getProtocol (literal "//") ((v.mergeHost base).2 ++
      (v.targetPath base).1 ++ (v.targetPath base).2 ++ v.getHash)
    rw [List.length_append] at h
    rw [hslashes, hend, hurl, mergedSearch, mergedPath, mergedHost, ← hplen]
    simpa only [List.append_assoc] using h
  · rw [hslashes, hend, hlen2]
    omega
  · rw [hslashes]
    exact hm.host.1
  · rw [hhostLen]
    exact hm.host.2
  · intro hne
    rcases htarget.search with hnil | hhead
    · exact absurd (by rw [mergedSearch, hnil, List.append_nil]) hne
    · exact charAt_of_head? (v.mergedPath base) v.getHash hhead
  · intro hne
    rcases hv.hash with hnil | hhead
    · exact absurd (by rw [hurl, hnil, List.append_nil]) hne
    · have h := charAt_of_head? (v.mergedSearch base) [] hhead
      rwa [List.append_nil] at h

theorem merge_hierarchical {v base : Url} (hv : v.Reference) (hbase : base.Hierarchical) :
    (v.merge base true).Hierarchical := by
  have hm := mergeHost_spec hv hbase
  have htarget := targetPath_spec hv hbase
  have htext := merge_text hbase.protocol_length hm
  refine ⟨htext.protocol ▸ hbase.protocol, hm.host.1, ⟨_, _, _, merge_laid hv hbase⟩,
    ?_, ?_, ?_, ?_⟩
  · rw [htext.host]
    unfold mergeHost
    split
    · exact hbase.spelled.host
    · exact hv.hostText
  · rw [htext.path]
    exact htarget.rooted
  · rw [htext.path]
    exact htarget.path
  · rw [htext.search]
    exact htarget.searchText

/-! ## `about:` bases -/

/-- A base with an `about:` URL: all that a merge with it uses. -/
structure AboutBase (base : Url) : Prop where
  protocol : base.getProtocol = literal "about:"
  le : base.protocolEnd ≤ base.url.length
  noHost : base.hostStart = 0 ∧ base.hostEnd = 0 ∧ base.hostnameStart = 0 ∧
    base.hostnameEnd = 0 ∧ base.portStart = 0 ∧ base.portEnd = 0

theorem AboutBase.protocolEnd {base : Url} (hb : base.AboutBase) : base.protocolEnd = 6 := by
  have hlen := length_substr (i := 0) hb.le
  rw [show substr base.url 0 base.protocolEnd = literal "about:" from hb.protocol] at hlen
  simpa [literal] using hlen.symm

theorem parseAboutRelative_spec {u v : Url} (hu : u.Unread) (h : u.parseAboutRelative = some v) :
    (u.setPathname u.protocolEnd (skipPchars u.url u.protocolEnd)).Tailed v
      (skipPchars u.url u.protocolEnd) (skipPchars u.url u.protocolEnd) :=
  parseHash_tailed (u := u.setPathname u.protocolEnd (skipPchars u.url u.protocolEnd)) hu.open
    (skipPchars_reads u.url hu.le).inString h

/-- The merge with an `about:` URL, written out. -/
theorem merge_about {u v base : Url} (hb : base.AboutBase) (hu : u.Unread)
    (h : u.parseAboutRelative = some v) :
    v.merge base false =
      { unparsed (literal "about:" ++ v.getPathname ++ v.getHash) with
        protocolEnd := 6
        pathnameStart := u.protocolEnd
        pathnameEnd := skipPchars u.url u.protocolEnd
        searchStart := skipPchars u.url u.protocolEnd
        searchEnd := (literal "about:" ++ v.getPathname).length
        hashStart := (literal "about:" ++ v.getPathname).length
        hashEnd := (literal "about:" ++ v.getPathname ++ v.getHash).length } := by
  have ht := parseAboutRelative_spec hu h
  obtain ⟨h1, h2, h3, h4, h5, h6⟩ := hb.noHost
  have hhost : base.getHost = [] := by rw [getHost, h1, h2, substr_self]
  have hfront : v.hostStart = v.hostEnd := by
    rw [ht.same, hu.blank]
    rfl
  have hstart : v.pathnameStart = u.protocolEnd := by rw [ht.same]; rfl
  have hstop : v.pathnameEnd = skipPchars u.url u.protocolEnd := by rw [ht.same]; rfl
  simp only [merge, mergeHost, if_pos hfront, hb.protocol, hhost, h1, h2, h3, h4, h5, h6,
    hb.protocolEnd, hstart, hstop, Bool.false_eq_true, if_false, List.append_nil, unparsed]

/-- A reference that repeats the scheme has its path where the merged URL has it. -/
theorem merge_about_flat {u v base : Url} (hb : base.AboutBase) (hu : u.Unread)
    (hend : u.protocolEnd = 6) (h : u.parseAboutRelative = some v) :
    (v.merge base false).Flat := by
  have ht := parseAboutRelative_spec hu h
  have hmerge := merge_about hb hu h
  have hhash := (hu.fronted.reference
    ((skipPchars_reads u.url hu.le).mono isPathText_of_isAuthorityText) ht).hash
  have hpath := skipPchars_reads u.url hu.le
  have hlen : v.getPathname.length = skipPchars u.url u.protocolEnd - 6 := by
    have hstart : v.pathnameStart = 6 := by rw [ht.same]; exact hend
    have hstop : v.pathnameEnd = skipPchars u.url u.protocolEnd := by rw [ht.same]; rfl
    have hurl : v.url = u.url := by rw [ht.same]; rfl
    rw [getPathname, hstart, hstop, hurl, length_substr hpath.inString]
  have habout : (literal "about:").length = 6 := rfl
  have hge : 6 ≤ skipPchars u.url u.protocolEnd := hend ▸ hpath.le
  have hplace : (literal "about:" ++ v.getPathname).length = skipPchars u.url u.protocolEnd := by
    rw [List.length_append, hlen, habout]
    omega
  rw [hplace, hend] at hmerge
  rw [hend] at hge
  generalize v.merge base false = w at hmerge
  generalize v.getPathname = path at hmerge hplace
  generalize v.getHash = hash at hmerge hhash
  rw [hend] at hplace
  generalize skipPchars u.url 6 = stop at hmerge hplace hge
  subst hmerge
  have hprotocol : getProtocol { unparsed (literal "about:" ++ path ++ hash) with
      protocolEnd := 6 } = literal "about:" := rfl
  refine ⟨List.mem_cons_self, ⟨rfl, rfl, rfl, rfl, rfl, rfl⟩, 6, stop, stop, ?_⟩
  refine ⟨rfl, ⟨Nat.le_refl _, .inr ⟨rfl, rfl, Nat.zero_le _⟩⟩, ⟨Nat.le_refl _, Nat.le_refl _,
    Nat.le_refl _⟩, .inl ⟨rfl, Nat.le_refl _⟩, ⟨hge, .inl ⟨rfl, rfl⟩⟩,
    ⟨Nat.le_refl _, .inl ⟨rfl, rfl⟩⟩, ⟨?_, .inl ⟨rfl, rfl⟩⟩, fun hne => absurd rfl hne, ?_⟩
  · show stop ≤ (literal "about:" ++ path ++ hash).length
    rw [List.length_append, hplace]
    exact Nat.le_add_right _ _
  · intro hne
    rcases hhash with hnil | hhead
    · refine absurd ?_ hne
      show stop = (literal "about:" ++ path ++ hash).length
      rw [hnil, List.append_nil, hplace]
    · show charAt (literal "about:" ++ path ++ hash) stop = _
      rw [← hplace]
      have := charAt_of_head? (literal "about:" ++ path) [] hhead
      rwa [List.append_nil] at this

/-- One that does not has its search start in the middle of the string, where no question mark
    is. -/
theorem merge_about_not_wellFormed {u v base : Url} (hb : base.AboutBase) (hu : u.Unread)
    (hend : u.protocolEnd = 0) (h : u.parseAboutRelative = some v) :
    ¬ (v.merge base false).Sound := by
  have ht := parseAboutRelative_spec hu h
  have hmerge := merge_about hb hu h
  have hpath := skipPchars_reads u.url hu.le
  have hgetPath : v.getPathname = substr u.url 0 (skipPchars u.url 0) := by
    have hstart : v.pathnameStart = 0 := by rw [ht.same]; exact hend
    have hstop : v.pathnameEnd = skipPchars u.url u.protocolEnd := by rw [ht.same]; rfl
    have hurl : v.url = u.url := by rw [ht.same]; rfl
    rw [getPathname, hstart, hstop, hurl, hend]
  rw [hend] at hpath hmerge
  have hlen : v.getPathname.length = skipPchars u.url 0 := by
    rw [hgetPath, length_substr hpath.inString, Nat.sub_zero]
  have habout : (literal "about:").length = 6 := rfl
  generalize hw : v.merge base false = w at hmerge
  have hurl : w.url = literal "about:" ++ v.getPathname ++ v.getHash := by rw [hmerge]; rfl
  rintro (hempty | hwf)
  · rw [isEmpty, hurl] at hempty
    cases hempty
  have hrange : w.searchStart = skipPchars u.url 0 ∧ w.searchEnd = 6 + skipPchars u.url 0 := by
    rw [hmerge]
    refine ⟨rfl, ?_⟩
    show (literal "about:" ++ v.getPathname).length = _
    rw [List.length_append, hlen, habout]
  have hle : 6 + skipPchars u.url 0 ≤ w.url.length := by
    rw [hurl, List.length_append, List.length_append, hlen, habout]
    exact Nat.le_add_right _ _
  have hhead : w.getSearch.head? = some (charAt w.url (skipPchars u.url 0)) := by
    rw [getSearch, hrange.1, hrange.2]
    exact head?_substr (by omega) hle
  have hquestion : charAt w.url (skipPchars u.url 0) = '?'.toNat := by
    rcases hwf.search_start with hnil | hstart
    · rw [hnil] at hhead
      cases hhead
    · exact Option.some.inj (hhead.symm.trans hstart)
  rw [hurl, List.append_assoc] at hquestion
  by_cases hn : skipPchars u.url 0 < 6
  · rw [charAt_append_left (by rw [habout]; exact hn)] at hquestion
    generalize skipPchars u.url 0 = n at hn hquestion
    revert n
    decide
  · -- The string has moved the path by the length of the scheme.
    have hin : skipPchars u.url 0 - 6 < skipPchars u.url 0 := by omega
    rw [charAt_append_right (by rw [habout]; omega), habout,
      charAt_append_left (by rw [hlen]; exact hin), hgetPath] at hquestion
    have hchar : charAt u.url (skipPchars u.url 0 - 6) = '?'.toNat := by
      rw [← hquestion]
      simp only [charAt, substr, List.drop_zero, Nat.sub_zero, List.getD]
      rw [List.getElem?_take, if_pos hin]
    have hread := hpath.all _ (Nat.zero_le _) hin
    rw [hchar] at hread
    revert hread
    decide

/-! ## Every construction -/

/-- When the rest of a string is a fragment, or nothing. -/
theorem parseHash_isSome (u : Url) (s : Nat) :
    (u.parseHash s).isSome ↔ u.url.length ≤ s ∨
      (charAt u.url s = '#'.toNat ∧ u.url.length ≤ parseFragment u.url (s + 1)) := by
  unfold parseHash
  by_cases hnumber : charAt u.url s = '#'.toNat
  · have hlt := lt_of_charAt hnumber (by decide)
    rw [if_pos hnumber]
    by_cases hend : u.url.length ≤ parseFragment u.url (s + 1)
    · simp [hnumber, hend]
    · simp [hend]
      omega
  · rw [if_neg hnumber]
    by_cases hend : u.url.length ≤ s
    · simp [hend]
    · simp only [hnumber, hend, if_false, Option.isSome_none, Bool.false_eq_true, false_and, or_self]

theorem parseAboutRelative_isSome (url : U16String) :
    ((unparsed url).parseAboutRelative).isSome ↔ isAboutReference url :=
  parseHash_isSome ((unparsed url).setPathname 0 (skipPchars url 0)) (skipPchars url 0)

/-- Any URL that was built. -/
inductive Standing (u : Url) : Prop where
  | cleared : u = cleared → Standing u
  | hierarchical : u.Hierarchical → Standing u
  | flat : u.Flat → Standing u
  | stray : u.AboutBase → Standing u

theorem cleared_sound : cleared.Sound := .inl rfl

theorem Hierarchical.sound {u : Url} (h : u.Hierarchical) : u.Sound := by
  obtain ⟨_, _, _, hlaid⟩ := h.laid
  exact .inr hlaid.wellFormed

theorem Flat.sound {u : Url} (h : u.Flat) : u.Sound := by
  obtain ⟨_, _, _, hlaid⟩ := h.laid
  exact .inr hlaid.wellFormed

theorem Flat.aboutBase {u : Url} (h : u.Flat) (hp : u.getProtocol = literal "about:") :
    u.AboutBase := by
  obtain ⟨_, _, _, hlaid⟩ := h.laid
  exact ⟨hp, hlaid.protocolEnd_le, h.noHost⟩

/-- A parse that fails clears the URL. -/
theorem parse_getD_spec {u : Url} (hu : u.Started) :
    (u.parse.getD cleared).Standing ∧ (u.parse.getD cleared).Sound := by
  cases hparse : u.parse with
  | none => exact ⟨.cleared rfl, cleared_sound⟩
  | some v =>
    rcases parse_spec hu hparse with hv | hv
    · exact ⟨.hierarchical hv, hv.sound⟩
    · exact ⟨.flat hv, hv.sound⟩

theorem parseRelative_hierarchical {u base : Url} (hu : u.Unread) (hb : base.Hierarchical) :
    ((u.parseRelative base).getD cleared).Standing ∧
      ((u.parseRelative base).getD cleared).Sound := by
  have hmerged {parsed : Option Url} (hparsed : ∀ v, parsed = some v → v.Reference) :
      ((parsed.map fun v => v.merge base true).getD cleared).Standing ∧
        ((parsed.map fun v => v.merge base true).getD cleared).Sound := by
    cases parsed with
    | none => exact ⟨.cleared rfl, cleared_sound⟩
    | some v =>
      have hm := merge_hierarchical (hparsed v rfl) hb
      exact ⟨.hierarchical hm, hm.sound⟩
  obtain ⟨_, _, _, hlaid⟩ := hb.laid
  have hno : base.hasProtocol "about" = false := by
    have hp := hb.protocol
    simp only [Url.hierarchical, List.mem_cons, List.not_mem_nil, or_false] at hp
    rcases hp with hp | hp | hp <;>
      rw [hasProtocol_of_protocol hlaid.protocolEnd_le hp] <;> decide
  unfold parseRelative
  split
  · exact hmerged fun v hv => parseHTTPRelative_spec hu hv
  split
  · exact hmerged fun v hv => parseFileRelative_spec hu hv
  · rw [if_neg (by rw [hno]; exact Bool.false_ne_true)]
    exact ⟨.cleared rfl, cleared_sound⟩

theorem parseRelative_about {u base : Url} (hb : base.AboutBase) :
    u.parseRelative base = u.parseAboutRelative.map fun v => v.merge base false := by
  have hcases (scheme : String) := hasProtocol_of_protocol hb.le hb.protocol scheme
  unfold parseRelative
  rw [hcases, hcases, hcases, hcases, if_neg (by decide), if_neg (by decide), if_pos (by decide)]

/-- A base of another kind has no relative references. -/
theorem parseRelative_none {u base : Url} (hle : base.protocolEnd ≤ base.url.length)
    (hb : base = cleared ∨ base.getProtocol = literal "data:") : u.parseRelative base = none := by
  unfold parseRelative
  rcases hb with rfl | hp
  · rfl
  · have hcases (scheme : String) := hasProtocol_of_protocol hle hp scheme
    rw [hcases, hcases, hcases, hcases, if_neg (by decide), if_neg (by decide),
      if_neg (by decide)]

/-- A reference that does not repeat the scheme of an `about:` base. -/
theorem parseRelative_bare (url : U16String) {base : Url} (hb : base.AboutBase) :
    (((unparsed url).parseRelative base).getD cleared).Standing ∧
      ((((unparsed url).parseRelative base).getD cleared).Sound ↔ ¬ isAboutReference url) := by
  rw [parseRelative_about hb, ← parseAboutRelative_isSome]
  cases habout : (unparsed url).parseAboutRelative with
  | none => exact ⟨.cleared rfl, fun _ => Bool.false_ne_true, fun _ => cleared_sound⟩
  | some v =>
    have hnot := merge_about_not_wellFormed hb (unparsed_unread url) rfl habout
    refine ⟨.stray ?_, fun hsound => absurd hsound hnot, fun hno => absurd rfl hno⟩
    show AboutBase (v.merge base false)
    rw [merge_about hb (unparsed_unread url) habout]
    exact ⟨rfl, by simp [unparsed, literal], rfl, rfl, rfl, rfl, rfl, rfl⟩

/-- A reference with a scheme. -/
theorem ofRelative_schemed {base u : Url} (hbase : base.Standing) (hu : u.Started) :
    let built := if u.testProtocol "data" || base.isEmpty || base.getProtocol ≠ u.getProtocol then
      u.parse.getD cleared else (u.parseRelative base).getD cleared
    built.Standing ∧ built.Sound := by
  intro built
  by_cases hparse : (u.testProtocol "data" || base.isEmpty ||
      base.getProtocol ≠ u.getProtocol) = true
  · rw [show built = u.parse.getD cleared from if_pos hparse]
    exact parse_getD_spec hu
  rw [show built = (u.parseRelative base).getD cleared from if_neg hparse]
  have habout (hb : base.AboutBase) : ((u.parseRelative base).getD cleared).Standing ∧
      ((u.parseRelative base).getD cleared).Sound := by
    have hsame : base.getProtocol = u.getProtocol := by
      simp only [Bool.or_eq_true, decide_eq_true_eq, not_or, Decidable.not_not] at hparse
      exact hparse.2
    have hend : u.protocolEnd = 6 := by
      have hlen := length_substr (i := 0) hu.schemed.le
      rw [show substr u.url 0 u.protocolEnd = literal "about:" from hsame.symm.trans hb.protocol]
        at hlen
      simpa [literal] using hlen.symm
    rw [parseRelative_about hb]
    cases h : u.parseAboutRelative with
    | none => exact ⟨.cleared rfl, cleared_sound⟩
    | some v =>
      have hflat := merge_about_flat hb hu.unread hend h
      exact ⟨.flat hflat, hflat.sound⟩
  cases hbase with
  | cleared hb =>
    rw [parseRelative_none (by rw [hb]; exact Nat.le_refl _) (.inl hb)]
    exact ⟨.cleared rfl, cleared_sound⟩
  | hierarchical hb => exact parseRelative_hierarchical hu.unread hb
  | flat hb =>
    obtain ⟨_, _, _, hlaid⟩ := hb.laid
    have hp := hb.protocol
    simp only [List.mem_cons, List.not_mem_nil, or_false] at hp
    rcases hp with hp | hp
    · exact habout (hb.aboutBase hp)
    · rw [parseRelative_none hlaid.protocolEnd_le (.inr hp)]
      exact ⟨.cleared rfl, cleared_sound⟩
  | stray hb => exact habout hb

theorem Hierarchical.not_about {u : Url} (h : u.Hierarchical) :
    u.getProtocol ≠ literal "about:" := by
  have hp := h.protocol
  simp only [Url.hierarchical, List.mem_cons, List.not_mem_nil, or_false] at hp
  rcases hp with hp | hp | hp <;> rw [hp] <;> decide

/-- A step of a construction: what is built from a base that was built. -/
theorem ofRelative_spec {base : Url} (hbase : base.Standing) (text : U16String) :
    (ofRelative base text).Standing ∧
      ((ofRelative base text).Sound ↔ ¬ bareAbout base text) := by
  unfold ofRelative bareAbout
  generalize stripLeadingAndTrailingWhitespace text = url
  dsimp only
  cases hscheme : (unparsed url).hasScheme with
  | some u =>
    obtain ⟨hstanding, hsound⟩ := ofRelative_schemed hbase (started_of_hasScheme hscheme)
    exact ⟨hstanding, ⟨fun _ hbare => absurd hbare.2.1 nofun, fun _ => hsound⟩⟩
  | none =>
    dsimp only
    have hcleared (hno : base.getProtocol ≠ literal "about:")
        (h : (unparsed url).parseRelative base = none) :
        (((unparsed url).parseRelative base).getD cleared).Standing ∧
          ((((unparsed url).parseRelative base).getD cleared).Sound ↔
            ¬ (base.getProtocol = literal "about:" ∧ True ∧ isAboutReference url)) := by
      rw [h]
      exact ⟨.cleared rfl, ⟨fun _ hbare => hno hbare.1, fun _ => cleared_sound⟩⟩
    have habout (hb : base.AboutBase) :
        (((unparsed url).parseRelative base).getD cleared).Standing ∧
          ((((unparsed url).parseRelative base).getD cleared).Sound ↔
            ¬ (base.getProtocol = literal "about:" ∧ True ∧ isAboutReference url)) := by
      have h := parseRelative_bare url hb
      simpa only [hb.protocol, true_and] using h
    simp only [eq_self_iff_true]
    cases hbase with
    | cleared hb =>
      refine hcleared ?_ (parseRelative_none (by rw [hb]; exact Nat.le_refl _) (.inl hb))
      rw [hb]
      decide
    | hierarchical hb =>
      obtain ⟨hstanding, hsound⟩ := parseRelative_hierarchical (unparsed_unread url) hb
      exact ⟨hstanding, ⟨fun _ hbare => hb.not_about hbare.1, fun _ => hsound⟩⟩
    | flat hb =>
      obtain ⟨_, _, _, hlaid⟩ := hb.laid
      have hp := hb.protocol
      simp only [List.mem_cons, List.not_mem_nil, or_false] at hp
      rcases hp with hp | hp
      · exact habout (hb.aboutBase hp)
      · refine hcleared ?_ (parseRelative_none hlaid.protocolEnd_le (.inr hp))
        rw [hp]
        decide
    | stray hb => exact habout hb

theorem ofString_spec (text : U16String) : (ofString text).Standing ∧ (ofString text).Sound := by
  unfold ofString
  split
  · exact ⟨.cleared rfl, cleared_sound⟩
  · rename_i u hscheme
    exact parse_getD_spec (started_of_hasScheme hscheme)

theorem Construction.standing (c : Construction) : c.build.Standing := by
  induction c with
  | string text => exact (ofString_spec text).1
  | relative base text ih => exact (ofRelative_spec ih text).1

/-- A URL that was built is empty or made of its components, unless its last step resolves a
    reference without a scheme against an `about:` URL. -/
theorem Construction.sound_iff (c : Construction) : c.build.Sound ↔ ¬ c.isBareAbout := by
  cases c with
  | string text => exact ⟨fun _ => id, fun _ => (ofString_spec text).2⟩
  | relative base text => exact (ofRelative_spec base.standing text).2

/-- `foo` against `about:blank`: the string is `about:foo`, the path `abo`, the search `ut:foo`. -/
theorem Construction.sound_fails : ¬ ∀ c : Construction, c.build.Sound := by
  intro h
  have hsearch : (build (.relative (.string (literal "about:blank")) (literal "foo"))).getSearch =
      literal "ut:foo" := by decide +kernel
  rcases h (.relative (.string (literal "about:blank")) (literal "foo")) with hempty | hwf
  · revert hempty
    decide +kernel
  · rcases hwf.search_start with hnil | hhead
    · rw [hsearch] at hnil
      cases hnil
    · rw [hsearch] at hhead
      revert hhead
      decide

end EsOs.Escort.Url
