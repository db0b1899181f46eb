import EsOs.Escort.Url
import EsOs.Lib.Uri

/-!
# The components of a URL

What the accessors of a URL promise: its offsets are ranges of the string in the order of the
components, and the components make up the string. `Construction` is every way to build a URL with
its constructors, from a base built in any such way.
-/

namespace EsOs.Escort

/-- The positions from `first` up to `last`. A component that is absent has none. -/
structure Range where
  first : Nat
  last : Nat
deriving DecidableEq

namespace Range

def absent (r : Range) : Prop := r.first = r.last

/-- The range lies in a string of this length. -/
def inString (r : Range) (length : Nat) : Prop := r.first ≤ r.last ∧ r.last ≤ length

/-- `r` ends before `s` starts, where both have positions. -/
def before (r s : Range) : Prop := r.absent ∨ s.absent ∨ r.last ≤ s.first

/-- The positions of `r` are positions of `s`. -/
def inside (r s : Range) : Prop := r.absent ∨ (s.first ≤ r.first ∧ r.last ≤ s.last)

end Range

namespace Url

def protocol (u : Url) : Range := ⟨0, u.protocolEnd⟩
def host (u : Url) : Range := ⟨u.hostStart, u.hostEnd⟩
def hostname (u : Url) : Range := ⟨u.hostnameStart, u.hostnameEnd⟩
def port (u : Url) : Range := ⟨u.portStart, u.portEnd⟩
def pathname (u : Url) : Range := ⟨u.pathnameStart, u.pathnameEnd⟩
def search (u : Url) : Range := ⟨u.searchStart, u.searchEnd⟩
def hash (u : Url) : Range := ⟨u.hashStart, u.hashEnd⟩

/-- The schemes whose URLs have an authority. -/
def hierarchical : List U16String :=
  [literal "http:", literal "https:", literal "file:"]

/-- What stands between the protocol and the host. -/
def slashes (u : Url) : U16String :=
  if u.getProtocol ∈ hierarchical then literal "//" else []

/-- The components lie in order in the string, and the string is made of them. -/
structure WellFormed (u : Url) : Prop where
  inString : ∀ r ∈ [u.protocol, u.host, u.hostname, u.port, u.pathname, u.search, u.hash],
    r.inString u.url.length
  inOrder : [u.protocol, u.host, u.pathname, u.search, u.hash].Pairwise Range.before
  hostname_inside : u.hostname.inside u.host
  port_inside : u.port.inside u.host
  hostname_before : u.hostname.before u.port
  search_start : u.getSearch = [] ∨ u.getSearch.head? = some '?'.toNat
  hash_start : u.getHash = [] ∨ u.getHash.head? = some '#'.toNat
  whole : u.url = u.getProtocol ++ u.slashes ++ u.getHost ++ u.getPathname ++ u.getSearch ++
    u.getHash

/-- Empty, or made of its components. -/
def Sound (u : Url) : Prop :=
  u.isEmpty = true ∨ u.WellFormed

/-- The ways to build a URL: from a string, or from a URL that was built and a reference. -/
inductive Construction where
  | string (text : U16String)
  | relative (base : Construction) (text : U16String)

/-- The URL that a construction builds. -/
def Construction.build : Construction → Url
  | string text => ofString text
  | relative base text => ofRelative base.build text

/-- A reference that `URL::parseAboutRelative` reads to its end: a path without slashes, and
    perhaps a fragment. -/
def isAboutReference (text : U16String) : Prop :=
  let stop := skipPchars text 0
  text.length ≤ stop ∨
    (charAt text stop = '#'.toNat ∧ text.length ≤ parseFragment text (stop + 1))

/-- The reference is resolved against an `about:` URL and does not repeat its scheme. -/
def bareAbout (base : Url) (text : U16String) : Prop :=
  base.getProtocol = literal "about:" ∧
    (unparsed (stripLeadingAndTrailingWhitespace text)).hasScheme = none ∧
    isAboutReference (stripLeadingAndTrailingWhitespace text)

/-- The last step of the construction resolves such a reference. -/
def Construction.isBareAbout : Construction → Prop
  | string _ => False
  | relative base text => bareAbout base.build text

end Url

end EsOs.Escort

/-!
## Relative references as the http scheme reads them

What a reference has to be for `URL(base, relative)` to resolve it by the generic algorithm, and the
case that the scheme gives to the letters of its host.
-/

namespace EsOs.Escort

/-- Every percent sign stands before two hexadecimal digits. -/
def WellEncoded (text : U16String) : Prop :=
  ∀ i, i < text.length → charAt text i = '%'.toNat →
    isHexDigit (charAt text (i + 1)) ≠ 0 ∧ isHexDigit (charAt text (i + 2)) ≠ 0

/-- The letters of a name in lower case, but for those of its percent-encoded octets. -/
def lowerName : U16String → U16String
  | c :: d :: e :: rest =>
    if c = '%'.toNat ∧ isHexDigit d ≠ 0 ∧ isHexDigit e ≠ 0 then c :: d :: e :: lowerName rest
    else toLower c :: lowerName (d :: e :: rest)
  | c :: rest => toLower c :: lowerName rest
  | [] => []

/-- The authority of a reference that starts with one: an IP literal as it is, a name in lower
    case. -/
def lowerAuthority (relative authority : U16String) : U16String :=
  if (parseIPLiteral relative 2).isSome then authority else lowerName authority

/-- `ihost [ ":" port ]` reads the whole authority: the host is not empty, and the digits of the port
    are the rest of it. -/
def readsAuthority (relative authority : U16String) : Prop :=
  (((Url.unparsed relative).parseAuthority 2).map fun read => read.2) = some (authority.length + 2)

/-- The reference with its host in lower case. -/
def lowered (relative : U16String) : Uri.Reference :=
  let r := Uri.split relative
  { r with authority := r.authority.map (lowerAuthority relative) }

/-- An empty path is read as `/`. -/
def rootedTarget (target : Uri.Reference) : Uri.Reference :=
  { target with path := if target.path = [] then literal "/" else target.path }

end EsOs.Escort
