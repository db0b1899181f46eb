import Mathlib.Tactic.TypeStar

/-!
# URLs

`escort/src/url/URL.cpp`: a URL is a string of UTF-16 code units with the offsets of its components,
which its constructors find by a parser for each scheme. A parser function takes a position and gives
the one behind what it reads, or nothing where it returns false. `url[pos]` at the end of the string
is `'\0'`.
-/

namespace EsOs.Escort

/-- `std::u16string`. -/
abbrev U16String := List Nat

/-- A string literal of ASCII characters. -/
def literal (s : String) : U16String :=
  s.toList.map Char.toNat

/-! ## Characters (`utf.h:49-115`) -/

def isAlpha (c : Nat) : Bool :=
  ('A'.toNat ≤ c && c ≤ 'Z'.toNat) || ('a'.toNat ≤ c && c ≤ 'z'.toNat)

def isDigit (c : Nat) : Bool :=
  '0'.toNat ≤ c && c ≤ '9'.toNat

def isAlnum (c : Nat) : Bool :=
  isDigit c || isAlpha c

/-- What is taken off a hexadecimal digit to get its value; 0 for any other character. -/
def isHexDigit (c : Nat) : Nat :=
  if '0'.toNat ≤ c ∧ c ≤ '9'.toNat then '0'.toNat
  else if 'A'.toNat ≤ c ∧ c ≤ 'F'.toNat then 'A'.toNat - 10
  else if 'a'.toNat ≤ c ∧ c ≤ 'f'.toNat then 'a'.toNat - 10
  else 0

def isSpace (c : Nat) : Bool :=
  c = 0x09 || c = 0x0a || c = 0x0c || c = 0x0d || c = 0x20

def toLower (c : Nat) : Nat :=
  if 'A'.toNat ≤ c ∧ c ≤ 'Z'.toNat then c + ('a'.toNat - 'A'.toNat) else c

/-- `stripLeadingAndTrailingWhitespace` (`utf.h:124-145`). -/
def stripLeadingAndTrailingWhitespace (s : U16String) : U16String :=
  ((s.dropWhile isSpace).reverse.dropWhile isSpace).reverse

/-- `isSchemeChar` (`URL.cpp:31-34`). -/
def isSchemeChar (c : Nat) : Bool :=
  isAlnum c || c = '+'.toNat || c = '-'.toNat || c = '.'.toNat

/-- `isSubDelims` (`URL.cpp:37-55`). -/
def isSubDelims (c : Nat) : Bool :=
  (literal "!$&'()*+,;=").contains c

/-! ## Dot segments -/

/-- The output without its last segment and the slash before it (`URL.cpp:71-75`). -/
def dropLastSegment (output : U16String) : U16String :=
  ((output.reverse.dropWhile fun c => c ≠ '/'.toNat).drop 1).reverse

/-- The loop of `removeDotSegments` (`URL.cpp:61-95`), from the input that is left. -/
def removeDotLoop : Nat → U16String → U16String → U16String
  | 0, _, output => output
  | turns + 1, input, output =>
    if input.isEmpty then output
    else if input.take 3 = literal "../" then removeDotLoop turns (input.drop 3) output
    else if input.take 2 = literal "./" then removeDotLoop turns (input.drop 2) output
    else if input.take 3 = literal "/./" ∨ input = literal "/." then
      let input := input.drop 2
      removeDotLoop turns input (if input.isEmpty then output ++ literal "/" else output)
    else if input.take 4 = literal "/../" ∨ input = literal "/.." then
      let input := input.drop 3
      let output := dropLastSegment output
      removeDotLoop turns input (if input.isEmpty then output ++ literal "/" else output)
    else if input = literal ".." then removeDotLoop turns (input.drop 2) output
    else if input = literal "." then removeDotLoop turns (input.drop 1) output
    else
      let slash := input.head? = some '/'.toNat
      let output := if slash then output ++ literal "/" else output
      let input := if slash then input.drop 1 else input
      removeDotLoop turns (input.dropWhile fun c => c ≠ '/'.toNat)
        (output ++ input.takeWhile fun c => c ≠ '/'.toNat)

/-- `removeDotSegments` (`URL.cpp:57-97`). Every turn of the loop takes some of the input. -/
def removeDotSegments (input : U16String) : U16String :=
  let output := removeDotLoop input.length input []
  if 0 < output.length then output else literal "/"

/-! ## The parts of a URL -/

/-- `url[pos]`. -/
def charAt (url : U16String) (pos : Nat) : Nat :=
  url.getD pos 0

/-- `url.compare(pos, n, s) == 0` for a literal of `n` characters. -/
def startsAt (url : U16String) (pos : Nat) (s : String) : Bool :=
  (url.drop pos).take s.length = literal s

/-- The surrogate pair at a position (`URL.cpp:109-123`). -/
def surrogate? (url : U16String) (pos : Nat) : Option Nat :=
  let c := charAt url pos
  if 0xd800 ≤ c ∧ c ≤ 0xdbff then
    if url.length ≤ pos + 1 then none
    else
      let d := charAt url (pos + 1)
      if 0xdc00 ≤ d ∧ d ≤ 0xdfff then some ((c - 0xd800) * 1024 + (d - 0xdc00) + 0x10000) else none
  else none

/-- `URL::parseUCSChar` (`URL.cpp:101-126`). It goes over one unit of a surrogate pair. -/
def parseUCSChar (url : U16String) (pos : Nat) : Option Nat :=
  let c := charAt url pos
  if (0xa0 ≤ c ∧ c ≤ 0xd7ff) ∨ (0xf900 ≤ c ∧ c < 0xfdcf) ∨ (0xfdf0 ≤ c ∧ c < 0xffef) then
    some (pos + 1)
  else match surrogate? url pos with
    | none => none
    | some c => if c < 0xf0000 ∧ c % 0x10000 ≤ 0xfffd then some (pos + 1) else none

/-- `URL::parsePrivate` (`URL.cpp:129-154`). -/
def parsePrivate (url : U16String) (pos : Nat) : Option Nat :=
  let c := charAt url pos
  if 0xe000 ≤ c ∧ c ≤ 0xf8ff then some (pos + 1)
  else match surrogate? url pos with
    | none => none
    | some c =>
      if 0xf0000 ≤ c ∧ c ≤ 0x10fffd ∧ c % 0x10000 ≤ 0xfffd then some (pos + 1) else none

/-- `URL::parseUnreservedChar` (`URL.cpp:156-169`). -/
def parseUnreservedChar (url : U16String) (pos : Nat) : Option Nat :=
  let c := charAt url pos
  if isAlnum c || (literal "-._~").contains c || c ≤ 0x20 || 0x7f ≤ c ||
      (literal "\"<>[\\]^\x60\x7b|\x7d").contains c then
    some (pos + 1)
  else parseUCSChar url pos

/-- `URL::parsePercentEncoded` (`URL.cpp:190-203`). -/
def parsePercentEncoded (url : U16String) (pos : Nat) : Option Nat :=
  if charAt url pos ≠ '%'.toNat then none
  else if url.length ≤ pos + 1 then none
  else if isHexDigit (charAt url (pos + 1)) = 0 then none
  else if url.length ≤ pos + 2 then none
  else if isHexDigit (charAt url (pos + 2)) = 0 then none
  else some (pos + 3)

/-- `URL::parsePchar` (`URL.cpp:172-188`). -/
def parsePchar (url : U16String) (pos : Nat) : Option Nat :=
  match parseUnreservedChar url pos with
  | some pos => some pos
  | none => match parsePercentEncoded url pos with
    | some pos => some pos
    | none =>
      let c := charAt url pos
      if isSubDelims c || c = ':'.toNat || c = '@'.toNat then some (pos + 1) else none

/-- Reads what `one` reads until it reads nothing, or the string ends. -/
def skipWhile (one : U16String → Nat → Option Nat) (url : U16String) : Nat → Nat → Nat
  | 0, pos => pos
  | turns + 1, pos =>
    if url.length ≤ pos then pos
    else match one url pos with
      | some pos => skipWhile one url turns pos
      | none => pos

/-- `while (pos < url.length() && parsePchar(pos))`. -/
def skipPchars (url : U16String) (pos : Nat) : Nat :=
  skipWhile parsePchar url url.length pos

/-- A turn of the loop of `URL::parseQuery` (`URL.cpp:356-371`). -/
def parseQueryChar (url : U16String) (pos : Nat) : Option Nat :=
  match parsePchar url pos with
  | some pos => some pos
  | none => match parsePrivate url pos with
    | some pos => some pos
    | none =>
      let c := charAt url pos
      if c = '/'.toNat || c = '?'.toNat then some (pos + 1) else none

/-- `URL::parseQuery`. -/
def parseQuery (url : U16String) (pos : Nat) : Nat :=
  skipWhile parseQueryChar url url.length pos

/-- A turn of the loop of `URL::parseFragment` (`URL.cpp:374-386`). -/
def parseFragmentChar (url : U16String) (pos : Nat) : Option Nat :=
  match parsePchar url pos with
  | some pos => some pos
  | none =>
    let c := charAt url pos
    if c = '/'.toNat || c = '?'.toNat || c = '#'.toNat then some (pos + 1) else none

/-- `URL::parseFragment`. -/
def parseFragment (url : U16String) (pos : Nat) : Nat :=
  skipWhile parseFragmentChar url url.length pos

/-- `URL::parsePath` (`URL.cpp:344-353`). -/
def parsePath (url : U16String) (pos : Nat) : Nat :=
  skipWhile
    (fun url pos => if charAt url pos ≠ '/'.toNat then none else some (skipPchars url (pos + 1)))
    url url.length pos

/-- The loop over the path of a relative reference (`URL.cpp:493-501`). -/
def parseSegments (url : U16String) : Nat → Nat → Nat
  | 0, pos => pos
  | turns + 1, pos =>
    let pos := skipPchars url pos
    if url.length ≤ pos ∨ charAt url pos ≠ '/'.toNat then pos else parseSegments url turns (pos + 1)

/-- `URL::parseIregName` (`URL.cpp:207-223`), with the letters that it makes lower case. -/
def parseIregName : Nat → U16String → Nat → U16String × Nat
  | 0, url, pos => (url, pos)
  | turns + 1, url, pos =>
    if url.length ≤ pos then (url, pos)
    else match parsePercentEncoded url pos with
      | some pos => parseIregName turns url pos
      | none =>
        let url := url.set pos (toLower (charAt url pos))
        match parseUnreservedChar url pos with
        | some pos => parseIregName turns url pos
        | none =>
          if isSubDelims (charAt url pos) then parseIregName turns url (pos + 1) else (url, pos)

/-- The digits of an octet from `first` on (`URL.cpp:231-242`), with what they make so far. -/
def parseOctet (url : U16String) (first : Nat) : Nat → Nat → Nat → Option Nat
  | 0, pos, _ => some pos
  | turns + 1, pos, a =>
    if url.length ≤ pos then some pos
    else if isDigit (charAt url pos) then
      let a := a * 10 + (charAt url pos - '0'.toNat)
      if 255 < a then none else parseOctet url first turns (pos + 1) a
    else if pos = first then none
    else some pos

/-- `URL::parseIPv4Address` (`URL.cpp:227-249`), from the octet `c` on. -/
def parseIPv4From (url : U16String) : Nat → Nat → Option Nat
  | 0, pos => some pos
  | left + 1, pos => match parseOctet url pos url.length pos 0 with
    | none => none
    | some pos =>
      if left = 0 then some pos
      else if charAt url pos ≠ '.'.toNat then none
      else parseIPv4From url left (pos + 1)

def parseIPv4Address (url : U16String) (pos : Nat) : Option Nat :=
  parseIPv4From url 4 pos

/-- The digits of a group from `first` on (`URL.cpp:275-287`). -/
def parseHex4 (url : U16String) (first : Nat) (useDoubleColon : Bool) :
    Nat → Nat → Nat → Option Nat
  | 0, pos, _ => some pos
  | turns + 1, pos, a =>
    if url.length ≤ pos then some pos
    else
      let n := isHexDigit (charAt url pos)
      if n ≠ 0 then
        let a := a * 16 + (charAt url pos - n)
        if 0xffff < a then none else parseHex4 url first useDoubleColon turns (pos + 1) a
      else if pos = first && !useDoubleColon then none
      else some pos

/-- The loop of `URL::parseIPv6Address` (`URL.cpp:266-303`): `c` and `useDoubleColon` as it leaves
    them, and the position. -/
def parseIPv6Loop (url : U16String) : Nat → Nat → Bool → Nat → Nat → Option (Nat × Bool × Nat)
  | 0, c, useDoubleColon, _, pos => some (c, useDoubleColon, pos)
  | turns + 1, c, useDoubleColon, colon, pos =>
    if 8 ≤ c then some (c, useDoubleColon, pos)
    else
      let double := c ≤ 6 && !useDoubleColon && startsAt url colon "::"
      let useDoubleColon := useDoubleColon || double
      let pos := if double then colon + 2 else pos
      let c := if double then c + 2 else c
      if double && 8 ≤ c then some (c, useDoubleColon, pos)
      else match parseHex4 url pos useDoubleColon url.length pos 0 with
        | none => none
        | some pos =>
          if c < 7 && charAt url pos ≠ ':'.toNat then some (c, useDoubleColon, pos)
          else
            let colon := if c < 7 then pos else colon
            let pos := if c < 7 then pos + 1 else pos
            if c = 5 || (c < 5 && useDoubleColon) then
              match parseIPv4Address url pos with
              | some pos => some (c + 3, useDoubleColon, pos)
              | none => parseIPv6Loop url turns (c + 1) useDoubleColon colon pos
            else parseIPv6Loop url turns (c + 1) useDoubleColon colon pos

/-- `URL::parseIPv6Address` (`URL.cpp:262-304`). -/
def parseIPv6Address (url : U16String) (pos : Nat) : Option Nat :=
  match parseIPv6Loop url 9 0 false pos pos with
  | none => none
  | some (c, useDoubleColon, pos) =>
    if c = 8 || (0 < c && c ≤ 6 && useDoubleColon) then some pos else none

/-- `URL::parseIPLiteral` (`URL.cpp:306-325`). -/
def parseIPLiteral (url : U16String) (pos : Nat) : Option Nat :=
  if charAt url pos ≠ '['.toNat then none
  else if url.length ≤ pos + 1 then none
  else match parseIPv6Address url (pos + 1) with
    | none => none
    | some pos =>
      if url.length ≤ pos then none
      else if charAt url pos ≠ ']'.toNat then none
      else some (pos + 1)

/-- `URL::parseHost` (`URL.cpp:328-339`). -/
def parseHost (url : U16String) (pos : Nat) : U16String × Nat :=
  match parseIPLiteral url pos with
  | some pos => (url, pos)
  | none => match parseIPv4Address url pos with
    | some pos => (url, pos)
    | none => parseIregName url.length url pos

/-! ## URLs -/

/-- `url.substr(first, last - first)`. -/
def substr (url : U16String) (first last : Nat) : U16String :=
  (url.drop first).take (last - first)

/-- `url.find(c, pos)`. -/
def findFrom (c : Nat) (url : U16String) (pos : Nat) : Option Nat :=
  let found := pos + ((url.drop pos).takeWhile fun d => d ≠ c).length
  if found < url.length then some found else none

/-- The slash that is put behind an authority that has none (`URL.cpp:419-422`). -/
def insertSlash (url : U16String) (pos : Nat) : U16String :=
  if url.length ≤ pos then url ++ literal "/"
  else if charAt url pos ≠ '/'.toNat then url.take pos ++ literal "/" ++ url.drop pos
  else url

/-- The digits of a port. -/
def skipDigits (url : U16String) (pos : Nat) : Nat :=
  pos + ((url.drop pos).takeWhile isDigit).length

/-- `URL`: the string and the offsets of its components (`URL.h:34-47`). -/
structure Url where
  url : U16String
  protocolEnd : Nat
  hostStart : Nat
  hostEnd : Nat
  hostnameStart : Nat
  hostnameEnd : Nat
  portStart : Nat
  portEnd : Nat
  pathnameStart : Nat
  pathnameEnd : Nat
  searchStart : Nat
  searchEnd : Nat
  hashStart : Nat
  hashEnd : Nat
deriving DecidableEq, Repr

namespace Url

/-- A URL with a string and no component yet. -/
def unparsed (url : U16String) : Url :=
  ⟨url, 0, 0, 0, 0, 0, 0, 0, 0, 0, 0, 0, 0, 0⟩

/-- What `URL::clear` leaves (`URL.cpp:528-538`). -/
def cleared : Url :=
  unparsed []

def isEmpty (u : Url) : Bool := u.url.isEmpty
def getProtocol (u : Url) : U16String := substr u.url 0 u.protocolEnd
def getHost (u : Url) : U16String := substr u.url u.hostStart u.hostEnd
def getHostname (u : Url) : U16String := substr u.url u.hostnameStart u.hostnameEnd
def getPathname (u : Url) : U16String := substr u.url u.pathnameStart u.pathnameEnd
def getSearch (u : Url) : U16String := substr u.url u.searchStart u.searchEnd
def getHash (u : Url) : U16String := substr u.url u.hashStart u.hashEnd

/-- `url.compare(0, protocolEnd - 1, s) == 0`. -/
def hasProtocol (u : Url) (s : String) : Bool :=
  u.url.take (u.protocolEnd - 1) = literal s

/-- `URL::testProtocol` (`URL.h:108-110`). -/
def testProtocol (u : Url) (protocol : String) : Bool :=
  u.protocolEnd ≠ 0 && u.hasProtocol protocol

/-- `URL::hasScheme` (`URL.cpp:540-558`): the URL with its scheme in lower case. -/
def hasScheme (u : Url) : Option Url :=
  if isAlpha (charAt u.url 0) then
    let pos := 1 + ((u.url.drop 1).takeWhile isSchemeChar).length
    if charAt u.url pos = ':'.toNat then
      some { u with
        url := (u.url.take (pos + 1)).map toLower ++ u.url.drop (pos + 1)
        protocolEnd := pos + 1 }
    else none
  else none

/-- `ihost [ ":" port ]` and the slash behind it (`URL.cpp:397-421`, `:457-481`). -/
def parseAuthority (u : Url) (pos : Nat) : Option (Url × Nat) :=
  let host := parseHost u.url pos
  if host.2 = pos then none
  else
    let port := charAt host.1 host.2 = ':'.toNat
    let portStart := if port then host.2 + 1 else host.2
    let portEnd := if port then skipDigits host.1 portStart else host.2
    some ({ u with
      url := insertSlash host.1 portEnd
      hostStart := pos
      hostnameStart := pos
      hostnameEnd := host.2
      portStart := portStart
      portEnd := portEnd
      hostEnd := portEnd }, portEnd)

/-- The host of a file URL and the slash behind it (`URL.cpp:571-582`, `:607-619`). -/
def parseFileHost (u : Url) (pos : Nat) : Url × Nat :=
  let host := parseHost u.url pos
  ({ u with
    url := insertSlash host.1 host.2
    hostStart := pos
    hostnameStart := pos
    hostnameEnd := host.2
    hostEnd := host.2 }, host.2)

/-- `[ "?" iquery ]` (`URL.cpp:429-434`). At the end of the string there is nothing to read. -/
def parseSearch (u : Url) (pos : Nat) : Url × Nat :=
  if charAt u.url pos = '?'.toNat then
    let stop := parseQuery u.url (pos + 1)
    ({ u with searchStart := pos, searchEnd := stop }, stop)
  else (u, pos)

/-- `[ "#" ifragment ]`, which has to be the rest of the string (`URL.cpp:435-445`). -/
def parseHash (u : Url) (pos : Nat) : Option Url :=
  if charAt u.url pos = '#'.toNat then
    let stop := parseFragment u.url (pos + 1)
    if u.url.length ≤ stop then some { u with hashStart := pos, hashEnd := stop } else none
  else if u.url.length ≤ pos then some u
  else none

def setPathname (u : Url) (start stop : Nat) : Url :=
  { u with pathnameStart := start, pathnameEnd := stop }

/-- `URL::parseHTTP` (`URL.cpp:390-446`). -/
def parseHTTP (u : Url) (pos : Nat) : Option Url :=
  if startsAt u.url pos "//" then
    match u.parseAuthority (pos + 2) with
    | none => none
    | some (u, pos) =>
      let stop := parsePath u.url pos
      let next := (u.setPathname pos stop).parseSearch stop
      next.1.parseHash next.2
  else none

/-- The path of a relative reference (`URL.cpp:486-503`). -/
def parseRelativePath (url : U16String) (pos : Nat) : Nat :=
  if charAt url pos = '/'.toNat then parsePath url pos else parseSegments url url.length pos

/-- `URL::parseHTTPRelative` (`URL.cpp:448-526`). -/
def parseHTTPRelative (u : Url) : Option Url :=
  match if startsAt u.url u.protocolEnd "//" then u.parseAuthority (u.protocolEnd + 2)
    else some (u, u.protocolEnd) with
  | none => none
  | some (u, pos) =>
    if u.url.length ≤ pos then some u
    else
      let stop := parseRelativePath u.url pos
      let next := (u.setPathname pos stop).parseSearch stop
      next.1.parseHash next.2

/-- `URL::parseFile` (`URL.cpp:564-598`). -/
def parseFile (u : Url) (pos : Nat) : Option Url :=
  if startsAt u.url pos "//" then
    let next := u.parseFileHost (pos + 2)
    let stop := parsePath next.1.url next.2
    (next.1.setPathname next.2 stop).parseHash stop
  else none

/-- `URL::parseFileRelative` (`URL.cpp:600-655`). -/
def parseFileRelative (u : Url) : Option Url :=
  let next := if startsAt u.url u.protocolEnd "//" then u.parseFileHost (u.protocolEnd + 2)
    else (u, u.protocolEnd)
  if next.1.url.length ≤ next.2 then some next.1
  else
    let stop := parseRelativePath next.1.url next.2
    (next.1.setPathname next.2 stop).parseHash stop

/-- `URL::parseAbout` (`URL.cpp:664-695`). -/
def parseAbout (u : Url) (pos : Nat) : Option Url :=
  if u.url.length ≤ pos then some u
  else
    let stop := skipPchars u.url pos
    let next := (u.setPathname pos stop).parseSearch stop
    next.1.parseHash next.2

/-- `URL::parseData` (`URL.cpp:697-710`). -/
def parseData (u : Url) (pos : Nat) : Option Url :=
  if u.url.length ≤ pos then none
  else match findFrom ','.toNat u.url pos with
    | none => none
    | some data =>
      let stop := skipPchars u.url (data + 1)
      if u.url.length ≤ stop then some (u.setPathname pos stop) else none

/-- `URL::parseAboutRelative` (`URL.cpp:712-735`). -/
def parseAboutRelative (u : Url) : Option Url :=
  let stop := skipPchars u.url u.protocolEnd
  (u.setPathname u.protocolEnd stop).parseHash stop

/-- `URL::parse` (`URL.cpp:741-754`). -/
def parse (u : Url) : Option Url :=
  if u.hasProtocol "http" || u.hasProtocol "https" then u.parseHTTP u.protocolEnd
  else if u.hasProtocol "file" then u.parseFile u.protocolEnd
  else if u.hasProtocol "about" then u.parseAbout u.protocolEnd
  else if u.hasProtocol "data" then u.parseData u.protocolEnd
  else none

/-- The path of a URL up to its last slash (`URL.cpp:813-815`). -/
def directory (u : Url) : U16String :=
  ((u.url.take u.pathnameEnd).reverse.dropWhile fun c => c ≠ '/'.toNat).reverse.drop u.pathnameStart

/-- The path and the query of a reference against a hierarchical base (`URL.cpp:797-818`). -/
def targetPath (u base : Url) : U16String × U16String :=
  if u.pathnameStart = u.pathnameEnd then
    (base.getPathname, if u.searchStart ≠ u.searchEnd then u.getSearch else base.getSearch)
  else if charAt u.url u.pathnameStart = '/'.toNat then
    (removeDotSegments u.getPathname, u.getSearch)
  else (removeDotSegments (base.directory ++ u.getPathname), u.getSearch)

/-- The host of a reference and its offsets: those of the base, or its own moved to where the
    host of the base starts (`URL.cpp:776-795`). The base does not start before the reference. -/
def mergeHost (u base : Url) : Url × U16String :=
  if u.hostStart = u.hostEnd then
    ({ u with
      hostStart := base.hostStart
      hostEnd := base.hostEnd
      hostnameStart := base.hostnameStart
      hostnameEnd := base.hostnameEnd
      portStart := base.portStart
      portEnd := base.portEnd }, base.getHost)
  else
    ({ u with
      hostStart := u.hostStart + base.hostStart - u.hostStart
      hostEnd := u.hostEnd + base.hostStart - u.hostStart
      hostnameStart := u.hostnameStart + base.hostStart - u.hostStart
      hostnameEnd := u.hostnameEnd + base.hostStart - u.hostStart
      portStart := u.portStart + base.hostStart - u.hostStart
      portEnd := u.portEnd + base.hostStart - u.hostStart }, u.getHost)

/-- What `URL::parseRelative` does with the parsed reference (`URL.cpp:771-829`). For a scheme that
    is not hierarchical the offsets of the path stay as the reference has them. -/
def merge (u base : Url) (hier : Bool) : Url :=
  let merged := u.mergeHost base
  let front := base.getProtocol ++ (if hier then literal "//" else []) ++ merged.2
  let target := if hier then u.targetPath base else (u.getPathname, [])
  let withPath := front ++ target.1
  let withSearch := withPath ++ target.2
  let pathnameStart := if hier then front.length else u.pathnameStart
  let pathnameEnd := if hier then withPath.length else u.pathnameEnd
  { merged.1 with
    url := withSearch ++ u.getHash
    protocolEnd := base.protocolEnd
    pathnameStart := pathnameStart
    pathnameEnd := pathnameEnd
    searchStart := pathnameEnd
    searchEnd := withSearch.length
    hashStart := withSearch.length
    hashEnd := (withSearch ++ u.getHash).length }

/-- `URL::parseRelative` (`URL.cpp:756-830`). -/
def parseRelative (u base : Url) : Option Url :=
  if base.hasProtocol "http" || base.hasProtocol "https" then
    u.parseHTTPRelative.map fun u => u.merge base true
  else if base.hasProtocol "file" then
    u.parseFileRelative.map fun u => u.merge base true
  else if base.hasProtocol "about" then
    u.parseAboutRelative.map fun u => u.merge base false
  else none

/-- `URL(string)` (`URL.cpp:832-857`). -/
def ofString (string : U16String) : Url :=
  match (unparsed (stripLeadingAndTrailingWhitespace string)).hasScheme with
  | none => cleared
  | some u => u.parse.getD cleared

/-- `URL(base, relative)` (`URL.cpp:859-885`). -/
def ofRelative (base : Url) (relative : U16String) : Url :=
  let u := unparsed (stripLeadingAndTrailingWhitespace relative)
  match u.hasScheme with
  | none => (u.parseRelative base).getD cleared
  | some u =>
    if u.testProtocol "data" || base.isEmpty || base.getProtocol ≠ u.getProtocol then
      u.parse.getD cleared
    else (u.parseRelative base).getD cleared

end Url

end EsOs.Escort
