import EsOs.Escort.Url
import EsOs.Lib.Digits

/-!
# IP addresses in a URL

What the grammar above `URL::parseIPv6Address` (`URL.cpp:251-261`) says of an address, and the
addresses that the loops of `URL.cpp:227-325` read, as lists of their groups and octets.
-/

namespace EsOs.Escort

open Digits

/-- `text` stands in the string from `pos` to `next`. -/
def Stands (url : U16String) (pos : Nat) (text : U16String) (next : Nat) : Prop :=
  text <+: url.drop pos ∧ next = pos + text.length

/-- The number that decimal digits make. -/
def decimal (w : U16String) : Nat :=
  number 10 (fun c => c - '0'.toNat) 0 w

/-- The number that hexadecimal digits make. -/
def hexadecimal (w : U16String) : Nat :=
  number 16 (fun c => c - isHexDigit c) 0 w

/-- A decimal number from 0 to 255. -/
structure Octet (w : U16String) : Prop where
  nonempty : w ≠ []
  digits : ∀ c ∈ w, isDigit c = true
  value : decimal w ≤ 255

/-- Four octets. -/
structure Quad (octets : List U16String) : Prop where
  four : octets.length = 4
  octets : ∀ w ∈ octets, Octet w

/-- The text of octets. -/
def quadText (octets : List U16String) : U16String :=
  joined '.'.toNat octets

/-- The parts of an IPv6 address: the groups, those behind `"::"` where there is one, and the octets
    of the IPv4 address at the end where there is one. -/
structure Address where
  left : List U16String
  right : Option (List U16String)
  quad : Option (List U16String)

namespace Address

/-- The groups behind `"::"`. -/
def behind (a : Address) : List U16String := a.right.getD []

def groups (a : Address) : List U16String := a.left ++ a.behind

def octets (a : Address) : List U16String := a.quad.getD []

/-- The last piece, where it is an IPv4 address. -/
def last (a : Address) : List U16String := (a.quad.map quadText).toList

def text (a : Address) : U16String :=
  match a.right with
  | none => joined ':'.toNat (a.left ++ a.last)
  | some right => joined ':'.toNat a.left ++ literal "::" ++ joined ':'.toNat (right ++ a.last)

/-- How many groups of 16 bits are written. -/
def written (a : Address) : Nat :=
  a.groups.length + 2 * a.last.length

/-- `hex4` of the grammar. -/
def isHex4 (w : U16String) : Prop :=
  1 ≤ w.length ∧ w.length ≤ 4 ∧ ∀ c ∈ w, isHexDigit c ≠ 0

/-- An address by the grammar: eight groups of one to four digits, or fewer with one `"::"`, where
    the last two may be an IPv4 address with octets of one to three digits. -/
structure Legal (a : Address) : Prop where
  groups : ∀ w ∈ a.groups, isHex4 w
  quad : ∀ octets, a.quad = some octets → Quad octets
  short : ∀ w ∈ a.octets, w.length ≤ 3
  eight : a.right = none → a.written = 8
  fewer : a.right ≠ none → a.written < 8

/-- A group as the loop reads it: any number of digits, none of them behind `"::"`. -/
def isRun (w : U16String) : Prop :=
  (∀ c ∈ w, isHexDigit c ≠ 0) ∧ hexadecimal w ≤ 0xffff

/-- An address as the loop reads it. It counts `"::"` as two groups; it looks for an IPv4 address
    behind a group only, and gives up at a count of 7. -/
structure Taken (a : Address) : Prop where
  groups : ∀ w ∈ a.groups, isRun w
  left : ∀ w ∈ a.left, w ≠ []
  quad : ∀ octets, a.quad = some octets → Quad octets
  eight : a.right = none → a.written = 8
  six : a.right ≠ none → a.quad = none → a.groups.length ≤ 6
  four : a.right ≠ none → a.quad ≠ none →
    a.behind ≠ [] ∧ a.groups.length ≤ 4 ∧ a.groups.length ≠ 3
  /-- An empty text behind `"::"` is no group. -/
  plain : a.quad = none → a.right ≠ some [[]]

/-- A group or an octet with too many digits, or a group without any. -/
def Malformed (a : Address) : Prop :=
  (∃ w ∈ a.groups, w = [] ∨ 4 < w.length) ∨ ∃ w ∈ a.octets, 3 < w.length

/-- Seven groups and `"::"`, or an IPv4 address right behind `"::"` or after three or five groups and
    `"::"`. -/
def Unsupported (a : Address) : Prop :=
  a.right ≠ none ∧
    ((a.quad = none ∧ a.groups.length = 7) ∨
      (a.quad ≠ none ∧ (a.behind = [] ∨ a.groups.length = 3 ∨ a.groups.length = 5)))

/-- An address that the loop takes against the grammar, or that the grammar allows and the loop
    refuses. -/
def Mistaken (a : Address) : Prop :=
  (a.Taken ∧ a.Malformed) ∨ (a.Legal ∧ a.Unsupported)

/-- `'[' IPv6address ']'`. -/
def bracketed (a : Address) : U16String :=
  '['.toNat :: a.text ++ [']'.toNat]

end Address

/-- Three octets with a dot behind each are all that is left of the string. -/
def cutQuad (rest : U16String) : Prop :=
  ∃ octets : List U16String, octets.length = 3 ∧ (∀ w ∈ octets, Octet w) ∧
    rest = quadText (octets ++ [[]])

/-- At `pos` the string starts with `'['`, an address that is mistaken and `']'`. -/
def mistakenLiteral (rest : U16String) : Prop :=
  ∃ a : Address, a.Mistaken ∧ a.bracketed <+: rest

/-- `parseIPv4Address` takes the dotted quads, and nothing else. -/
def readsQuads (url : U16String) (pos : Nat) : Prop :=
  ∀ next, parseIPv4Address url pos = some next ↔
    ∃ octets, Quad octets ∧ Stands url pos (quadText octets) next ∧
      isDigit (charAt url next) = false

/-- `parseIPLiteral` takes the bracketed addresses of the grammar, and nothing else. -/
def readsLiterals (url : U16String) (pos : Nat) : Prop :=
  ∀ next, parseIPLiteral url pos = some next ↔
    ∃ a : Address, a.Legal ∧ Stands url pos a.bracketed next

end EsOs.Escort
