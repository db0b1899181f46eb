import EsOs.Es.Utf
import EsOs.Lib.Uri

/-!
# Escapes in URIs

`encode` and `decode` of `GlobalMethod` in `esjs/src/global.cpp`, the functions under `encodeURI`,
`encodeURIComponent`, `decodeURI` and `decodeURIComponent`. A string is the list of its octets, which
should be UTF-8; a `char` is signed, and its highest bits are those of the octet.
-/

namespace EsOs.Esjs

open EsOs.Lib

/-- The octets of an ASCII text. -/
def octetsOf (s : String) : List UInt8 :=
  s.toList.map Char.toUInt8

/-- `reservedURISet` (`global.cpp:621`). -/
def reservedURISet : List UInt8 := octetsOf ";/?:@&=+$,"

/-- `unescapedURIComponentSet` (`global.cpp:622`). -/
def unescapedURIComponentSet : List UInt8 := octetsOf "-_.!~*'()"

/-- `isUnescaped` (`global.cpp:266-276`). -/
def isUnescaped (c : UInt8) (unescapedSet : List UInt8) : Bool :=
  (0x30 ≤ c ∧ c ≤ 0x39) || (0x61 ≤ c ∧ c ≤ 0x7a) || (0x41 ≤ c ∧ c ≤ 0x5a) ||
    unescapedSet.contains c

/-- How often the test `c & 1 << (7-seq)` succeeds as `seq` grows from zero. -/
def leadingOnes (c : UInt8) : Nat :=
  ((List.range 8).takeWhile fun seq => c.toNat.testBit (7 - seq)).length

/-- The loop of `encode` (`global.cpp:278-323`), where `seq` octets are still to be escaped; nothing
    when a `URIError` is thrown. -/
def encodeLoop (unescapedSet : List UInt8) : Nat → List UInt8 → Option (List UInt8)
  | 0, [] => some []
  | _ + 1, [] => none
  | 0, c :: rest =>
    if unescapedSet.contains c then (encodeLoop unescapedSet 0 rest).map (c :: ·)
    else
      let seq := leadingOnes c
      if 4 < seq then none
      else if seq = 0 ∧ isUnescaped c unescapedSet then
        (encodeLoop unescapedSet 0 rest).map (c :: ·)
      else (encodeLoop unescapedSet (seq - 1) rest).map (escape c ++ ·)
  | seq + 1, c :: rest => (encodeLoop unescapedSet seq rest).map (escape c ++ ·)

/-- `encode` (`global.cpp:278-323`). -/
def encode (uri unescapedSet : List UInt8) : Option (List UInt8) :=
  encodeLoop unescapedSet 0 uri

/-- What `decode` comes to. -/
inductive Decoding where
  | returns (result : List UInt8)
  | uriError
  /-- `uri[k + 2]` is read where the string has ended -/
  | readsPastEnd
  /-- the assertion of `getCode` that both digits are hexadecimal -/
  | assertionFails
deriving DecidableEq, Repr

/-- `result` is put before what the rest of the loop appends. -/
def Decoding.prepend (result : List UInt8) : Decoding → Decoding
  | .returns rest => .returns (result ++ rest)
  | d => d

/-- `seq` after an escape for `c` (`global.cpp:366-380`). -/
def nextSeq (seq : Nat) (c : UInt8) : Nat :=
  if seq = 0 then leadingOnes c - 1 else seq - 1

/-- The loop of `decode` (`global.cpp:349-404`), where `seq` octets of a character are to come. -/
def decodeLoop (reserved : List UInt8) : Nat → List UInt8 → Decoding
  | _, [] => .returns []
  | seq, c :: rest =>
    if c = percentSign then
      match rest with
      | [] => .uriError
      | [_] => .readsPastEnd
      | x :: y :: rest =>
        match hexValue x, hexValue y with
        | some h, some l =>
          let c := UInt8.ofNat (16 * h + l)
          (decodeLoop reserved (nextSeq seq c) rest).prepend
            (if reserved.contains c then [percentSign, x, y] else [c])
        | _, _ => .assertionFails
    else if seq ≠ 0 then .uriError
    else (decodeLoop reserved 0 rest).prepend [c]

/-- `decode` (`global.cpp:349-404`). -/
def decode (uri reserved : List UInt8) : Decoding :=
  decodeLoop reserved 0 uri

/-! ## What escapes mean -/

/-- Texts of three octets that write the octets of a list. -/
def Escapes (texts : List (List UInt8)) (octets : List UInt8) : Prop :=
  List.Forall₂ IsEscape texts octets

/-- The string with its escapes replaced: they write characters, of which those of the set stay
    escaped. -/
inductive Unescaped (reserved : List UInt8) : List UInt8 → List UInt8 → Prop
  | nil : Unescaped reserved [] []
  | plain {c : UInt8} {uri result : List UInt8} : c ≠ percentSign →
      Unescaped reserved uri result → Unescaped reserved (c :: uri) (c :: result)
  | char (ch : Char) {texts : List (List UInt8)} {uri result : List UInt8} :
      Escapes texts (String.utf8EncodeChar ch) → Unescaped reserved uri result →
      Unescaped reserved (texts.flatten ++ uri)
        ((if reserved.any (fun c => String.utf8EncodeChar ch = [c]) then texts.flatten
          else String.utf8EncodeChar ch) ++ result)

/-- `decode` does with a string what its escapes mean, or throws where they mean nothing. -/
def DecodesWell (uri reserved : List UInt8) : Prop :=
  (∃ result, Unescaped reserved uri result ∧ decode uri reserved = .returns result) ∨
    ((¬ ∃ result, Unescaped reserved uri result) ∧ decode uri reserved = .uriError)

/-- A string with a fault that `decode` notices, where `seq` octets of a character are to come: a
    percent sign at the very end, or an octet that is not escaped where the first octet of a
    character has announced more. -/
inductive Noticed : Nat → List UInt8 → Prop
  | lone (seq : Nat) : Noticed seq [percentSign]
  | cut {seq : Nat} {c : UInt8} (uri : List UInt8) : c ≠ percentSign → Noticed (seq + 1) (c :: uri)
  | plain {c : UInt8} {uri : List UInt8} : c ≠ percentSign → Noticed 0 uri → Noticed 0 (c :: uri)
  | escape {seq : Nat} {t uri : List UInt8} {b : UInt8} : IsEscape t b →
      Noticed (nextSeq seq b) uri → Noticed seq (t ++ uri)

/-- An octet that stands for itself, or an escape. -/
inductive Escaped (unescapedSet : List UInt8) : List UInt8 → Prop
  | nil : Escaped unescapedSet []
  | plain {c : UInt8} {uri : List UInt8} : isUnescaped c unescapedSet = true →
      Escaped unescapedSet uri → Escaped unescapedSet (c :: uri)
  | escape (b : UInt8) {uri : List UInt8} : Escaped unescapedSet uri →
      Escaped unescapedSet (Lib.escape b ++ uri)

/-- The two pairs of functions. -/
inductive UriFunctions where
  /-- `encodeURI` and `decodeURI` -/
  | uri
  /-- `encodeURIComponent` and `decodeURIComponent` -/
  | component
deriving DecidableEq, Repr

/-- The set that `encode` is called with (`global.cpp:580-587`). -/
def UriFunctions.unescapedSet : UriFunctions → List UInt8
  | .uri => reservedURISet ++ unescapedURIComponentSet ++ octetsOf "#"
  | .component => unescapedURIComponentSet

/-- The set that `decode` is called with (`global.cpp:576-583`). -/
def UriFunctions.reserved : UriFunctions → List UInt8
  | .uri => octetsOf "#" ++ reservedURISet
  | .component => []

/-- Encoding and decoding gives the text back, and what is between them is escaped. -/
def UriFunctions.RoundTrips (f : UriFunctions) (text : List Char) : Prop :=
  ∃ uri, encode (text.flatMap String.utf8EncodeChar) f.unescapedSet = some uri ∧
    decode uri f.reserved = .returns (text.flatMap String.utf8EncodeChar) ∧
    Escaped f.unescapedSet uri

end EsOs.Esjs
