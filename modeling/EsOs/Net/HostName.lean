import EsOs.Net.Resolver

/-!
# Host names and their form in a query

A host name is labels with a dot between them and perhaps one behind them. A question has the same
labels, each behind its length.
-/

namespace EsOs.Net.Resolver

open EsOs.Digits

/-- A label of a name that can be asked for. -/
structure IsLabel (l : List UInt8) : Prop where
  some : l ≠ []
  short : l.length ≤ labelMax
  undotted : dot ∉ l

/-- A label in a message, which may have any bytes. -/
def IsWireLabel (l : List UInt8) : Prop := l ≠ [] ∧ l.length ≤ labelMax

/-- The labels as `a` writes them, without the root. -/
def wire (ls : List (List UInt8)) : List UInt8 :=
  ls.flatMap fun l => UInt8.ofNat l.length :: l

/-- The name that is asked for: a name without a dot gets the suffix, if there is one. -/
def fullName (suffix hostName : List UInt8) : List UInt8 :=
  if dot ∉ hostName ∧ suffix ≠ [] then hostName ++ dot :: suffix else hostName

/-- A name without the dot that it ends in. -/
def undotted (name : List UInt8) : List UInt8 :=
  if name.getLast? = some dot then name.dropLast else name

/-- A name that no question can be made of: a label is empty or too long, or all of it is. -/
def Unfit (name : List UInt8) : Prop :=
  (∃ l ∈ name.splitOn dot, l = [] ∨ labelMax < l.length) ∨ nameMax < name.length + 2

/-- `a` accepts a name unless it is unfit, and the question that it writes is read as the name. `read`
    is what the name is to be read as. -/
structure NameRoundTrip (read : List UInt8 → List UInt8) (id : Nat)
    (suffix hostName : List UInt8) : Prop where
  decodes : ∀ query, a id suffix hostName = some query →
    CopyReturns query hdrSize (some (read (fullName suffix hostName)))
  lands : ∀ query, a id suffix hostName = some query →
    skipName query hdrSize = some (query.length - 4)
  short : ∀ query, a id suffix hostName = some query → query.length - 4 - hdrSize ≤ nameMax
  refuses : a id suffix hostName = none ↔ Unfit (undotted (fullName suffix hostName))

end EsOs.Net.Resolver

/-!
## Responses of a name server

A response is a header, the question of the query and the records of the answer, perhaps with more
behind them. Names in it may end in a pointer to another name.
-/

namespace EsOs.Net.Resolver

open EsOs.Digits

/-- A name as it stands in a message: labels, then the root or a pointer. -/
def IsName (bytes : List UInt8) : Prop :=
  ∃ ls tail, bytes = wire ls ++ tail ∧ (∀ l ∈ ls, IsWireLabel l) ∧
    (tail = [0] ∨ ∃ p q : UInt8, tail = [p, q] ∧ 192 ≤ p.toNat)

/-- The name at an offset of a message, with its pointers followed. -/
inductive NameAt (msg : List UInt8) : Nat → List (List UInt8) → Prop
  | root {ptr : Nat} {rest : List UInt8} : msg.drop ptr = 0 :: rest → NameAt msg ptr []
  | label {ptr : Nat} {l rest : List UInt8} {ls : List (List UInt8)} : IsWireLabel l →
      msg.drop ptr = UInt8.ofNat l.length :: l ++ rest → NameAt msg (ptr + 1 + l.length) ls →
      NameAt msg ptr (l :: ls)
  | pointer {ptr : Nat} {p q : UInt8} {rest : List UInt8} {ls : List (List UInt8)} :
      msg.drop ptr = p :: q :: rest → 192 ≤ p.toNat →
      NameAt msg ((p.toNat - 192) * 256 + q.toNat) ls → NameAt msg ptr ls

/-- The same for the names whose root stands behind a label. -/
inductive DirectNameAt (msg : List UInt8) : Nat → List (List UInt8) → Prop
  | last {ptr : Nat} {l rest : List UInt8} : IsWireLabel l →
      msg.drop ptr = UInt8.ofNat l.length :: l ++ 0 :: rest → DirectNameAt msg ptr [l]
  | label {ptr : Nat} {l rest : List UInt8} {ls : List (List UInt8)} : IsWireLabel l →
      msg.drop ptr = UInt8.ofNat l.length :: l ++ rest → DirectNameAt msg (ptr + 1 + l.length) ls →
      DirectNameAt msg ptr (l :: ls)
  | pointer {ptr : Nat} {p q : UInt8} {rest : List UInt8} {ls : List (List UInt8)} :
      msg.drop ptr = p :: q :: rest → 192 ≤ p.toNat →
      DirectNameAt msg ((p.toNat - 192) * 256 + q.toNat) ls → DirectNameAt msg ptr ls

/-- A resource record (`dns.h:157-186`). -/
structure Record where
  owner : List UInt8
  type : UInt16
  cls : UInt16
  ttl : UInt32
  rdata : List UInt8
deriving DecidableEq

/-- A `u16` as it is sent. -/
def bytes16 (n : Nat) : List UInt8 := [UInt8.ofNat (n / 256), UInt8.ofNat n]

namespace Record

/-- What stands in front of the data. -/
def head (rr : Record) : List UInt8 :=
  rr.owner ++ (bytes16 rr.type.toNat ++ (bytes16 rr.cls.toNat ++
    (bytes16 (rr.ttl.toNat / 65536) ++ (bytes16 rr.ttl.toNat ++ bytes16 rr.rdata.length))))

def encode (rr : Record) : List UInt8 := rr.head ++ rr.rdata

/-- An A record of class IN. -/
def IsAddress (rr : Record) : Prop := rr.type = 1 ∧ rr.cls = 1

/-- A PTR record of class IN. -/
def IsPointer (rr : Record) : Prop := rr.type = 12 ∧ rr.cls = 1

instance (rr : Record) : Decidable rr.IsAddress := inferInstanceAs (Decidable (_ ∧ _))
instance (rr : Record) : Decidable rr.IsPointer := inferInstanceAs (Decidable (_ ∧ _))

end Record

/-- A question: a name, a type and a class. -/
structure Question where
  labels : List (List UInt8)
  type : Nat
  cls : Nat

def Question.encode (q : Question) : List UInt8 :=
  wire q.labels ++ 0 :: (bytes16 q.type ++ bytes16 q.cls)

/-- A well-formed response to a query, with the records of its answer. -/
structure Response where
  id : UInt16
  /-- `flags`, and the counts of the other sections -/
  flags : UInt16
  nscount : UInt16
  arcount : UInt16
  question : Question
  answers : List Record
  /-- the other sections -/
  more : List UInt8
  isResponse : 0x8000 ≤ flags.toNat
  noError : flags.toNat % 16 = 0
  labels : ∀ l ∈ question.labels, IsWireLabel l
  count : answers.length < 65536
  owners : ∀ rr ∈ answers, IsName rr.owner
  lengths : ∀ rr ∈ answers, rr.rdata.length < 65536
  addresses : ∀ rr ∈ answers, rr.IsAddress → rr.rdata.length = 4

namespace Response

def hdr (r : Response) : List UInt8 :=
  bytes16 r.id.toNat ++ bytes16 r.flags.toNat ++ bytes16 1 ++ bytes16 r.answers.length ++
    bytes16 r.nscount.toNat ++ bytes16 r.arcount.toNat

def encode (r : Response) : List UInt8 :=
  r.hdr ++ (r.question.encode ++ (r.answers.flatMap Record.encode ++ r.more))

/-- The query that it answers. -/
def query (r : Response) : List UInt8 := queryHdr r.id.toNat ++ r.question.encode

/-- The offset of the data of a record, with the records in front of it. -/
def dataAt (r : Response) (front : List Record) (rr : Record) : Nat :=
  r.hdr.length + (r.question.encode.length + (front.flatMap Record.encode).length + rr.head.length)

end Response

/-- What `getHostName` makes of a response. -/
def GivesName (query msg : List UInt8) : Option (List UInt8) → Prop
  | some name => ∃ ptr, pointer query msg = .found ptr ∧ CopyReturns msg ptr (some name)
  | none => pointer query msg = .again ∨
      ∃ ptr, pointer query msg = .found ptr ∧ CopyReturns msg ptr none

/-- `resolve` returns the address of the first A record, and `getHostName` the name of the first PTR
    record. -/
structure SelectsFirst (r : Response) : Prop where
  address : resolve r.query r.encode =
    match r.answers.find? fun rr => rr.IsAddress with
    | some rr => .found rr.rdata
    | none => .again
  name : ∀ front rr back ls, r.answers = front ++ rr :: back → (∀ p ∈ front, ¬ p.IsPointer) →
    rr.IsPointer → NameAt r.encode (r.dataAt front rr) ls → (wire ls).length < nameMax →
    GivesName r.query r.encode (some (joined dot ls))
  noName : (∀ p ∈ r.answers, ¬ p.IsPointer) → GivesName r.query r.encode none

/-- The records that `getHostName` reads as they are: the first one is a PTR record with a name whose
    root stands behind a label, or there is not more than one record. -/
def FirstOrOnly (r : Response) : Prop :=
  ∀ rr back, r.answers = rr :: back →
    if rr.IsPointer then ∀ ls, NameAt r.encode (r.dataAt [] rr) ls →
      DirectNameAt r.encode (r.dataAt [] rr) ls
    else back = []

end EsOs.Net.Resolver

/-!
## What the parser of a response runs into

The names of a message as they are stepped over and copied, told by its bytes alone, and the offsets
at which the two loops over the answers look for a name.
-/

namespace EsOs.Net.Resolver

open EsOs.Lib

/-- The labels from an offset on end at another: behind the root or a pointer, or with the message. -/
inductive EndsAt (msg : List UInt8) : Nat → Nat → Prop
  | behind {ptr : Nat} : msg.length ≤ ptr → EndsAt msg ptr msg.length
  | root {ptr : Nat} : ptr < msg.length → (msg.getD ptr 0).toNat = 0 → EndsAt msg ptr (ptr + 1)
  | pointer {ptr : Nat} : ptr < msg.length → 192 ≤ (msg.getD ptr 0).toNat →
      EndsAt msg ptr (min (ptr + 2) msg.length)
  | label {ptr fin : Nat} : ptr < msg.length → 0 < (msg.getD ptr 0).toNat →
      (msg.getD ptr 0).toNat < 64 → EndsAt msg (ptr + (1 + (msg.getD ptr 0).toNat)) fin →
      EndsAt msg ptr fin

/-- The labels from an offset on come to one of a reserved type. -/
inductive Reserved (msg : List UInt8) : Nat → Prop
  | here {ptr : Nat} : ptr < msg.length → 64 ≤ (msg.getD ptr 0).toNat →
      (msg.getD ptr 0).toNat < 192 → Reserved msg ptr
  | label {ptr : Nat} : ptr < msg.length → 0 < (msg.getD ptr 0).toNat →
      (msg.getD ptr 0).toNat < 64 → Reserved msg (ptr + (1 + (msg.getD ptr 0).toNat)) →
      Reserved msg ptr

/-- A name can be copied with what is left of the 255 bytes: labels and pointers come to an end, both
    bytes of every pointer and the byte behind every label are there. -/
inductive Copyable (msg : List UInt8) : (namelen ptr : Nat) → Prop
  | behind {namelen ptr : Nat} : msg.length ≤ ptr → Copyable msg namelen ptr
  | reserved {namelen ptr : Nat} : ptr < msg.length → 64 ≤ (msg.getD ptr 0).toNat →
      (msg.getD ptr 0).toNat < 192 → Copyable msg namelen ptr
  | pointer {namelen ptr : Nat} : ptr + 1 < msg.length → 192 ≤ (msg.getD ptr 0).toNat →
      Copyable msg namelen (be16 msg ptr % 0x4000) → Copyable msg namelen ptr
  | cut {namelen ptr : Nat} : ptr < msg.length → (msg.getD ptr 0).toNat < 64 →
      msg.length ≤ ptr + (msg.getD ptr 0).toNat → Copyable msg namelen ptr
  | long {namelen ptr : Nat} : ptr < msg.length → (msg.getD ptr 0).toNat < 64 →
      namelen < (msg.getD ptr 0).toNat + 1 → Copyable msg namelen ptr
  | last {namelen ptr : Nat} : (msg.getD ptr 0).toNat < 64 →
      ptr + 1 + (msg.getD ptr 0).toNat < msg.length →
      msg.getD (ptr + 1 + (msg.getD ptr 0).toNat) 0 = 0 → Copyable msg namelen ptr
  | label {namelen ptr : Nat} : (msg.getD ptr 0).toNat < 64 →
      ptr + 1 + (msg.getD ptr 0).toNat < msg.length →
      Copyable msg (namelen - ((msg.getD ptr 0).toNat + 1)) (ptr + 1 + (msg.getD ptr 0).toNat) →
      Copyable msg namelen ptr

/-- The question of a response is that of the query, and ends at an offset. -/
structure SameQuestion (query msg : List UInt8) (opt : Nat) : Prop where
  ends : EndsAt msg hdrSize (opt - 4)
  four_le : 4 ≤ opt
  inside : opt ≤ msg.length
  inQuery : opt ≤ query.length
  same : (query.take opt).drop hdrSize = (msg.take opt).drop hdrSize

/-- The loop over the answers looks for a name at an offset, with so many answers left. `step` is how
    it goes on behind the name of a record: to the name of the next one, if it does. -/
inductive LooksAt (msg : List UInt8) (step : Nat → Option Nat) (count start : Nat) :
    Nat → Nat → Prop
  | start : LooksAt msg step count start count start
  | next {n opt fin next : Nat} : LooksAt msg step count start (n + 1) opt → EndsAt msg opt fin →
      step fin = some next → LooksAt msg step count start n next

/-- Where `resolve` goes on behind a name: it stays there without room for a record, and steps over a
    record that is no address. -/
def addressStep (msg : List UInt8) (opt : Nat) : Option Nat :=
  if msg.length - opt < rrSizeof then some opt
  else if msg.length < opt + rrSize + be16 msg (opt + 8) then none
  else if be16 msg opt ≠ 1 ∨ be16 msg (opt + 2) ≠ 1 ∨ be16 msg (opt + 8) ≠ 4 then
    some (opt + (rrSize + be16 msg (opt + 8)))
  else none

/-- Where `getHostName` goes on behind a name: it stays there unless a PTR record follows. -/
def pointerStep (msg : List UInt8) (opt : Nat) : Option Nat :=
  if msg.length - opt < rrSizeof ∨ be16 msg opt ≠ 12 ∨ be16 msg (opt + 2) ≠ 1 then some opt
  else none

/-- The responses whose question and answers are looked at. -/
def IsReply (query msg : List UInt8) : Prop :=
  hdrSize < msg.length ∧ be16 msg 0 = be16 query 0 ∧ be16 msg 2 / 0x8000 ≠ 0 ∧ be16 msg 4 = 1 ∧
    be16 msg 6 ≠ 0

/-- No name that is stepped over has a label of a reserved type, and the data of the PTR record that
    `getHostName` takes can be copied. -/
structure ReadableReply (query msg : List UInt8) : Prop where
  question : IsReply query msg → ¬ Reserved msg hdrSize
  address : IsReply query msg → be16 msg 2 % 16 = 0 → ∀ start n opt, SameQuestion query msg start →
    LooksAt msg (addressStep msg) (be16 msg 6) start (n + 1) opt → ¬ Reserved msg opt
  pointer : IsReply query msg → ∀ start n opt, SameQuestion query msg start →
    LooksAt msg (pointerStep msg) (be16 msg 6) start (n + 1) opt → ¬ Reserved msg opt
  data : IsReply query msg → ∀ start n opt fin, SameQuestion query msg start →
    LooksAt msg (pointerStep msg) (be16 msg 6) start (n + 1) opt → EndsAt msg opt fin →
    pointerStep msg fin = none → fin + rrSize + be16 msg (fin + 8) ≤ msg.length →
    Copyable msg nameMax (fin + rrSize)

/-- `resolve` and `getHostName` read nothing but the response, and `copyName` comes to an end. -/
structure ParsesSafely (query msg : List UInt8) : Prop where
  resolve : resolve query msg ≠ .outside
  pointer : pointer query msg ≠ .outside
  inside : ∀ ptr, Resolver.pointer query msg = .found ptr → ∀ n state,
    iterated (copyNext msg) n (copyStart ptr) = some state → copyTurn msg state ≠ .outside
  ends : ∀ ptr, Resolver.pointer query msg = .found ptr → Halts (copyNext msg) (copyStart ptr)

end EsOs.Net.Resolver
