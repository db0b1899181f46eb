import EsOs.Lib.Digits
import EsOs.Lib.Iteration

/-!
# The resolver

The queries that `Resolver::Control` writes and what it reads of the responses
(`os/net/src/resolver.cpp`, `include/es/net/dns.h`). A pointer into a message is its offset, and the
message is the list of the bytes that were received. Reads behind them and uses of a null pointer are
told apart from results.
-/

namespace EsOs.Net.Resolver

open EsOs.Lib

/-- `DNSHdr::LabelMax` (`dns.h:39`). -/
def labelMax : Nat := 63

/-- `DNSHdr::NameMax` (`dns.h:40`). -/
def nameMax : Nat := 255

/-- `sizeof(DNSHdr)`. -/
def hdrSize : Nat := 12

/-- `'.'` -/
def dot : UInt8 := 46

/-- The big-endian number at an offset. -/
def be16 (msg : List UInt8) (i : Nat) : Nat :=
  (msg.getD i 0).toNat * 256 + (msg.getD (i + 1) 0).toNat

/-! ## Queries -/

/-- The inner loop of `a` (`resolver.cpp:41-48`) from the `i`-th byte of a label on: what is written,
    and what is left of the string. `opt` counts from the start of the name. -/
def label : (hostName : List UInt8) → (i opt : Nat) → Option (List UInt8 × List UInt8)
  | [], _, _ => some ([], [])
  | c :: hostName, i, opt =>
    if c = dot then some ([], c :: hostName)
    else if labelMax ≤ i ∨ nameMax - 1 ≤ opt then none
    else (label hostName (i + 1) (opt + 1)).map fun (bytes, rest) => (c :: bytes, rest)

theorem label_eq_some {hostName : List UInt8} : ∀ {i opt : Nat} {bytes rest : List UInt8},
    label hostName i opt = some (bytes, rest) → hostName = bytes ++ rest := by
  induction hostName with
  | nil =>
    intro i opt bytes rest h
    cases h
    rfl
  | cons c hostName ih =>
    intro i opt bytes rest h
    rw [label] at h
    split at h
    · cases h
      rfl
    · split at h
      · cases h
      · obtain ⟨⟨bytes', rest'⟩, hlabel, heq⟩ := Option.map_eq_some_iff.mp h
        cases heq
        rw [ih hlabel, List.cons_append]

/-- The loop of `a` over the labels (`resolver.cpp:36-63`), which goes on to the suffix when there
    has been no dot. -/
def names (suffix : List UInt8) : (hostName : List UInt8) → (dotted : Bool) → (opt : Nat) →
    Option (List UInt8)
  | [], _, _ => some []
  | c :: hostName, dotted, opt =>
    match h : label (c :: hostName) 0 (opt + 1) with
    | none => none
    | some ([], _) => none
    | some (b :: bytes, rest) =>
      let written := UInt8.ofNat (b :: bytes).length :: b :: bytes
      match rest with
      | _ :: rest => (names suffix rest true (opt + written.length)).map (written ++ ·)
      | [] =>
        if dotted = false ∧ suffix ≠ [] then
          (names suffix suffix true (opt + written.length)).map (written ++ ·)
        else some written
termination_by hostName dotted => (if dotted then 0 else 1, hostName.length)
decreasing_by
  · have := congrArg List.length (label_eq_some h)
    simp only [List.length_append, List.length_cons] at this
    cases dotted <;> simp [Prod.lex_def] <;> omega
  · simp_all [Prod.lex_def]

/-- `DNSHdr::RD` and the counts of a query (`resolver.cpp:24-29`), behind the identifier. -/
def queryHdr (id : Nat) : List UInt8 :=
  [UInt8.ofNat (id / 256), UInt8.ofNat id, 1, 0, 0, 1, 0, 0, 0, 0, 0, 0]

/-- `a` (`resolver.cpp:20-76`): the query for the address of a name. -/
def a (id : Nat) (suffix hostName : List UInt8) : Option (List UInt8) :=
  match names suffix hostName false 0 with
  | none => none
  | some [] => none
  | some name => some (queryHdr id ++ (name ++ [0]) ++ [0, 1, 0, 1])

/-! ## Names in a message -/

/-- `skipName` (`resolver.cpp:198-222`): the offset behind a name; `none` is the null pointer. -/
def skipName (msg : List UInt8) (ptr : Nat) : Option Nat :=
  if ptr < msg.length then
    let count := (msg.getD ptr 0).toNat
    if count = 0 then some (ptr + 1)
    else if count &&& 0xc0 ≠ 0 then
      if count &&& 0xc0 ≠ 0xc0 then none else some (min (ptr + 2) msg.length)
    else skipName msg (ptr + (1 + count))
  else some msg.length
termination_by msg.length - ptr

/-- The variables of the loop of `copyName`. -/
structure CopyState where
  ptr : Nat
  namelen : Nat
  name : List UInt8
deriving DecidableEq, Repr

/-- What a turn of the loop comes to. -/
inductive CopyTurn
  | goes (state : CopyState)
  /-- `copyName` returns, with the name that it has copied or without. -/
  | returns (name : Option (List UInt8))
  /-- A byte is read behind the message. -/
  | outside
deriving DecidableEq, Repr

/-- A turn of the loop of `copyName` (`resolver.cpp:227-262`). -/
def copyTurn (msg : List UInt8) (state : CopyState) : CopyTurn :=
  if state.ptr < msg.length then
    let count := (msg.getD state.ptr 0).toNat
    if count &&& 0xc0 ≠ 0 then
      if count &&& 0xc0 ≠ 0xc0 then .returns none
      else if msg.length ≤ state.ptr + 1 then .outside
      else .goes { state with ptr := be16 msg state.ptr % 0x4000 }
    else if msg.length ≤ state.ptr + count then .returns none
    else if state.namelen < count + 1 then .returns none
    else
      let name := state.name ++ (msg.drop (state.ptr + 1)).take count
      let ptr := state.ptr + 1 + count
      if msg.length ≤ ptr then .outside
      else if msg.getD ptr 0 ≠ 0 then .goes ⟨ptr, state.namelen - (count + 1), name ++ [dot]⟩
      else .returns (some name)
  else .returns none

/-- The state behind a turn that goes on. -/
def copyNext (msg : List UInt8) (state : CopyState) : Option CopyState :=
  match copyTurn msg state with
  | .goes state => some state
  | _ => none

/-- The state before the loop. -/
def copyStart (ptr : Nat) : CopyState := ⟨ptr, nameMax, []⟩

/-- `copyName` returns (`resolver.cpp:224-263`). -/
def CopyReturns (msg : List UInt8) (ptr : Nat) (name : Option (List UInt8)) : Prop :=
  ∃ n last, iterated (copyNext msg) n (copyStart ptr) = some last ∧ copyTurn msg last = .returns name

/-! ## Responses -/

/-- What the parser of a response comes to. -/
inductive Parsed (α : Type)
  /-- The call returns with this. -/
  | found (value : α)
  /-- The call returns with nothing. -/
  | fails
  /-- The query is sent again, if it has not been sent often enough. -/
  | again
  /-- A byte is read that was not received, or a null pointer is used. -/
  | outside
deriving DecidableEq, Repr

/-- What follows the question of a response whose question is that of the query
    (`resolver.cpp:154-169`). -/
def question (query msg : List UInt8) : Parsed Nat :=
  match skipName msg hdrSize with
  | none => .outside
  | some opt =>
    if msg.length < opt + 4 then .again
    else if query.length < opt + 4 ∨
        (query.take (opt + 4)).drop hdrSize ≠ (msg.take (opt + 4)).drop hdrSize then .again
    else .found (opt + 4)

/-- `DNSRR::Size` and `sizeof(DNSRR)` (`dns.h:178-186`), which has two bytes of padding. -/
def rrSize : Nat := 10
def rrSizeof : Nat := 12

/-- The loop of `resolve` over the answers (`resolver.cpp:171-193`): the four bytes of the address. -/
def addressLoop (msg : List UInt8) : (ancount : Nat) → (opt : Nat) → Parsed (List UInt8)
  | 0, _ => .again
  | ancount + 1, opt =>
    match skipName msg opt with
    | none => .outside
    | some opt =>
      if msg.length - opt < rrSizeof then addressLoop msg ancount opt
      else
        let type := be16 msg opt
        let cls := be16 msg (opt + 2)
        let rdlength := be16 msg (opt + 8)
        if msg.length < opt + rrSize + rdlength then .again
        else if type ≠ 1 ∨ cls ≠ 1 ∨ rdlength ≠ 4 then
          addressLoop msg ancount (opt + (rrSize + rdlength))
        else .found ((msg.drop (opt + rrSize)).take 4)

/-- The parser of `resolve` (`resolver.cpp:130-193`) for one response. -/
def resolve (query msg : List UInt8) : Parsed (List UInt8) :=
  if msg.length ≤ hdrSize then .again
  else if be16 msg 0 ≠ be16 query 0 ∨ be16 msg 2 / 0x8000 = 0 ∨ be16 msg 4 ≠ 1 then .again
  else if be16 msg 2 % 16 ≠ 0 then .fails
  else if be16 msg 6 = 0 then .again
  else
    match question query msg with
    | .found opt => addressLoop msg (be16 msg 6) opt
    | .fails => .fails
    | .again => .again
    | .outside => .outside

/-- The loop of `getHostName` over the answers (`resolver.cpp:385-411`): where `copyName` is called. -/
def pointerLoop (msg : List UInt8) : (ancount : Nat) → (opt : Nat) → Parsed Nat
  | 0, _ => .again
  | ancount + 1, opt =>
    match skipName msg opt with
    | none => .outside
    | some opt =>
      if msg.length - opt < rrSizeof then pointerLoop msg ancount opt
      else if be16 msg opt ≠ 12 ∨ be16 msg (opt + 2) ≠ 1 then pointerLoop msg ancount opt
      else if msg.length < opt + rrSize + be16 msg (opt + 8) then .again
      else .found (opt + rrSize)

/-- The parser of `getHostName` (`resolver.cpp:352-408`) for one response, up to `copyName`. -/
def pointer (query msg : List UInt8) : Parsed Nat :=
  if msg.length ≤ hdrSize then .again
  else if be16 msg 0 ≠ be16 query 0 ∨ be16 msg 2 / 0x8000 = 0 ∨ be16 msg 4 ≠ 1 ∨ be16 msg 6 = 0 then
    .again
  else
    match question query msg with
    | .found opt => pointerLoop msg (be16 msg 6) opt
    | .fails => .fails
    | .again => .again
    | .outside => .outside

end EsOs.Net.Resolver
