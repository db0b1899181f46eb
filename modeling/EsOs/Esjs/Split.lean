import Mathlib
import EsOs.Esjs.Array
import EsOs.Lib.Iteration

/-!
# Splitting a string

`splitMatch` and `stringSplit` (`esjs/src/regexp.cpp:638-762`) and `ArrayMethod::join`
(`esjs/src/array.cpp:151-174`). A string is the list of its octets. Its offsets are `int`, so it is
shorter than 2^31.
-/

namespace EsOs.Esjs

open EsOs.Lib

/-- `pmatch`: where the match starts and ends, and the same for what each group has matched. -/
structure Match where
  so : Nat
  eo : Nat
  groups : List (Option (Nat × Nat))
deriving DecidableEq, Repr

/-- `s.substr(first, last - first)`. -/
def substr (s : List UInt8) (first last : Nat) : List UInt8 :=
  (s.drop first).take (last - first)

/-- `std::string::find`. -/
def find (r : List UInt8) : List UInt8 → Option Nat
  | [] => if r = [] then some 0 else none
  | c :: s => if r.isPrefixOf (c :: s) then some 0 else (find r s).map (· + 1)

/-- `splitMatch` for a separator that is a string (`regexp.cpp:641-652`). -/
def splitMatch (r s : List UInt8) (q : Nat) : Option Match :=
  (find r (s.drop q)).map fun pos => ⟨pos + q, pos + q + r.length, []⟩

/-- The variables of the loop of `stringSplit`. -/
structure SplitState where
  a : ArrayValue (List UInt8)
  length : Nat
  p : Nat
  q : Nat

/-- What a turn of the loop comes to. -/
inductive SplitTurn where
  | goes (state : SplitState)
  | ends
  | returns (a : ArrayValue (List UInt8))
  /-- `q` is computed from a null pointer -/
  | undefined

/-- The groups of a match become elements (`regexp.cpp:725-745`); the array is returned at the
    limit. -/
def splitGroups (s : List UInt8) (lim : Nat) :
    List (Option (Nat × Nat)) → ArrayValue (List UInt8) → Nat →
      ArrayValue (List UInt8) ⊕ ArrayValue (List UInt8) × Nat
  | [], a, length => .inr (a, length)
  | group :: groups, a, length =>
    let value : Value (List UInt8) := match group with
      | some (so, eo) => .of (substr s so eo)
      | none => .undefined
    let a := a.put length value
    if lim = length + 1 then .inl a else splitGroups s lim groups a (length + 1)

/-- A turn of the loop (`regexp.cpp:700-747`). `matcher` is `splitMatch` with the separator. -/
def splitTurn (matcher : List UInt8 → Nat → Option Match) (s : List UInt8) (lim : Nat)
    (state : SplitState) : SplitTurn :=
  if state.q < s.length then
    match matcher s state.q with
    | none => .ends
    | some m =>
      if m.eo = state.p then
        -- `q` moves to the next character.
        match Es.utf8to32 (s.drop state.q) with
        | none => .undefined
        | some (_, rest) => .goes { state with q := s.length - rest.length }
      else
        let a := state.a.put state.length (.of (substr s state.p m.so))
        if lim = state.length + 1 then .returns a
        else match splitGroups s lim m.groups a (state.length + 1) with
          | .inl a => .returns a
          | .inr (a, length) => .goes ⟨a, length, m.eo, m.eo⟩
  else .ends

/-- The state behind a turn that goes on. -/
def splitNext (matcher : List UInt8 → Nat → Option Match) (s : List UInt8) (lim : Nat)
    (state : SplitState) : Option SplitState :=
  match splitTurn matcher s lim state with
  | .goes state => some state
  | _ => none

/-- The state before the loop, with the prototype of the new array. -/
def splitStart (inherited : Nat → Option (Value (List UInt8))) : SplitState :=
  ⟨.new inherited, 0, 0, 0⟩

/-- `stringSplit` with a separator returns the array `a` (`regexp.cpp:655-762`). -/
def SplitReturns (inherited : Nat → Option (Value (List UInt8)))
    (matcher : List UInt8 → Nat → Option Match) (s : List UInt8) (lim : Nat)
    (a : ArrayValue (List UInt8)) : Prop :=
  if lim = 0 then a = .new inherited
  else if 0 < s.length then
    ∃ n state, iterated (splitNext matcher s lim) n (splitStart inherited) = some state ∧
      match splitTurn matcher s lim state with
      | .returns b => a = b
      | .ends => a = state.a.put state.length (.of (s.drop state.p))
      | _ => False
  else if (matcher s 0).isSome then a = .new inherited
  else a = (ArrayValue.new inherited).put 0 (.of s)

/-- The limit of a call without one (`regexp.cpp:662`). -/
def noLimit : Nat := 4294967295

/-- The loop of `ArrayMethod::join` (`array.cpp:160-173`), where `text` is `toString` of an element
    that is not `undefined`, or nothing for `null`. -/
def joinLoop {α : Type _} (text : α → Option (List UInt8)) (a : ArrayValue α)
    (separator : List UInt8) : Nat → List UInt8
  | 0 => []
  | i + 1 =>
    joinLoop text a separator i ++ (if 0 < i then separator else []) ++
      match a.getElement i with
      | .undefined => []
      | .of v => (text v).getD []

/-- `ArrayMethod::join` (`array.cpp:151-174`). -/
def join {α : Type _} (text : α → Option (List UInt8)) (a : ArrayValue α)
    (separator : Option (List UInt8)) : List UInt8 :=
  joinLoop text a (separator.getD (octetsOf ", ")) a.length

/-! ## What splitting is for -/

/-- A string in UTF-8 whose offsets are `int`. -/
structure Utf8String where
  text : List Char
  short : (text.flatMap String.utf8EncodeChar).length < 2 ^ 31

def Utf8String.octets (s : Utf8String) : List UInt8 := s.text.flatMap String.utf8EncodeChar

/-- The array is the string in pieces, which make the string again with the separator between them. -/
structure Pieces (s r : List UInt8) (a : ArrayValue (List UInt8)) : Prop where
  joins : join some a (some r) = s
  separated : r ≠ [] → ∀ i piece, a.own i = some (.of piece) → ¬ r <:+: piece
  characters : r = [] → ∀ i v, a.own i = some v → ∃ c, v = .of (String.utf8EncodeChar c)
  strings : ∀ i, i < a.length → ∃ piece, a.own i = some (.of piece)
  indices : ∀ i, (a.own i).isSome → i < a.length

/-- `split` returns the pieces of the string. -/
def SplitsWell (s : Utf8String) (r : List UInt8) : Prop :=
  ∀ inherited, ∃ a, SplitReturns inherited (splitMatch r) s.octets noLimit a ∧ Pieces s.octets r a

end EsOs.Esjs
