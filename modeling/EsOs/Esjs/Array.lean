import EsOs.Esjs.UriEscape

/-!
# Arrays

`ArrayValue` (`esjs/include/value.h:1390-1412`, `esjs/src/array.cpp`): the properties whose names are
array indices and `length`. A value is `undefined` or something else; a property that is absent reads
as `undefined`, but an array may also have an element that is `undefined`.
-/

namespace EsOs.Esjs

/-- A value: `undefined`, or what is called `α` here. -/
inductive Value (α : Type _) where
  | undefined
  | of (value : α)
deriving DecidableEq, Repr

def Value.isUndefined {α : Type _} : Value α → Bool
  | .undefined => true
  | .of _ => false

/-- An array: its own elements, those that its prototypes have, and its length. -/
structure ArrayValue (α : Type _) where
  own : Nat → Option (Value α)
  inherited : Nat → Option (Value α)
  length : Nat

namespace ArrayValue

variable {α : Type _}

/-- `new ArrayValue` (`value.h:1395-1402`). -/
def new (inherited : Nat → Option (Value α)) : ArrayValue α := ⟨fun _ => none, inherited, 0⟩

/-- The property that is found for an index, the prototypes included. -/
def found (a : ArrayValue α) (i : Nat) : Option (Value α) := (a.own i).or (a.inherited i)

/-- `getElement` (`array.cpp:27-33`, `value.h:1063-1083`). -/
def getElement (a : ArrayValue α) (i : Nat) : Value α := (a.found i).getD .undefined

/-- `hasElement` (`array.cpp:52-58`, `value.h:1156-1167`). -/
def hasElement (a : ArrayValue α) (i : Nat) : Bool := (a.found i).isSome

/-- `putElement` (`array.cpp:35-50`), which passes by `ArrayValue::put`. -/
def putElement (a : ArrayValue α) (i : Nat) (v : Value α) : ArrayValue α :=
  { a with own := fun j => if j = i then some v else a.own j }

/-- `removeElement` (`array.cpp:60-66`, `value.h:1182-1197`). -/
def removeElement (a : ArrayValue α) (i : Nat) : ArrayValue α :=
  { a with own := fun j => if j = i then none else a.own j }

/-- `setLength` (`array.cpp:73-88`), which passes by `ArrayValue::put` too. -/
def setLength (a : ArrayValue α) (len : Nat) : ArrayValue α := { a with length := len }

/-- `ArrayValue::put` for an index (`array.cpp:675-734`). -/
def put (a : ArrayValue α) (i : Nat) (v : Value α) : ArrayValue α :=
  if (a.own i).isSome then a.putElement i v
  else (if a.length ≤ i then a.setLength (i + 1) else a).putElement i v

end ArrayValue

end EsOs.Esjs
