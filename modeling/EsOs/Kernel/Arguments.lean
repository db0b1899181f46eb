import EsOs.Kernel.Mmu

/-!
# The arguments of a system call

How `Process::systemCall` (`os/kernel/port/syscall.cpp:230-504`) copies the parameters of a call from
the memory of the process, which of them it checks, and what the method of the kernel finds on its
stack.

Memory is a map from addresses to words. Which objects the tables know is an input, as are the words
that stand for an argument that was never set: `apply` pushes the address of that argument.
-/

namespace EsOs.Kernel

/-- The types of `Reflect` (`esidl/include/reflect.h:76-97`). A size of 0 stands for none. -/
inductive ReflectType where
  | void
  | boolean
  | byte
  | octet
  | short
  | unsignedShort
  | long
  | unsignedLong
  | longLong
  | unsignedLongLong
  | float
  | double
  | string
  | any
  | object
  | pointer
  | sequence (type : ReflectType) (max : Nat)
  | array (type : ReflectType) (rank : Nat)
deriving DecidableEq, Repr

namespace ReflectType

/-- `Reflect::Type::getSize` (`esidl/include/reflect.h:387-429`), in 32 bits. -/
def getSize : ReflectType → Int
  | boolean | byte | octet => 1
  | short | unsignedShort => 2
  | long | unsignedLong | float | object | pointer => 4
  | longLong | unsignedLongLong | double => 8
  | array type rank => toLong (getSize type * rank)
  | sequence type max => toLong (getSize type * max)
  | void | string | any => 0

/-- The number of bytes of an element that a method reads or writes through a pointer. -/
def width : ReflectType → Nat
  | boolean | byte | octet => 1
  | short | unsignedShort => 2
  | long | unsignedLong | float | object | pointer | string => 4
  | longLong | unsignedLongLong | double => 8
  | any => 12
  | array type rank => width type * rank
  | sequence type max => width type * max
  | void => 0

/-- `stackBytes` of `systemCall` (`syscall.cpp:306-323`). -/
def stackBytes : ReflectType → Int
  | longLong | unsignedLongLong | double | sequence _ _ => 8
  | any => 12
  | _ => 4

end ReflectType

/-- `Process::isValid` (`os/kernel/include/process.h:271-279`). -/
def isValid (start : Nat) (length : Int) : Bool :=
  let end_ := addPtr start length
  !(decide (start < USER_MIN) || decide (USER_MAX < end_) || decide (end_ < start))

/-- What a call finds: the memory of the process, the pointer that is passed for an interface
    pointer, or nothing when it is refused, and the address of an argument that was not set. -/
structure CallEnv where
  memory : Nat → Nat
  object : Nat → Option Nat
  unset : Nat

namespace CallEnv

/-- The check of a pointer and its length (`syscall.cpp:491-495`). -/
def checked {α : Type _} (ptr : Nat) (count : Int) (r : α) : Option α :=
  if ptr ≠ 0 ∧ isValid ptr count = false then none else some r

/-- `Any::TypeString` and `Any::TypeObject` (`include/es/any.h:54-69`). -/
def TypeString : Nat := 11

def TypeObject : Nat := 12

/-- A parameter of type `any` (`syscall.cpp:333-373`). -/
def anyParam (e : CallEnv) (paramp : Nat) : Option (List Nat × Nat) :=
  let value := e.memory paramp
  let type := e.memory (paramp + 8)
  let words := fun value => [value, e.memory (paramp + 4), type % 2147483648 + 2147483648]
  if type % 2147483648 = TypeString then checked value 1 (words value, paramp + 12)
  else if type % 2147483648 = TypeObject then
    if value = 0 then some (words 0, paramp + 12)
    else (e.object value).map fun object => (words object, paramp + 12)
  else some (words value, paramp + 12)

/-- One parameter (`syscall.cpp:293-503`): the words that `apply` pushes for it, and where the next
    one is. -/
def param (e : CallEnv) (type : ReflectType) (paramp : Nat) : Option (List Nat × Nat) :=
  if isValid paramp type.stackBytes = false then none
  else
    let ptr := e.memory paramp
    match type with
    | .any => e.anyParam paramp
    | .boolean => some ([if ptr = 0 then 0 else 1], paramp + 4)
    | .octet => some ([ptr % 256], paramp + 4)
    | .short | .unsignedShort => some ([ptr % 65536], paramp + 4)
    | .pointer | .long | .unsignedLong | .float => some ([ptr], paramp + 4)
    | .longLong | .unsignedLongLong | .double =>
        some ([ptr, e.memory (paramp + 4)], paramp + 8)
    | .string => checked ptr 1 ([ptr], paramp + 4)
    | .sequence elem _ =>
        if type.getSize = 0 then
          let len := e.memory (paramp + 4)
          checked ptr (toLong (toLong len * elem.getSize)) ([ptr, len], paramp + 8)
        -- the second of the two arguments is not set
        else checked ptr type.getSize ([ptr, e.unset], paramp + 4)
    | .array _ _ => checked ptr type.getSize ([ptr], paramp + 4)
    | .object =>
        if ptr = 0 then some ([0], paramp + 4)
        else (e.object ptr).map fun object => ([object], paramp + 4)
    | .byte | .void => some ([e.unset], paramp)

def params (e : CallEnv) : List ReflectType → Nat → Option (List Nat)
  | [], _ => some []
  | type :: types, paramp =>
      match e.param type paramp with
      | none => none
      | some (words, paramp) => (e.params types paramp).map (words ++ ·)

/-- The buffer for the result (`syscall.cpp:243-291`). -/
def returnParam (e : CallEnv) (type : ReflectType) (paramp : Nat) : Option (List Nat × Nat) :=
  match type with
  | .any | .string =>
      if isValid paramp 4 = false ∨ isValid (paramp + 4) 4 = false then none
      else
        let len := e.memory (paramp + 4)
        checked (e.memory paramp) (toLong len) ([e.memory paramp, len], paramp + 8)
  | .sequence elem _ =>
      if isValid paramp 4 = false then none
      else if type.getSize = 0 then
        if isValid (paramp + 4) 4 = false then none
        else
          let len := e.memory (paramp + 4)
          checked (e.memory paramp) (toLong (toLong len * elem.getSize))
            ([e.memory paramp, len], paramp + 8)
      else checked (e.memory paramp) type.getSize ([e.memory paramp], paramp + 4)
  | .array _ _ =>
      if isValid paramp 4 = false then none
      else checked (e.memory paramp) type.getSize ([e.memory paramp], paramp + 4)
  | _ => some ([], paramp)

/-- The words on the stack of the method behind its object, when `systemCall` goes on to invoke it. -/
def arguments (e : CallEnv) (result : ReflectType) (types : List ReflectType) (paramp : Nat) :
    Option (List Nat) :=
  match e.returnParam result paramp with
  | none => none
  | some (words, paramp) => (e.params types paramp).map (words ++ ·)

end CallEnv

/-- A pointer argument of a method with the number and the type of the elements behind it. -/
structure Buffer where
  ptr : Nat
  count : Int
  elem : ReflectType

namespace Buffer

/-- A null pointer, or a range inside of the memory of the process. -/
def InRange (b : Buffer) : Prop :=
  b.ptr = 0 ∨ (0 ≤ b.count ∧ USER_MIN ≤ b.ptr ∧ b.ptr + b.count * b.elem.width ≤ USER_MAX)

end Buffer

/-- The words that a method takes from its stack for a parameter: the buffer that they make, and
    what is behind them. -/
def calleeParam (type : ReflectType) (words : List Nat) : List Buffer × List Nat :=
  match type, words with
  | .sequence elem 0, ptr :: len :: words => ([⟨ptr, toLong len, elem⟩], words)
  | .sequence elem max, ptr :: words => ([⟨ptr, max, elem⟩], words)
  | .array elem rank, ptr :: words => ([⟨ptr, rank, elem⟩], words)
  | .longLong, words | .unsignedLongLong, words | .double, words => ([], words.drop 2)
  | .any, words => ([], words.drop 3)
  | _, words => ([], words.drop 1)

/-- The buffers that a method finds on its stack, by the types of its parameters. -/
def calleeParams : List ReflectType → List Nat → List Buffer
  | [], _ => []
  | type :: types, words =>
      (calleeParam type words).1 ++ calleeParams types (calleeParam type words).2

/-- The same for the buffer for the result. -/
def calleeResult (result : ReflectType) (words : List Nat) : List Buffer × List Nat :=
  match result, words with
  | .any, ptr :: len :: words | .string, ptr :: len :: words =>
      ([⟨ptr, toLong len, .octet⟩], words)
  | .sequence elem max, words => calleeParam (.sequence elem max) words
  | .array elem rank, words => calleeParam (.array elem rank) words
  | _, words => ([], words)

/-- All the buffers of a method; the one for the result comes first. -/
def calleeBuffers (result : ReflectType) (types : List ReflectType) (words : List Nat) :
    List Buffer :=
  (calleeResult result words).1 ++ calleeParams types (calleeResult result words).2

namespace ReflectType

/-- The parameter is a sequence or an array. -/
def isBuffer : ReflectType → Bool
  | sequence _ _ | array _ _ => true
  | _ => false

/-- A sequence of a fixed length, for which two arguments are made where the method has one. -/
def isFixed : ReflectType → Bool
  | sequence _ max => max ≠ 0
  | _ => false

/-- No sequence of a fixed length comes before another buffer. -/
def Aligned : List ReflectType → Prop
  | [] => True
  | type :: types => (type.isFixed = true → ∀ t ∈ types, t.isBuffer = false) ∧ Aligned types

end ReflectType

end EsOs.Kernel
