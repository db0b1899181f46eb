import Mathlib.Data.Nat.Digits.Defs

/-!
# Formatted integers

The conversion of integers by `Formatter` (`es/formatter.h`, `libes++/src/formatter.cpp`), and the
text that `printf` shows for the same settings. An `int` that overflows and a store in front of the
buffer are told apart from results.
-/

namespace EsOs.Es

/-- What the conversion of an integer reads of a `Formatter` (`formatter.h:31-41`). `setBase` takes
    nothing but 2 to 36. -/
structure Formatter where
  filler : UInt8 := 32
  width : Int32 := 0
  precision : Int32 := -1
  leftJustified : Bool := false
  alt : Bool := false
  cap : Bool := false
  textMode : Bool := true
  sign : UInt8 := 0
  base : Nat := 10
  two_le_base : 2 ≤ base := by decide
  base_le : base ≤ 36 := by decide

/-- The argument of `print`: a `long` or an `unsigned long`, of so many bits. -/
inductive Argument (w : Nat)
  | signed (n : BitVec w)
  | unsigned (u : BitVec w)

namespace Formatter

/-- `'0'`, `' '`, `'-'` -/
def zero : UInt8 := 48
def blank : UInt8 := 32
def minus : UInt8 := 45

/-- `reset` (`formatter.h:182-195`). -/
def reset (f : Formatter) : Formatter := { textMode := f.textMode }

/-- `printChar` (`formatter.cpp:72-79`): the characters that are put. -/
def printChar (f : Formatter) (c : UInt8) : List UInt8 :=
  if c = 10 ∧ f.textMode then [13, c] else [c]

/-- The result of an operation on an `int`. -/
def int (x : Int) : Option Int :=
  if -0x80000000 ≤ x ∧ x < 0x80000000 then some x else none

/-- What has been put, and `count`. -/
structure Printed where
  out : List UInt8
  count : Int
deriving DecidableEq, Repr

/-- `count += printChar(c)` for the characters of a text. -/
def printText (f : Formatter) : (text : List UInt8) → Printed → Option Printed
  | [], p => some p
  | c :: text, p => (int (p.count + 1)).bind fun count =>
    printText f text ⟨p.out ++ f.printChar c, count⟩

/-- `count += fillBlank(n, c)` (`formatter.cpp:81-91`). -/
def fillBlank (f : Formatter) (n : Int) (c : UInt8) (p : Printed) : Option Printed :=
  (int (p.count + n.toNat)).map fun count =>
    ⟨p.out ++ (List.replicate n.toNat c).flatMap f.printChar, count⟩

/-- The digit that is shown for a value (`formatter.cpp:179-182`). -/
def digitChar (cap : Bool) (d : Nat) : UInt8 :=
  if d < 10 then UInt8.ofNat (48 + d)
  else if cap then UInt8.ofNat (65 + (d - 10))
  else UInt8.ofNat (97 + (d - 10))

/-- `BUFSIZE` -/
def BUFSIZE : Nat := 32

/-- The loop over the digits (`formatter.cpp:177-184`), with so much room left in front of `p`. -/
def digitLoop (base : Nat) (cap : Bool) : (room : Nat) → (u : Nat) → (p : List UInt8) →
    Option (List UInt8)
  | 0, _, _ => none
  | room + 1, u, p =>
    let p := digitChar cap (u % base) :: p
    if u / base ≠ 0 then digitLoop base cap room (u / base) p else some p

/-- The prefix (`formatter.cpp:165-175`). -/
def basePrefix (f : Formatter) (u : Nat) : List UInt8 :=
  if u ≠ 0 ∧ f.alt then
    if f.base = 8 then [zero]
    else if f.base = 16 then [zero, if f.cap then 88 else 120]
    else []
  else []

/-- What is left of `width` (`formatter.cpp:160-163, 186-199`), and the number of zeros behind the
    prefix. `strlen` makes the subtraction of the length of the prefix an unsigned one. -/
def remaining (f : Formatter) (basePrefix : List UInt8) (n : Nat) : Option (Int × Int) := do
  let precision := if f.precision.toInt ≤ 0 then 1 else f.precision.toInt
  let width ← int (f.width.toInt - n)
  let width ← (if f.sign ≠ 0 then int (width - 1) else some width)
  let width := if basePrefix ≠ [] then Int.bmod (width - basePrefix.length) 0x100000000 else width
  let n : Int := precision - n
  let width ← (if 0 < n then int (width - n) else some width)
  return (width, n)

/-- What is put (`formatter.cpp:201-235`). -/
def putInteger (f : Formatter) (basePrefix p : List UInt8) (width n : Int) : Option Printed := do
  let printed : Printed := ⟨[], 0⟩
  let printed ← (if f.filler ≠ zero ∧ f.leftJustified = false then
    f.fillBlank width f.filler printed else some printed)
  let printed ← (if f.sign ≠ 0 then f.printText [f.sign] printed else some printed)
  let printed ← f.printText basePrefix printed
  let printed ← f.fillBlank n zero printed
  let printed ← (if f.filler = zero then f.fillBlank width zero printed else some printed)
  let printed ← f.printText p printed
  if f.filler ≠ zero ∧ f.leftJustified then f.fillBlank width f.filler printed else some printed

/-- `printInteger` (`formatter.cpp:149-236`) of a number that is not negative. -/
def printInteger (f : Formatter) (u : Nat) : Option Printed := do
  let basePrefix := f.basePrefix u
  let p ← digitLoop f.base f.cap BUFSIZE u []
  let (width, n) ← f.remaining basePrefix p.length
  f.putInteger basePrefix p width n

/-- `printSigned` (`formatter.cpp:127-140`). The negation of the least number overflows. -/
def printSigned (f : Formatter) (n : BitVec w) : Option Printed :=
  if 0 ≤ n.toInt then f.printInteger n.toInt.toNat
  else if n.toInt = -2 ^ (w - 1) then none
  else { f with sign := minus }.printInteger (-n.toInt).toNat

/-- `printUnsigned` (`formatter.cpp:142-147`). -/
def printUnsigned (f : Formatter) (u : BitVec w) : Option Printed :=
  f.printInteger u.toNat

/-- `print` (`formatter.cpp:238-268`): what is put, the result and the settings behind it. -/
def print (f : Formatter) : Argument w → Option (Printed × Formatter)
  | .signed n => (f.printSigned n).map fun printed => (printed, f.reset)
  | .unsigned u => (f.printUnsigned u).map fun printed => (printed, f.reset)

/-! ## The text of `printf` -/

/-- The sign that is shown. -/
def signText (f : Formatter) (negative : Bool) : List UInt8 :=
  if negative then [minus] else if f.sign ≠ 0 then [f.sign] else []

/-- The digits of a number in the base; none for zero. -/
def digits (f : Formatter) (u : Nat) : List UInt8 :=
  (Nat.digits f.base u).reverse.map (digitChar f.cap)

/-- At least as many digits as the precision asks for, which is 1 if it is not given. The alternate
    form of base 8 begins with a zero. -/
def numberText (f : Formatter) (u : Nat) : List UInt8 :=
  let least := if f.precision.toInt < 0 then 1 else f.precision.toInt.toNat
  let text := List.replicate (least - (f.digits u).length) zero ++ f.digits u
  if f.alt ∧ f.base = 8 ∧ text.head? ≠ some zero then zero :: text else text

/-- The prefix of the alternate form of base 16. -/
def hexPrefix (f : Formatter) (u : Nat) : List UInt8 :=
  if f.alt ∧ f.base = 16 ∧ u ≠ 0 then [zero, if f.cap then 88 else 120] else []

/-- The text before it is padded. -/
def unpadded (f : Formatter) (negative : Bool) (u : Nat) : List UInt8 :=
  f.signText negative ++ f.hexPrefix u ++ f.numberText u

/-- The zeros that pad a number stand behind its prefix; they are given up for a text on the left and
    for a precision. -/
def PadsZeros (f : Formatter) : Prop :=
  f.filler = zero ∧ f.leftJustified = false ∧ f.precision.toInt < 0

instance (f : Formatter) : Decidable f.PadsZeros := by
  unfold PadsZeros
  infer_instance

/-- The rendering of a sign and an absolute value. -/
def rendering (f : Formatter) (negative : Bool) (u : Nat) : List UInt8 :=
  let text := f.unpadded negative u
  let pad := f.width.toInt.toNat - text.length
  if f.PadsZeros then
    f.signText negative ++ f.hexPrefix u ++ List.replicate pad zero ++ f.numberText u
  else
    let c := if f.filler = zero then blank else f.filler
    if f.leftJustified then text ++ List.replicate pad c else List.replicate pad c ++ text

end Formatter

namespace Argument

/-- The sign of the argument. -/
def negative : Argument w → Bool
  | .signed n => n.toInt < 0
  | .unsigned _ => false

/-- Its absolute value. -/
def magnitude : Argument w → Nat
  | .signed n => n.toInt.natAbs
  | .unsigned u => u.toNat

end Argument

namespace Formatter

/-- `print` puts the rendering and returns its length. -/
def PrintsRendering (f : Formatter) (v : Argument w) : Prop :=
  (f.print v).map (·.1) =
    some ⟨(f.rendering v.negative v.magnitude).flatMap f.printChar,
      (f.rendering v.negative v.magnitude).length⟩

/-- The arguments and settings that are rendered. -/
structure Renders (f : Formatter) (v : Argument w) : Prop where
  /-- Not the least number. -/
  negates : ∀ n, v = .signed n → n.toInt < 0 → n.toInt ≠ -2 ^ (w - 1)
  /-- The digits fit in the buffer. -/
  digits : v.magnitude < f.base ^ BUFSIZE
  /-- A zero without a precision of zero, unless in the alternate form of base 8. -/
  shown : v.magnitude = 0 → f.precision.toInt = 0 → f.alt ∧ f.base = 8
  /-- The zero of the alternate form of base 8 is not one that the precision adds. -/
  octal : v.magnitude ≠ 0 → f.alt → f.base = 8 → f.precision.toInt ≤ (f.digits v.magnitude).length
  /-- There is nothing to pad where zeros are given up. -/
  zeros : f.filler = zero → ¬ f.PadsZeros →
    f.width.toInt ≤ (f.unpadded v.negative v.magnitude).length
  /-- No `int` overflows. -/
  short : (f.unpadded v.negative v.magnitude).length < 0x80000000
  width : (f.unpadded v.negative v.magnitude).length - 0x80000000 ≤ f.width.toInt

end Formatter

end EsOs.Es
