import Mathlib
import EsOs.Kernel.Proofs.MapList

/-!
# What `unmap` leaves mapped

The abstract address space is a function from addresses to what they translate to. `unmap` of a
page aligned range is the removal of exactly this range from it unless the range ends strictly
inside a map: a map that reaches behind the range keeps its old file offset when its front is
trimmed, and loses the part behind the range when its middle is cut.
-/

namespace EsOs.Kernel

open EsOs.Lib

variable {P : Type _}

/-- What a mapped address stands for: the pageable object, the position in it, and the
    protection. -/
structure Translation (P : Type _) where
  pageable : Option P
  position : Int
  prot : Nat
  deriving DecidableEq, Repr

/-- An address space from outside: unmapped addresses translate to nothing. -/
abbrev AddressSpace (P : Type _) := Nat → Option (Translation P)

/-- The removal of exactly `[start, end_)`. -/
def AddressSpace.remove (space : AddressSpace P) (start end_ : Nat) : AddressSpace P :=
  fun addr => if start ≤ addr ∧ addr < end_ then none else space addr

namespace Process

end Process

end EsOs.Kernel
