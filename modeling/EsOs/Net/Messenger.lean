/-!
# Messengers

The bytes that pass between the conduits (`os/net/include/conduit.h`), and the sum of the internet
checksums. The machine is little-endian. Signed sums that overflow and reads outside the bytes of a
messenger have no result.
-/

namespace EsOs.Net

/-- Why a computation has no result. -/
inductive Fault
  /-- A `s32` sum is beyond `0x7fffffff`. -/
  | overflow
  /-- A read through the null pointer of `fix`. -/
  | outside
deriving DecidableEq, Repr

/-- An `InAddr`, whose first byte in memory is the lowest. -/
abbrev InAddr := BitVec 32

/-- What the protocols use of an `InetMessenger` (`conduit.h:40-50`, `inet.h:49-61`). -/
structure InetMessenger where
  chunk : List UInt8
  position : Nat
  saved : Nat
  scopeID : Nat
  localAddr : InAddr
  remoteAddr : InAddr
  localPort : Nat
  remotePort : Nat
  type : Nat
deriving DecidableEq

/-- The `u16` at an index, as the machine loads it. -/
def get16 (bytes : List UInt8) (i : Nat) : Nat :=
  (bytes.getD i 0).toNat + (bytes.getD (i + 1) 0).toNat * 256

/-- Stores a `u16` at an index. -/
def set16 (bytes : List UInt8) (i v : Nat) : List UInt8 :=
  (bytes.set i (UInt8.ofNat v)).set (i + 1) (UInt8.ofNat (v / 256))

/-- `htons` and `ntohs` (`endian.h:178-196`). -/
def ntohs (v : Nat) : Nat := v % 256 * 256 + v / 256 % 256

/-- A sum of two values of a `s32` that are not negative. -/
def addS32 (a b : Nat) : Except Fault Nat :=
  if a + b < 2147483648 then .ok (a + b) else .error .overflow

/-- `while (sum >> 16)` of the checksums (`tcp.cpp:34-37`, `udp.cpp:37-40`, `inet4.cpp:430-433`). -/
def foldSum : (turns : Nat) → (sum : Nat) → Nat
  | 0, sum => sum
  | turns + 1, sum =>
      if sum >>> 16 = 0 then sum else foldSum turns ((sum &&& 0xffff) + (sum >>> 16))

/-- The end of a checksum: `~sum` as a `s16`. The loop over a `s32` takes three turns at most. -/
def complement (sum : Nat) : BitVec 16 := ~~~ BitVec.ofNat 16 (foldSum 3 sum)

/-- `Inet4Address::sumUp` (`inet4address.h:230-233`). -/
def InAddr.sumUp (addr : InAddr) : Nat := (addr.toNat >>> 16) + (addr.toNat &&& 0xffff)

namespace InetMessenger

/-- `Messenger::getLength` (`conduit.h:148-152`). -/
def getLength (m : InetMessenger) : Nat := m.chunk.length - m.position

/-- The bytes from the position on. -/
def bytes (m : InetMessenger) : List UInt8 := m.chunk.drop m.position

/-- `Messenger::fix` (`conduit.h:195-207`): the bytes that may be used through the pointer. -/
def fix (m : InetMessenger) (count : Nat) : Option (List UInt8) :=
  if m.chunk.length ≤ m.position ∨ count = 0 ∨ m.chunk.length < m.position + count then none
  else some (m.bytes.take count)

/-- `Messenger::movePosition` (`conduit.h:122-137`). -/
def movePosition (m : InetMessenger) (delta : Int) : InetMessenger :=
  if delta < 0 ∧ delta < -m.position then m
  else { m with position := ((m.position : Int) + delta).toNat }

/-- `Messenger::setLength` (`conduit.h:153-157`). -/
def setLength (m : InetMessenger) (len : Nat) : InetMessenger :=
  { m with chunk := m.chunk.take (m.position + len) }

/-- Stores a `u16` of the header at the position. -/
def store (m : InetMessenger) (i v : Nat) : InetMessenger :=
  { m with chunk := set16 m.chunk (m.position + i) v }

/-- The loop of `sumUp` (`conduit.h:214-225`). -/
def sumUpLoop : List UInt8 → (sum : Nat) → Except Fault Nat
  | b0 :: b1 :: bytes, sum => do sumUpLoop bytes (← addS32 sum (b0.toNat + b1.toNat * 256))
  | [b], sum => addS32 sum b.toNat
  | [], sum => .ok sum

/-- `Messenger::sumUp` (`conduit.h:209-228`). With `count = 0` nothing is read. -/
def sumUp (m : InetMessenger) (count : Nat) : Except Fault Nat :=
  if count = 0 then .ok 0
  else
    match m.fix count with
    | some bytes => sumUpLoop bytes 0
    | none => .error .outside

end InetMessenger

end EsOs.Net
