import EsOs.Net.Messenger
import EsOs.Net.Proofs.Transport
import EsOs.Net.Reass

/-!
# Received IPv4 packets

`InReceiver::input` of `os/net/src/inet4.cpp`, with the addresses that the family knows. The states
and the timers of an address are left out.
-/

namespace EsOs.Net

/-- The addresses of the packet header (`inet4.h:168-169`). -/
def addressAt (bytes : List UInt8) (i : Nat) : InAddr :=
  BitVec.ofNat 32 (get16 bytes i + get16 bytes (i + 2) * 65536)

namespace IPHdr

/-- The header that the bytes of a packet begin with. -/
def load (bytes : List UInt8) : IPHdr where
  ihl := BitVec.ofNat 4 (bytes.getD 0 0).toNat
  len := UInt16.ofNat (ntohs (get16 bytes 2))
  id := UInt16.ofNat (ntohs (get16 bytes 4))
  frag := UInt16.ofNat (ntohs (get16 bytes 6))
  proto := bytes.getD 9 0
  src := UInt32.ofNat (ntohs (get16 bytes 12) * 65536 + ntohs (get16 bytes 14))
  dst := UInt32.ofNat (ntohs (get16 bytes 16) * 65536 + ntohs (get16 bytes 18))

end IPHdr

/-- `IN_IS_ADDR_LOOPBACK` (`inet4.h:260-264`). -/
def InAddr.isLoopback (addr : InAddr) : Bool := addr.toNat % 256 = 127

/-- `IN_IS_ADDR_MULTICAST` (`inet4.h:266-270`). -/
def InAddr.isClassD (addr : InAddr) : Bool := addr.toNat % 256 / 16 = 14

/-- What `input` uses of `InFamily`: the addresses of each scope, and the scope of the interface that
    an address is on the link of. -/
structure InFamily where
  addressTable : Nat → InAddr → Bool
  onLink : InAddr → Option Nat

namespace InFamily

/-- `InFamily::getAddress` (`inet4.cpp:146-173`): whether the address is known. -/
def getAddress (f : InFamily) (addr : InAddr) (scopeID : Nat) : Bool :=
  let scopeID := if scopeID = 0 then if addr.isLoopback then 1 else 2 else scopeID
  f.addressTable scopeID addr

/-- `InFamily::addAddress` (`inet4.cpp:175-180`). -/
def addAddress (f : InFamily) (addr : InAddr) (scopeID : Nat) : InFamily :=
  { f with
    addressTable := fun scope a =>
      if scope = scopeID ∧ a = addr then true else f.addressTable scope a }

end InFamily

namespace InReceiver

def IPPROTO_TCP : Nat := 6

def IPPROTO_FRAGMENT : Nat := 44

/-- `InReceiver::checksum` (`inet4.cpp:426-435`). -/
def checksum (m : InetMessenger) (hlen : Nat) : Except Fault (BitVec 16) := do
  let sum ← m.sumUp hlen
  pure (complement sum)

/-- The local address of a packet (`inet4.cpp:456-478`): the family with the address, if the packet
    is not dropped. -/
def destination (f : InFamily) (dst : InAddr) (scopeID : Nat) : Option InFamily :=
  if f.getAddress dst scopeID then some f
  else if dst.isLoopback then none
  else if dst.isClassD then some (f.addAddress dst scopeID)
  else
    match f.onLink dst with
    | some scope => some (f.addAddress dst scope)
    | none => some (f.addAddress dst scopeID)

/-- The remote address of a packet (`inet4.cpp:480-502`). -/
def source (f : InFamily) (src : InAddr) (scopeID : Nat) : Option InFamily :=
  if f.getAddress src scopeID then some f
  else if src.isLoopback then none
  else if src.isClassD then none
  else
    match f.onLink src with
    | some scope => some (f.addAddress src scope)
    | none => some (f.addAddress src scopeID)

/-- The type of a packet (`inet4.cpp:504-525`), unless it is dropped. -/
def classify (m : InetMessenger) (iphdr : IPHdr) : Option InetMessenger :=
  if iphdr.getOffset = 0 ∧ iphdr.moreFragments = false then
    some { m with type := iphdr.proto.toNat }
  else if iphdr.proto.toNat = IPPROTO_TCP ∧ iphdr.getOffset = 8 then none
  else
    let id := if iphdr.id.toNat = 0 then 65536 else iphdr.id.toNat
    -- a port is a `u16`
    some { m with type := IPPROTO_FRAGMENT, remotePort := id % 65536 }

/-- `input` after the checks of the header (`inet4.cpp:452-529`). -/
def accept (f : InFamily) (m : InetMessenger) (bytes : List UInt8) :
    Bool × InetMessenger × InFamily :=
  let iphdr := IPHdr.load bytes
  let src := addressAt bytes 12
  let dst := addressAt bytes 16
  let m := m.setLength iphdr.getSize
  match destination f dst m.scopeID with
  | none => (false, m, f)
  | some f =>
      let m := { m with localAddr := dst }
      match source f src m.scopeID with
      | none => (false, m, f)
      | some f =>
          match classify { m with remoteAddr := src } iphdr with
          | none => (false, { m with remoteAddr := src }, f)
          | some m =>
              (true, { m with saved := m.position }.movePosition iphdr.getHdrSize, f)

/-- `InReceiver::input` (`inet4.cpp:437-529`): whether the packet is passed on. -/
def input (f : InFamily) (m : InetMessenger) : Except Fault (Bool × InetMessenger × InFamily) :=
  match m.fix IPHdr.MinHdrSize with
  | none => .ok (false, m, f)
  | some bytes => do
    let iphdr := IPHdr.load bytes
    if m.getLength < iphdr.getSize then pure (false, m, f)
    else
      let sum ← checksum m iphdr.getHdrSize
      if sum ≠ 0 then pure (false, m, f)
      else pure (accept f m bytes)

end InReceiver

end EsOs.Net

/-! # What `InReceiver::input` passes on

The header length of a packet is used before it is checked, and never checked: not against the 20
bytes of a header, not against the total length, and not against the bytes received. -/

namespace EsOs.Net

namespace InReceiver

/-- The header at the front of a messenger. -/
def header (m : InetMessenger) : IPHdr := IPHdr.load (m.bytes.take IPHdr.MinHdrSize)

/-- `input` decides without a read outside of the packet, and what it passes on has a header of at
    least 20 bytes within a total length within the bytes received, with a right checksum. -/
def Sound (f : InFamily) (m : InetMessenger) : Prop :=
  ∃ passed m' f', input f m = .ok (passed, m', f') ∧
    (passed →
      20 ≤ (header m).getHdrSize ∧ (header m).getHdrSize ≤ (header m).getSize ∧
        (header m).getSize ≤ m.getLength ∧ checksum m (header m).getHdrSize = .ok 0)

variable {f : InFamily} {m : InetMessenger}

/-- A received packet. -/
def received (bytes : List UInt8) : InetMessenger := ⟨bytes, 0, 0, 2, 0, 0, 0, 0, 0⟩

end InReceiver

end EsOs.Net
