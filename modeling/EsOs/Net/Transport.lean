import EsOs.Net.Messenger

/-!
# Checksums of the transport protocols

`TCPReceiver` (`os/net/src/tcp.cpp`) and `UDPReceiver` (`os/net/src/udp.cpp`) over IPv4. The
deliveries to the sockets of a multicast group are left out.
-/

namespace EsOs.Net

def IPPROTO_TCP : Nat := 6

def IPPROTO_UDP : Nat := 17

/-- `Inet4Address::isUnspecified` (`inet4address.h:320-323`). -/
def InAddr.isUnspecified (addr : InAddr) : Bool := addr = 0

/-- `Inet4Address::isMulticast` (`inet4address.h:332-335`). -/
def InAddr.isMulticast (addr : InAddr) : Bool := addr &&& 0xf0 = 0xe0

namespace TCPReceiver

/-- `sizeof(TCPHdr)`. -/
def hdrSize : Nat := 20

/-- `TCPReceiver::checksum` (`tcp.cpp:22-40`). -/
def checksum (m : InetMessenger) : Except Fault (BitVec 16) := do
  let len := m.getLength
  let sum ← m.sumUp len
  let sum ← addS32 sum m.remoteAddr.sumUp
  let sum ← addS32 sum m.localAddr.sumUp
  let sum ← addS32 sum (ntohs len)
  let sum ← addS32 sum (ntohs IPPROTO_TCP)
  pure (complement sum)

/-- `TCPReceiver::input` (`tcp.cpp:42-73`). -/
def input (m : InetMessenger) : Except Fault (Bool × InetMessenger) :=
  match m.fix hdrSize with
  | none => .ok (false, m)
  | some tcphdr => do
    let hlen := (ntohs (get16 tcphdr 12) &&& 0xf000) >>> 10
    if hlen < hdrSize ∨ m.getLength < hlen then pure (false, m)
    else if m.remoteAddr.isUnspecified || m.remoteAddr.isMulticast || m.localAddr.isUnspecified ||
        m.localAddr.isMulticast then pure (false, m)
    else
      let sum ← checksum m
      if sum ≠ 0 then pure (false, m)
      else
        pure (true,
          { m with remotePort := ntohs (get16 tcphdr 0), localPort := ntohs (get16 tcphdr 2) })

/-- `TCPReceiver::output` (`tcp.cpp:75-86`). -/
def output (m : InetMessenger) : Except Fault (Bool × InetMessenger) :=
  match m.fix hdrSize with
  | none => .error .outside
  | some _ => do
    let m := m.store 0 (ntohs m.localPort)
    let m := m.store 2 (ntohs m.remotePort)
    let m := m.store 16 0
    let sum ← checksum m
    let m := m.store 16 sum.toNat
    pure (true, { m with type := IPPROTO_TCP })

end TCPReceiver

namespace UDPReceiver

/-- `sizeof(UDPHdr)`. -/
def hdrSize : Nat := 8

/-- `UDPReceiver::checksum` (`udp.cpp:25-43`). -/
def checksum (m : InetMessenger) : Except Fault (BitVec 16) :=
  match m.fix hdrSize with
  | none => .error .outside
  | some udphdr => do
    let sum ← m.sumUp (ntohs (get16 udphdr 4))
    let sum ← addS32 sum m.remoteAddr.sumUp
    let sum ← addS32 sum m.localAddr.sumUp
    let sum ← addS32 sum (get16 udphdr 4)
    let sum ← addS32 sum (ntohs IPPROTO_UDP)
    pure (complement sum)

/-- `UDPReceiver::input` (`udp.cpp:45-88`). -/
def input (m : InetMessenger) : Except Fault (Bool × InetMessenger) :=
  match m.fix hdrSize with
  | none => .ok (false, m)
  | some udphdr => do
    let len := ntohs (get16 udphdr 4)
    if len < hdrSize ∨ m.getLength < len then pure (false, m)
    else
      let sum ← if get16 udphdr 6 ≠ 0 then checksum m else pure 0
      if sum ≠ 0 then pure (false, m)
      else
        let m :=
          { m with remotePort := ntohs (get16 udphdr 0), localPort := ntohs (get16 udphdr 2) }
        pure (true, m.movePosition hdrSize)

/-- `UDPReceiver::output` (`udp.cpp:90-113`). -/
def output (m : InetMessenger) : Except Fault (Bool × InetMessenger) :=
  let len := hdrSize + m.getLength
  if 65535 - hdrSize < len then .ok (false, m)
  else
    let m := m.movePosition (-hdrSize)
    match m.fix hdrSize with
    | none => .error .outside
    | some _ => do
      let m := m.store 0 (ntohs m.localPort)
      let m := m.store 2 (ntohs m.remotePort)
      let m := m.store 4 (ntohs len)
      let m := m.store 6 0
      let sum ← checksum m
      let m := m.store 6 (if sum = 0 then 0xffff else sum.toNat)
      pure (true, { m with type := IPPROTO_UDP })

end UDPReceiver

/-- The address as it stands in a packet. -/
def InAddr.octets (addr : InAddr) : List UInt8 :=
  [UInt8.ofNat addr.toNat, UInt8.ofNat (addr.toNat / 256), UInt8.ofNat (addr.toNat / 65536),
    UInt8.ofNat (addr.toNat / 16777216)]

/-- The pseudo header of a segment of `len` bytes. -/
def pseudoHeader (source destination : InAddr) (proto len : Nat) : List UInt8 :=
  source.octets ++ destination.octets ++
    [0, UInt8.ofNat proto, UInt8.ofNat (len / 256), UInt8.ofNat len]

/-- The messenger as it arrives: what was local to the sender is remote. -/
def InetMessenger.arrived (m : InetMessenger) : InetMessenger :=
  { m with localAddr := m.remoteAddr, remoteAddr := m.localAddr }

end EsOs.Net
