import EsOs.Net.Inet4
import EsOs.Net.Stream

/-!
# ICMP destination unreachable

`ICMPUnreachReceiver::input` (`os/net/src/icmp4.cpp:103-161`) and the path MTU of the addresses
(`os/net/include/inet4address.h:352-360`). The messages that come here are those whose type is
`Unreach`: `icmpMux` tells the receivers apart by the type (`icmp4.h:28-35`, `inet4.cpp:99-105`).
-/

namespace EsOs.Net

/-- What is read of an `ICMPUnreach` (`icmp.h:57-75`). -/
structure ICMPUnreach where
  type : UInt8
  code : UInt8
  mtu : Nat
deriving DecidableEq, Repr

namespace ICMPUnreach

/-- The structure that the bytes of a message begin with. -/
def load (bytes : List UInt8) : ICMPUnreach where
  type := bytes.getD 0 0
  code := bytes.getD 1 0
  mtu := ntohs (get16 bytes 6)

def size : Nat := 8

/-- `ICMPHdr::Unreach` (`icmp.h:31`). -/
def unreach : UInt8 := 3

/-! The codes (`icmp.h:78-91`). -/

def net : UInt8 := 0
def host : UInt8 := 1
def protocol : UInt8 := 2
def port : UInt8 := 3
def needFragment : UInt8 := 4
def srcFail : UInt8 := 5
def netUnknown : UInt8 := 6
def hostUnknown : UInt8 := 7
def isolated : UInt8 := 8
def netProhibited : UInt8 := 9
def hostProhibited : UInt8 := 10
def netTOS : UInt8 := 11
def hostTOS : UInt8 := 12
def prohibited : UInt8 := 13

end ICMPUnreach

/-- The path MTU of every address. -/
abbrev PathMtu := InAddr → Int

namespace PathMtu

/-- The addresses are constructed with 1500 (`inet4address.cpp:43`). -/
def initial : PathMtu := fun _ => 1500

/-- `setPathMTU` (`inet4address.h:357-360`). -/
def setPathMTU (pathMTU : PathMtu) (addr : InAddr) (mtu : Int) : PathMtu :=
  fun a => if a = addr then max 68 mtu else pathMTU a

end PathMtu

namespace ICMPUnreachReceiver

/-- The soft errors of `input` (`icmp4.cpp:133-143`). -/
def softErrors : List UInt8 :=
  [ICMPUnreach.net, ICMPUnreach.host, ICMPUnreach.srcFail, ICMPUnreach.netUnknown,
    ICMPUnreach.hostUnknown, ICMPUnreach.isolated, ICMPUnreach.netProhibited,
    ICMPUnreach.hostProhibited, ICMPUnreach.netTOS, ICMPUnreach.hostTOS, ICMPUnreach.prohibited]

/-- The `switch` of `input` (`icmp4.cpp:115-153`): the error code, `none` for the code that the
    messenger had, and the path MTUs. -/
def errorOf (icmphdr : ICMPUnreach) (remote : InAddr) (pathMTU : PathMtu) :
    Option Errno × PathMtu :=
  if icmphdr.type = ICMPUnreach.needFragment then
    (some .enetunreach, pathMTU.setPathMTU remote (min icmphdr.mtu (pathMTU remote)))
  else if icmphdr.type ∈ softErrors then (some .enetunreach, pathMTU)
  else if icmphdr.type = ICMPUnreach.protocol ∨ icmphdr.type = ICMPUnreach.port then
    (some .econnrefused, pathMTU)
  else (none, pathMTU)

/-- `input` (`icmp4.cpp:103-161`): nothing for a message that is dropped, else the error code that
    the message carries on to the transport, the message at its embedded header, and the path
    MTUs. -/
def input (m : InetMessenger) (pathMTU : PathMtu) :
    Option (Option Errno × InetMessenger × PathMtu) :=
  if m.getLength < ICMPUnreach.size then none
  else
    (m.fix ICMPUnreach.size).map fun bytes =>
      let (code, pathMTU) := errorOf (ICMPUnreach.load bytes) m.remoteAddr pathMTU
      (code, m.movePosition ICMPUnreach.size, pathMTU)

end ICMPUnreachReceiver

/-- A received destination unreachable message, with the header of the datagram that it is about. -/
structure Unreachable where
  m : InetMessenger
  unreach : m.bytes.getD 0 0 = ICMPUnreach.unreach
  whole : ICMPUnreach.size + IPHdr.MinHdrSize ≤ m.getLength

namespace Unreachable

def code (u : Unreachable) : UInt8 := u.m.bytes.getD 1 0

/-- The next-hop MTU. -/
def mtu (u : Unreachable) : Nat := ntohs (get16 u.m.bytes 6)

/-- The destination that the embedded header names. -/
def destination (u : Unreachable) : InAddr :=
  addressAt (u.m.bytes.drop ICMPUnreach.size) 16

end Unreachable

/-- What has come of the messages: the errors that they gave to their connections, and the path
    MTUs. -/
structure UnreachState where
  errors : List (Option Errno)
  pathMTU : PathMtu

/-- A message comes in. -/
def UnreachState.receive (s : UnreachState) (u : Unreachable) : UnreachState :=
  match ICMPUnreachReceiver.input u.m s.pathMTU with
  | none => s
  | some (code, _, pathMTU) => ⟨s.errors ++ [code], pathMTU⟩

/-- A sequence of messages has come in. -/
def received (us : List Unreachable) : UnreachState :=
  us.foldl UnreachState.receive ⟨[], PathMtu.initial⟩

/-- The next-hop MTUs that were announced for an address. -/
def announced (addr : InAddr) (us : List Unreachable) : List Int :=
  (us.filter fun u => u.code = ICMPUnreach.needFragment ∧ u.destination = addr).map fun u => u.mtu

/-- Only a protocol or a port that is unreachable is a hard error, any other code is a soft one, and
    the path MTU of an address is the least that was announced for it. -/
structure UnreachLaw (us : List Unreachable) : Prop where
  errors : (received us).errors = us.map fun u =>
    if u.code = ICMPUnreach.protocol ∨ u.code = ICMPUnreach.port then some .econnrefused
    else some .enetunreach
  pathMTU : ∀ addr, (received us).pathMTU addr = max 68 ((announced addr us).foldl min 1500)

end EsOs.Net

/-!
## The errors of unreachable destinations

`input` looks at the type, which is 3 in each of its messages, where it means the code. So every
message is taken for an unreachable port.
-/

namespace EsOs.Net

/-- A received message is a hard error, whatever its code. -/
theorem input_unreachable (u : Unreachable) (pathMTU : PathMtu) :
    ICMPUnreachReceiver.input u.m pathMTU =
      some (some .econnrefused, u.m.movePosition ICMPUnreach.size, pathMTU) := by
  have hlong : ICMPUnreach.size ≤ u.m.getLength := Nat.le_trans (Nat.le_add_right _ _) u.whole
  have hlength : u.m.getLength = u.m.chunk.length - u.m.position := rfl
  have hsize : ICMPUnreach.size = 8 := rfl
  have hfix : u.m.fix ICMPUnreach.size = some (u.m.bytes.take ICMPUnreach.size) := by
    rw [InetMessenger.fix, if_neg (by omega)]
  have htype : (ICMPUnreach.load (u.m.bytes.take ICMPUnreach.size)).type = ICMPUnreach.port := by
    have hfirst : (u.m.bytes.take ICMPUnreach.size).getD 0 0 = u.m.bytes.getD 0 0 := by
      simp [List.getD, hsize]
    exact hfirst.trans u.unreach
  have herror : ICMPUnreachReceiver.errorOf (ICMPUnreach.load (u.m.bytes.take ICMPUnreach.size))
      u.m.remoteAddr pathMTU = (some .econnrefused, pathMTU) := by
    rw [ICMPUnreachReceiver.errorOf, htype, if_neg (by decide), if_neg (by decide),
      if_pos (.inr rfl)]
  rw [ICMPUnreachReceiver.input, if_neg (Nat.not_lt.mpr hlong), hfix, Option.map_some]
  simp only [herror]

theorem foldl_receive (us : List Unreachable) (s : UnreachState) :
    us.foldl UnreachState.receive s =
      ⟨s.errors ++ us.map fun _ => some .econnrefused, s.pathMTU⟩ := by
  induction us generalizing s with
  | nil => rw [List.foldl_nil, List.map_nil, List.append_nil]
  | cons u us ih =>
    have hstep : s.receive u = ⟨s.errors ++ [some .econnrefused], s.pathMTU⟩ := by
      rw [UnreachState.receive, input_unreachable]
    rw [List.foldl_cons, hstep, ih, List.append_assoc, List.map_cons]
    rfl

theorem received_eq (us : List Unreachable) :
    received us = ⟨us.map fun _ => some .econnrefused, PathMtu.initial⟩ :=
  foldl_receive us _

/-- The law holds of the sequences that have no other codes than 2 and 3. -/
theorem unreachLaw_iff (us : List Unreachable) :
    UnreachLaw us ↔ ∀ u ∈ us, u.code = ICMPUnreach.protocol ∨ u.code = ICMPUnreach.port := by
  constructor
  · intro h u hu
    have herrors := h.errors
    rw [received_eq] at herrors
    have hthis := List.map_inj_left.mp herrors u hu
    refine Decidable.byContradiction fun hcode => ?_
    rw [if_neg hcode] at hthis
    cases hthis
  · intro hcodes
    refine ⟨?_, fun addr => ?_⟩
    · rw [received_eq]
      exact List.map_congr_left fun u hu => (if_pos (hcodes u hu)).symm
    · have hnone : announced addr us = [] := by
        rw [announced, List.map_eq_nil_iff, List.filter_eq_nil_iff]
        intro u hu hsome
        have hfour := (of_decide_eq_true hsome).1
        rcases hcodes u hu with h | h <;> rw [h] at hfour <;> exact absurd hfour (by decide)
      rw [received_eq, hnone]
      rfl

/-- A host that is unreachable: a router says so of a datagram from 10.0.0.1 to 10.0.0.2. -/
def hostUnreachable : InetMessenger where
  chunk := [3, 1, 0, 0, 0, 0, 0, 0, 0x45, 0, 0, 40, 0, 0, 0, 0, 64, 6, 0, 0, 10, 0, 0, 1, 10, 0, 0, 2]
  position := 0
  saved := 0
  scopeID := 2
  localAddr := 0x0100000a
  remoteAddr := 0xfe00000a
  localPort := 0
  remotePort := 0
  type := 1

/-- It is given to the connection as a hard error. -/
theorem not_unreachLaw_host : ¬ UnreachLaw [⟨hostUnreachable, by decide, by decide⟩] := by
  intro h
  have herrors := h.errors
  rw [received_eq] at herrors
  exact absurd herrors (by decide)

end EsOs.Net
