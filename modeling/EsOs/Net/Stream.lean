import EsOs.Net.Ring

/-!
# TCP segments

Sequence numbers, header flags and what the input routines keep of an arriving segment
(`include/es/net/tcp.h`, `os/net/include/stream.h`). A sequence number is a 32-bit word; the
source compares two of them by the sign of their difference.
-/

namespace EsOs.Net

/-- `TCPSeq` (`tcp.h:29-60`). -/
abbrev TCPSeq := BitVec 32

/-- `operator<` of two sequence numbers (`tcp.h:62-65`). -/
def seqLt (a b : TCPSeq) : Prop := 0 < (b - a).toInt

/-- `operator<=` of two sequence numbers (`tcp.h:67-70`). -/
def seqLe (a b : TCPSeq) : Prop := 0 ≤ (b - a).toInt

instance (a b : TCPSeq) : Decidable (seqLt a b) := inferInstanceAs (Decidable (0 < _))

instance (a b : TCPSeq) : Decidable (seqLe a b) := inferInstanceAs (Decidable (0 ≤ _))

/-- The value of an `s32` expression. -/
def s32 (x : Int) : Int := (BitVec.ofInt 32 x).toInt

/-- A sequence number moved by a signed number of octets, `TCPSeq::operator+=`. -/
def TCPSeq.add (seq : TCPSeq) (octets : Int) : TCPSeq := seq + BitVec.ofInt 32 octets

/-- `std::max` of two sequence numbers. -/
def seqMax (a b : TCPSeq) : TCPSeq := if seqLt a b then b else a

/-- `std::min` of two sequence numbers. -/
def seqMin (a b : TCPSeq) : TCPSeq := if seqLt b a then b else a

/-- The control bits of a header (`tcp.h:82-92`). -/
structure Flags where
  fin : Bool := false
  syn : Bool := false
  rst : Bool := false
  psh : Bool := false
  ack : Bool := false
  urg : Bool := false
deriving DecidableEq, Repr

/-- `TCPHdr::ASB_MAX` (`tcp.h:106`). -/
def asbMax : Nat := 4

/-- What `input` takes from the header of a segment and `trim` and `text` change: the text starts
    at `offset` of the message. -/
structure Segment where
  flag : Flags
  seq : TCPSeq
  urg : Nat
  len : Int
  offset : Nat
deriving DecidableEq

/-- `getSegmentLength` (`stream.h:478-494`): SYN and FIN count as one octet each. -/
def getSegmentLength (length : Nat) (offset : Nat) (flag : Flags) : Int :=
  (length : Int) - offset + (if flag.syn then 1 else 0) + (if flag.fin then 1 else 0)

end EsOs.Net

/-!
## The receiving side of a TCP connection

`StreamReceiver` (`os/net/include/stream.h`) is one end of a connection. This module holds its data
and what it does with the text of an arriving segment: `trim` and `text`
(`os/net/src/streamInput.cpp`), the window update of `canSend` (`os/net/src/streamOutput.cpp`) and
`read` (`os/net/src/stream.cpp`).

Times are counted in the ticks of `DateTime`, and `now` is what `DateTime::getNow` returns. Segments
that a routine sends, and the threads it wakes, are left out. `hole` is an index of the
scoreboard.
-/

namespace EsOs.Net

/-- The states of a connection (`stream.h:158-347`). -/
inductive State
  | closed | listen | synSent | synReceived | established | finWait1 | finWait2 | closeWait
  | lastAck | closing | timeWait
deriving DecidableEq, Repr

/-- `StreamReceiver::SackHole` (`stream.h:89-95`). -/
structure SackHole where
  start : TCPSeq
  finish : TCPSeq
  dupAcks : Int
  rxmit : TCPSeq
deriving DecidableEq, Repr

/-- The error codes that `err` takes. -/
inductive Errno
  | econnaborted | econnreset | econnrefused | etimedout | enetunreach
deriving DecidableEq, Repr

/-- What a connection uses of its `Socket`. -/
structure Socket where
  ipv4 : Bool
  sendBufferSize : Int
  receiveBufferSize : Int
  blocking : Bool
  timeout : Int

/-- `StreamReceiver` (`stream.h:351-449`). -/
structure StreamReceiver where
  state : State
  recvRing : Ring
  sendRing : Ring
  err : Option Errno
  socket : Option Socket
  mss : Int
  persist : Bool
  nagle : Bool
  shutrd : Bool
  shutwr : Bool
  haveUrg : Bool
  hadUrg : Bool
  ackNow : Bool
  fastRxmit : Bool
  sack : Bool
  sendUna : TCPSeq
  sendNext : TCPSeq
  sendUp : TCPSeq
  sendWL1 : TCPSeq
  sendWL2 : TCPSeq
  iss : TCPSeq
  sendMaxWin : Int
  sendMax : TCPSeq
  sendFack : TCPSeq
  sendWin : Int
  sendAwin : Int
  recvNext : TCPSeq
  recvWin : Int
  recvUp : TCPSeq
  irs : TCPSeq
  recvAcked : TCPSeq
  dupAcks : Int
  asb : List Vec
  cWin : Int
  ssThresh : Int
  cAcked : Int
  rttTiming : Int
  rttSeq : TCPSeq
  srtt : Int
  rttDe : Int
  lastSend : Int
  rxmitCount : Int
  rto : Int
  r0 : Int
  r2 : Int
  rxmitTimer : Option Int
  rxmitData : Int
  ackTimer : Option Int
  scoreboard : List SackHole
  sendRecover : TCPSeq
  lastSack : TCPSeq
  onxt : TCPSeq
  hole : Option Nat
  now : Int

namespace StreamReceiver

/-- A new connection whose socket has been set (`stream.h:578-666`). What the constructor leaves
    open is zero. -/
def create (socket : Socket) (now : Int) : StreamReceiver where
  state := .closed
  recvRing := ⟨fun _ => 0, socket.receiveBufferSize.toNat, 0, 0⟩
  sendRing := ⟨fun _ => 0, socket.sendBufferSize.toNat, 0, 0⟩
  err := none
  socket := some socket
  mss := 536
  persist := false
  nagle := false
  shutrd := false
  shutwr := false
  haveUrg := false
  hadUrg := false
  ackNow := false
  fastRxmit := false
  sack := false
  sendUna := 0
  sendNext := 0
  sendUp := 0
  sendWL1 := 0
  sendWL2 := 0
  iss := 0
  sendMaxWin := 0
  sendMax := 0
  sendFack := 0
  sendWin := 536
  sendAwin := 0
  recvNext := 0
  -- the ring has no buffer yet when the constructor asks for its size
  recvWin := 0
  recvUp := 0
  irs := 0
  recvAcked := 0
  dupAcks := 0
  asb := []
  cWin := 2 * 536
  ssThresh := 65535
  cAcked := 0
  rttTiming := 0
  rttSeq := 0
  srtt := 0
  rttDe := 7500000
  lastSend := 0
  rxmitCount := 0
  rto := 30000000
  r0 := 0
  r2 := 0
  rxmitTimer := none
  rxmitData := 0
  ackTimer := none
  scoreboard := []
  sendRecover := 0
  lastSack := 0
  onxt := 0
  hole := none
  now := now

/-- `StreamReceiver::MSL` (`stream.cpp:26`). -/
def msl : Int := 1200000000

/-- `StreamReceiver::R2` (`stream.cpp:24`). -/
def r2Default : Int := 1000000000

/-- `startRxmitTimer` (`streamTimer.cpp:56-68`). -/
def startRxmitTimer (s : StreamReceiver) : StreamReceiver :=
  if s.rxmitTimer.isSome then s
  else
    { s with
      r0 := if s.rxmitCount = 0 then s.now else s.r0
      rxmitTimer := some (s.now + s.rto) }

/-- `stopRxmitTimer` (`streamTimer.cpp:70-74`). -/
def stopRxmitTimer (s : StreamReceiver) : StreamReceiver :=
  { s with rxmitCount := 0, rxmitTimer := none }

/-- `stopAckTimer` (`streamTimer.cpp:228-232`). -/
def stopAckTimer (s : StreamReceiver) : StreamReceiver :=
  { s with ackTimer := none }

/-- The `start` of the states (`stream.h:247-250`, `284-288`, `318-322`, `335-345`). -/
def State.start (state : State) (s : StreamReceiver) : StreamReceiver :=
  match state with
  | .established => { s with r2 := r2Default }
  | .closeWait => { s with shutrd := true }
  | .closing => { s with shutrd := true }
  | .timeWait =>
      let s := s.stopRxmitTimer.stopAckTimer
      startRxmitTimer { s with shutrd := true, rto := 2 * msl }
  | _ => s

/-- `setState` (`stream.h:643-652`). -/
def setState (s : StreamReceiver) (state : State) : StreamReceiver :=
  if s.state = state then s else State.start state { s with state := state }

/-- `abort` (`stream.cpp:161-197`). -/
def abort (s : StreamReceiver) : StreamReceiver :=
  (s.setState .closed).stopRxmitTimer.stopAckTimer

/-- Takes SYN off a segment (`streamInput.cpp:107-119`). -/
def dropSyn (g : Segment) : Segment :=
  if g.flag.syn then
    { g with
      flag := { g.flag with syn := false, urg := g.flag.urg && decide (1 < g.urg) }
      seq := g.seq + 1
      len := g.len - 1
      urg := if 1 < g.urg then g.urg - 1 else g.urg }
  else g

/-- Takes `drop` octets off the front of a segment without SYN (`streamInput.cpp:122-143`). -/
def dropFront (g : Segment) (drop : Int) : Segment :=
  let all := decide (g.len ≤ drop)
  let flag := if all then { g.flag with fin := false } else g.flag
  let drop := if all then g.len else drop
  if 0 < drop then
    { flag := { flag with urg := flag.urg && decide (drop < g.urg) }
      seq := g.seq.add drop
      len := g.len - drop
      offset := g.offset + drop.toNat
      urg := if drop < g.urg then g.urg - drop.toNat else 0 }
  else { g with flag := flag }

/-- The part of `trim` for the octets before `recvNext` (`streamInput.cpp:103-144`). -/
def trimLeft (s : StreamReceiver) (g : Segment) : Segment :=
  let drop := (s.recvNext - g.seq).toInt
  if 0 < drop then dropFront (dropSyn g) (if g.flag.syn then drop - 1 else drop) else g

/-- Takes `drop` octets off the end of a segment, FIN first (`streamInput.cpp:150-160`). -/
def dropBack (g : Segment) (drop : Int) : Segment :=
  let len := if g.flag.fin then g.len - 1 else g.len
  let drop := if g.flag.fin then drop - 1 else drop
  { g with
    flag := { g.flag with fin := false }
    len := len - if len < drop then len else drop }

/-- The part of `trim` for the octets behind the window (`streamInput.cpp:146-161`). -/
def trimRight (s : StreamReceiver) (g : Segment) : Segment :=
  let drop := ((g.seq.add g.len) - (s.recvNext.add s.recvWin)).toInt
  if 0 < drop then dropBack g drop else g

/-- The test of an empty segment in `trim` and in `reset` (`streamInput.cpp:174-178`,
    `stream.h:506-507`). -/
def inWindow (s : StreamReceiver) (seq : TCPSeq) : Prop :=
  (s.recvWin = 0 ∧ seq = s.recvNext) ∨
    (0 < s.recvWin ∧ seqLe s.recvNext seq ∧ seqLt seq (s.recvNext.add s.recvWin))

instance (s : StreamReceiver) (seq : TCPSeq) : Decidable (s.inWindow seq) :=
  inferInstanceAs (Decidable (_ ∨ _))

/-- `trim` (`streamInput.cpp:98-184`). -/
def trim (s : StreamReceiver) (g : Segment) : Bool × Segment × StreamReceiver :=
  let ackOnly := decide (g.len ≤ 0)
  let g := s.trimRight (s.trimLeft g)
  if 0 < g.len then (true, g, s)
  else if s.inWindow g.seq then (true, g, s)
  else (false, g, { s with ackNow := !ackOnly })

/-- `urg` (`streamInput.cpp:474-484`). -/
def urg (s : StreamReceiver) (g : Segment) : StreamReceiver :=
  if 0 < g.urg then
    { s with
      recvUp := seqMax s.recvUp (g.seq + BitVec.ofNat 32 g.urg)
      hadUrg := false
      haveUrg := decide ((g.urg : Int) ≤ g.len) }
  else s

/-- `text` (`streamInput.cpp:486-554`). The message `m` holds the segment from its header on. -/
def text (s : StreamReceiver) (m : List UInt8) (g : Segment) :
    Bool × Segment × StreamReceiver :=
  let adv := if g.flag.fin then g.len - 1 else g.len
  let data := (m.drop g.offset).take adv.toNat
  if s.shutrd ∧ 0 < adv then (false, g, abort { s with err := some .econnaborted })
  else if s.recvNext = g.seq then
    if 0 < adv then
      let (_, ring, asb) := s.recvRing.writeAt data 0 s.asb asbMax
      (true, g,
        { s with
          ackNow := s.ackNow || g.flag.psh
          recvRing := ring
          asb := asb
          recvNext := s.recvNext.add adv
          recvWin := s.recvWin - adv })
    else (true, g, s)
  else
    let offset := (g.seq - s.recvNext).toInt.toNat
    let (_, ring, asb) := s.recvRing.writeAt data offset s.asb asbMax
    let s :=
      { s with
        ackNow := s.ackNow || decide (0 < adv)
        recvRing := ring
        asb := asb }
    (true,
      if g.flag.fin then { g with flag := { g.flag with fin := false }, len := g.len - 1 } else g, s)

/-- The receiver side of `canSend` (`streamOutput.cpp:185-194`), which may open the window. -/
def updateWindow (s : StreamReceiver) (mss : Int) : Bool × StreamReceiver :=
  let reduction := s.recvRing.getUnused - s.recvWin
  if min ((s.recvRing.getSize / 2 : Nat) : Int) (2 * mss) ≤ reduction ∨
      mss ≤ reduction ∧ s.recvWin < mss then
    (true, { s with recvWin := s.recvRing.getUnused })
  else (false, s)

/-- `canSend` (`streamOutput.cpp:181-241`). -/
def canSend (s : StreamReceiver) (len mss : Int) (flag : Flags) : Bool × StreamReceiver :=
  let (opened, s) := s.updateWindow mss
  if opened then (true, s)
  else if s.ackNow || flag.rst || flag.fin || flag.syn then (true, s)
  else if len ≤ 0 then (false, s)
  else if mss ≤ len then (true, s)
  else
    let acked := !s.nagle || decide (s.sendNext = s.sendUna)
    if acked && (flag.psh || decide (s.sendMaxWin.tdiv 2 ≤ len)) then (true, s)
    else if seqLt s.sendNext s.sendMax then (true, s)
    else (s.fastRxmit, s)

/-- `isReadable` (`stream.h:567-570`). -/
def isReadable (s : StreamReceiver) : Bool :=
  decide (0 < s.recvRing.getUsed) || s.shutrd || s.err.isSome

/-- `read` once the connection is readable (`stream.cpp:229-254`): the bytes copied to a message of
    `size` bytes. -/
def read (s : StreamReceiver) (size : Int) : List UInt8 × StreamReceiver :=
  let used : Int := s.recvRing.getUsed
  let mark := s32 (used + (s.recvUp - s.recvNext).toInt)
  let (len, s) :=
    if mark = 0 then (1, { s with haveUrg := false })
    else if s.haveUrg then (min used mark, s)
    else (used, s)
  if len < 0 then ([], s)
  else
    let len := if size < len then size else len
    let (data, ring) := s.recvRing.read len
    (data, { s with recvRing := ring })

end StreamReceiver

end EsOs.Net
