import Mathlib
import EsOs.Net.Stream

/-!
# The sending side of a TCP connection

The timers (`os/net/src/streamTimer.cpp`), the scoreboard of selective acknowledgements
(`os/net/src/streamScoreboard.cpp`) and `send` with what the states ask it to send
(`os/net/src/streamOutput.cpp`). `send` gives the segment it makes. A division of two `int`s
truncates.
-/

namespace EsOs.Net

/-- The segment made by `send`. -/
structure Sent where
  seq : TCPSeq
  ack : TCPSeq
  flag : Flags
  win : BitVec 16
  urg : Nat
  len : Int
  text : List UInt8

namespace StreamReceiver

/-- `RXMIT_THRESH` (`streamScoreboard.cpp:21`). -/
def rxmitThresh : Int := 3

/-- `LIMITED_THRESH` (`stream.h:55`). -/
def limitedThresh : Int := 2

/-- `DEF_SSTHRESH` (`stream.h:48`). -/
def defSsthresh : Int := 65535

/-! ## Timers -/

/-- `RTT_MIN`, `RTT_MAX` and `RTT_DEFAULT` (`stream.cpp:27-29`). -/
def rttMin : Int := 10000000

def rttMax : Int := 2 * msl

def rttDefault : Int := 30000000

/-- `PERSIST_MAX` (`stream.cpp:30`). -/
def persistMax : Int := 16 * rttMax

/-- `DACK_TIMEOUT` (`stream.cpp:31`). -/
def dackTimeout : Int := 2000000

/-- `initRto` (`streamTimer.cpp:23-29`). -/
def initRto (s : StreamReceiver) : StreamReceiver :=
  { s with rxmitCount := 0, srtt := 0, rttDe := rttDefault.tdiv 4, rto := rttDefault }

/-- `updateRto` (`streamTimer.cpp:31-54`). -/
def updateRto (s : StreamReceiver) (rtt : Int) : StreamReceiver :=
  let (srtt, rttDe) :=
    if s.srtt ≠ 0 then
      let delta := rtt - s.srtt
      (s.srtt + delta.tdiv 8, s.rttDe + ((delta.natAbs : Int) - s.rttDe).tdiv 4)
    else (rtt, rtt.tdiv 2)
  { s with
    srtt := srtt
    rttDe := rttDe
    rttTiming := 0
    rxmitCount := 0
    rto := min (max rttMin (srtt + 4 * rttDe)) rttMax }

/-- `resetRxmitTimer` (`streamTimer.cpp:76-82`). -/
def resetRxmitTimer (s : StreamReceiver) : StreamReceiver :=
  { s with rxmitTimer := some (s.now + s.rto) }

/-- `cutThresh` (`streamTimer.cpp:84-90`). -/
def cutThresh (s : StreamReceiver) : StreamReceiver :=
  { s with ssThresh := max ((s.sendMax - s.sendUna).toInt.tdiv 2) (2 * s.mss) }

/-- `startAckTimer` (`streamTimer.cpp:217-225`). -/
def startAckTimer (s : StreamReceiver) : StreamReceiver :=
  if s.ackTimer.isSome then s else { s with ackTimer := some (s.now + dackTimeout) }

/-! ## The scoreboard -/

/-- The test of `getSackHole` (`streamScoreboard.cpp:36-43`). -/
def wanted (s : StreamReceiver) (hole : SackHole) : Bool :=
  decide (seqLt hole.rxmit hole.finish) && (s.fastRxmit || decide (rxmitThresh ≤ hole.dupAcks)) &&
    !decide (seqLt hole.rxmit s.sendUna)

/-- `getSackHole` (`streamScoreboard.cpp:24-47`). -/
def getSackHole (s : StreamReceiver) : Option Nat :=
  s.scoreboard.findIdx? s.wanted

/-- One more duplicate acknowledgement for a hole, with the block that ends at `fin`. -/
def dupHole (hole : SackHole) (fin : TCPSeq) (mss : Int) : SackHole :=
  { hole with
    dupAcks :=
      if rxmitThresh ≤ (fin - hole.finish).toInt.tdiv mss then rxmitThresh else hole.dupAcks + 1 }

/-- The loop over the holes for the block from `start` to `fin` (`streamScoreboard.cpp:139-225`).
    `count` is the number of holes of the scoreboard. The loop also adjusts `rxmitData`, which is
    counted anew at the end. -/
def sackLoop (mss : Int) (start fin : TCPSeq) :
    (fuel count : Nat) → List SackHole → TCPSeq → List SackHole × TCPSeq
  | 0, _, holes, lastSack => (holes, lastSack)
  | _, _, [], lastSack => ([], lastSack)
  | fuel + 1, count, hole :: holes, lastSack =>
      let next (first : List SackHole) (count : Nat) (holes : List SackHole) (lastSack : TCPSeq) :=
        let rest := sackLoop mss start fin fuel count holes lastSack
        (first ++ rest.1, rest.2)
      if seqLe fin hole.start then (hole :: holes, lastSack)
      else if seqLe hole.finish start then next [dupHole hole fin mss] count holes lastSack
      else if seqLe start hole.start then
        if seqLe hole.finish fin then next [] (count - 1) holes lastSack
        else next [{ hole with start := fin, rxmit := seqMax hole.rxmit fin }] count holes lastSack
      else
        let left := dupHole { hole with finish := start, rxmit := seqMin hole.rxmit start } fin mss
        let right := { hole with start := fin, rxmit := seqMax hole.rxmit fin }
        if seqLe hole.finish fin then next [left] count holes lastSack
        else if count < asbMax then next [left, right] (count + 1) holes lastSack
        else
          -- the table is full, and the last hole is given up
          match holes.getLast? with
          | some last => next [left, right] count holes.dropLast last.start
          | none => ([left], fin)

/-- The duplicate acknowledgements a new hole starts with. -/
def newDupAcks (octets mss : Int) : Int :=
  max 1 (min rxmitThresh (octets.tdiv mss))

/-- `updateScoreboard` for one block of the option (`streamScoreboard.cpp:103-246`). -/
def updateBlock (s : StreamReceiver) (ack start fin : TCPSeq) : StreamReceiver :=
  if seqLe fin start ∨ seqLe fin s.sendUna ∨ seqLe start ack ∨ seqLt s.sendMax fin then s
  else
    let s := if seqLt s.sendFack fin then { s with sendFack := fin } else s
    if s.scoreboard = [] then
      { s with
        scoreboard := [⟨ack, start, newDupAcks (fin - start).toInt s.mss, ack⟩]
        lastSack := fin }
    else
      let (holes, lastSack) :=
        sackLoop s.mss start fin s.scoreboard.length s.scoreboard.length s.scoreboard s.lastSack
      if seqLt lastSack start ∧ holes.length < asbMax then
        { s with
          scoreboard :=
            holes ++ [⟨lastSack, start, newDupAcks (fin - start).toInt s.mss, lastSack⟩]
          lastSack := fin }
      else { s with scoreboard := holes, lastSack := lastSack }

/-- `updateScoreboard` (`streamScoreboard.cpp:88-255`). -/
def updateScoreboard (s : StreamReceiver) (ack : TCPSeq) (blocks : List (TCPSeq × TCPSeq)) :
    StreamReceiver :=
  if s.sack = false ∨ seqLt s.sendMax ack ∨ seqLt ack s.sendUna then s
  else
    let s := blocks.foldl (fun s b => s.updateBlock ack b.1 b.2) s
    let rxmitData := (s.scoreboard.map fun hole => (hole.rxmit - hole.start).toInt).sum
    { s with
      rxmitData := rxmitData
      sendAwin := (s.sendNext - s.sendFack).toInt + rxmitData }

/-! ## Output -/

/-- `getSendableWithSyn` (`streamOutput.cpp:85-98`). -/
def getSendableWithSyn (s : StreamReceiver) : Int × Flags :=
  if s.sendNext ≠ s.iss then (0, {}) else (1 + s.sendRing.getUsed, { syn := true })

/-- The persist part of `getSendable` (`streamOutput.cpp:103-125`). -/
def persistState (s : StreamReceiver) : StreamReceiver :=
  if s.sendWin = 0 ∧ 0 < s.sendRing.getUsed then
    { s with
      onxt := if s.rxmitTimer.isNone then s.sendUna else s.onxt
      sendNext := if s.rxmitTimer.isNone then s.sendUna else s.sendNext
      rttTiming := 0
      sendRecover := s.sendMax
      dupAcks := 0
      hole := none
      scoreboard := []
      sendFack := s.sendUna
      rxmitData := 0
      sendAwin := 0
      fastRxmit := false }
  else s

/-- The hole that `hole` points to. -/
def currentHole (s : StreamReceiver) : Option SackHole :=
  s.hole.bind fun i => s.scoreboard[i]?

/-- The recovery part of `getSendable` (`streamOutput.cpp:127-150`). -/
def recoverNext (s : StreamReceiver) : StreamReceiver :=
  if rxmitThresh ≤ s.dupAcks then
    if s.sack then
      let s := { s with hole := s.getSackHole }
      match s.currentHole with
      | some hole => { s with sendNext := hole.rxmit }
      | none => s
    else if s.fastRxmit then { s with sendNext := s.sendUna }
    else s
  else s

/-- `getSendable` (`streamOutput.cpp:100-161`). -/
def getSendable (s : StreamReceiver) : Int × StreamReceiver :=
  let s := s.persistState.recoverNext
  let sendable : Int := s.sendRing.getUsed - (s.sendNext - s.sendUna).toInt
  match s.currentHole with
  | some hole => (min sendable (hole.finish - hole.rxmit).toInt, s)
  | none => (sendable, s)

/-- `getSendableWithFin` (`streamOutput.cpp:163-179`). For a hole, the flags stay what they were on
    the stack of the caller. -/
def getSendableWithFin (s : StreamReceiver) (stack : Flags) : Int × Flags × StreamReceiver :=
  let (sendable, s) := s.getSendable
  if sendable < 0 then (0, {}, s)
  else if s.hole.isNone then (sendable + 1, { fin := true }, s)
  else (sendable, stack, s)

/-- `countOptionSize` (`streamOutput.cpp:20-44`). -/
def countOptionSize (s : StreamReceiver) (flag : Flags) : Nat :=
  let optlen :=
    if flag.syn then 4 + 2
    else if s.sack && !flag.rst && flag.ack && !s.asb.isEmpty then 2 + 8 * s.asb.length
    else 0
  (optlen + 3) / 4 * 4

/-- The window that `send` uses (`streamOutput.cpp:248-264`). -/
def openedWindow (s : StreamReceiver) : Int :=
  if s.dupAcks = limitedThresh ∨ (rxmitThresh ≤ s.dupAcks ∧ s.sack) then s.sendWin
  else min s.sendWin s.cWin

/-- A closed window makes way for a window probe (`streamOutput.cpp:266-275`). -/
def probeWindow (s : StreamReceiver) (flag : Flags) : Int × StreamReceiver :=
  if s.openedWindow = 0 ∧ s.rxmitTimer.isNone then
    (1, { s with persist := true, ackNow := s.ackNow || !flag.syn })
  else (s.openedWindow, s)

/-- How much of the window is usable (`streamOutput.cpp:277-302`). -/
def useable (s : StreamReceiver) (win : Int) : Int :=
  let useable := (s.sendUna.add win - s.sendNext).toInt
  let useable :=
    if s.sack ∧ rxmitThresh ≤ s.dupAcks ∧ s.fastRxmit = false ∧ s.cWin - s.sendAwin < s.mss then 0
    else useable
  if s.dupAcks = limitedThresh then min useable (max 0 (s.cWin + 2 * s.mss - s.sendAwin))
  else useable

/-- The part of `send` that waits for a timer (`streamOutput.cpp:323-342`). -/
def postpone (s : StreamReceiver) (len : Int) : StreamReceiver :=
  let s := if seqLt s.sendNext s.onxt then { s with sendNext := s.onxt } else s
  let s := if 0 < len then s.startRxmitTimer else s
  if seqLt s.recvAcked s.recvNext then s.startAckTimer else s

/-- The segment that `send` makes (`streamOutput.cpp:344-417`), and the changes on the way. -/
def makeSegment (s : StreamReceiver) (len : Int) (flag : Flags) (oob : Bool) :
    Sent × StreamReceiver :=
  let count := len - (if flag.syn then 1 else 0) - (if flag.fin then 1 else 0)
  let text :=
    if 0 < len ∧ 0 < count then s.sendRing.peek count (s.sendNext - s.sendUna).toInt.toNat else []
  let recvAcked := if s.state = .synReceived then s.irs + 1 else s.recvNext
  let seq := if 0 < len then s.sendNext else s.sendMax
  let sendUp := if oob then seq.add len else s.sendUp
  let urgent := decide (seqLt seq sendUp)
  let offset := (sendUp - seq).toInt
  ({ seq := seq
     ack := recvAcked
     flag := { flag with urg := flag.urg || urgent, ack := flag.ack || decide (s.state ≠ .synSent) }
     win := BitVec.ofInt 16 s.recvWin
     urg := if urgent then (if 65495 < offset then 65535 else offset.toNat) else 0
     len := len
     text := text },
    stopAckTimer
      { s with
        recvAcked := recvAcked
        sendUp := if urgent then sendUp else s.sendUna
        ackNow := false })

/-- The raising of `sendMax` (`streamOutput.cpp:423-447`). A window probe does not raise it. -/
def raiseSendMax (s : StreamReceiver) (seq : TCPSeq) : StreamReceiver :=
  if seqLt s.sendMax s.sendNext then
    { s with
      sendMax := if seqLe s.sendNext (s.sendUna.add s.sendWin) then s.sendNext else s.sendMax
      rttTiming := if s.rttTiming ≠ 0 then s.now else s.rttTiming
      rttSeq := if s.rttTiming ≠ 0 then seq else s.rttSeq }
  else s

/-- The scoreboard after `len` octets of the current hole have been sent
    (`streamOutput.cpp:459-468`). -/
def advanceHole (s : StreamReceiver) (len : Int) : StreamReceiver :=
  match s.hole with
  | some i =>
      { s with
        scoreboard := s.scoreboard.modify i fun hole => { hole with rxmit := hole.rxmit.add len }
        rxmitData := s.rxmitData + len }
  | none => s

/-- The part of `send` after the segment is made (`streamOutput.cpp:419-484`). -/
def sent (s : StreamReceiver) (len : Int) (seq : TCPSeq) : StreamReceiver :=
  let s := raiseSendMax { s with sendNext := s.sendNext.add len } seq
  let s := if s.sendNext ≠ s.sendUna then s.startRxmitTimer else s
  let s := s.advanceHole len
  { s with
    sendAwin := (s.sendMax - s.sendFack).toInt + s.rxmitData
    fastRxmit := false
    sendNext := if seqLt s.sendNext s.onxt then s.onxt else s.sendNext
    lastSend := s.now }

/-- PSH for the last of the data (`streamOutput.cpp:306-310`). -/
def pushFlag (s : StreamReceiver) (len sendable : Int) (flag : Flags) : Flags :=
  if 0 < len ∧ len = sendable ∧ s.hole.isNone ∧ !(flag.syn || flag.rst || flag.fin) then
    { flag with psh := true }
  else flag

/-- How much `send` sends, and with which flags (`streamOutput.cpp:304-315`). -/
def sendLength (s : StreamReceiver) (sendable win : Int) (flag : Flags) : Int × Flags :=
  let len := min (s.mss - s.countOptionSize flag) (min sendable (s.useable win))
  let flag := s.pushFlag len sendable flag
  (len, if flag.fin ∧ len < sendable then { flag with fin := false } else flag)

/-- `send` (`streamOutput.cpp:243-487`). `oob` is set for urgent data. -/
def send (s : StreamReceiver) (sendable : Int) (flag : Flags) (oob : Bool) :
    Option Sent × StreamReceiver :=
  let optlen := s.countOptionSize flag
  let (win, s) := s.probeWindow flag
  let (len, flag) := s.sendLength sendable win flag
  if len ≤ 0 ∧ flag = {} ∧ s.ackNow = false then (none, s)
  else
    let (can, s) := s.canSend len (s.mss - optlen) flag
    if can then
      let (segment, s) := s.makeSegment len flag oob
      (some segment, s.sent len segment.seq)
    else (none, s.postpone len)

/-- The `output` of the states (`streamOutput.cpp:489-560`). -/
def State.output (s : StreamReceiver) (stack : Flags) (oob : Bool) :
    Option Sent × StreamReceiver :=
  match s.state with
  | .closed | .listen => (none, s)
  | .synSent | .synReceived =>
      let (count, flag) := s.getSendableWithSyn
      s.send count flag oob
  | .established | .finWait2 | .closeWait =>
      let (count, s) := s.getSendable
      s.send count {} oob
  | .finWait1 | .lastAck | .closing | .timeWait =>
      let (count, flag, s) := s.getSendableWithFin stack
      s.send count flag oob

/-- `output` (`stream.cpp:134-143`). -/
def output (s : StreamReceiver) (stack : Flags) (oob : Bool) : Option Sent × StreamReceiver :=
  State.output { s with hole := none, onxt := s.sendNext } stack oob

/-- `hasBeenEstablished` (`stream.h`). -/
def State.hasBeenEstablished : State → Bool
  | .closed | .listen | .synSent | .synReceived => false
  | _ => true

/-- `getDefaultMSS` (`stream.cpp:82-97`). -/
def getDefaultMSS (s : StreamReceiver) : Int :=
  match s.socket with
  | some socket => if socket.ipv4 then 576 - 20 - 20 else 1280 - 40 - 20
  | none => 0

/-- What `expired` does to the connection that goes on (`streamTimer.cpp:157-199`). -/
def backOff (s : StreamReceiver) : StreamReceiver :=
  let s := cutThresh { s with sendNext := s.sendUna, rttTiming := 0 }
  { s with
    cWin := s.mss
    dupAcks := 0
    sendRecover := s.sendMax
    scoreboard := []
    sendFack := s.sendUna
    rxmitData := 0
    sendAwin := 0 }

/-- The count of the timeouts, and the smaller segments after the fourth of them
    (`streamTimer.cpp:108-132`). -/
def countTimeout (s : StreamReceiver) : StreamReceiver :=
  let count := min (s.rxmitCount + 1) 16
  { s with
    rxmitCount := count
    rto := min (s.rto * 2) rttMax
    mss :=
      if s.persist = false ∧ count = 4 ∧ State.hasBeenEstablished s.state then
        min s.getDefaultMSS s.mss
      else s.mss }

/-- The connection is given up (`streamTimer.cpp:134-162`). -/
def timedOut (s : StreamReceiver) : Bool :=
  if s.persist then decide (persistMax ≤ s.now - s.r0)
  else decide (3 < s.rxmitCount ∧ s.r2 ≤ s.now - s.r0)

/-- `expired` (`streamTimer.cpp:92-215`), up to the output of the segment it sends when it answers
    `true`. The timer is no longer enabled when it runs. -/
def expired (s : StreamReceiver) : Bool × StreamReceiver :=
  let s := { s with rxmitTimer := none }
  if s.socket.isNone then (false, s)
  else if s.state = .timeWait then (false, s.abort)
  else
    let s := s.countTimeout
    if s.timedOut then (false, abort { s with err := s.err.or (some .etimedout) })
    else (true, s.backOff)

/-- `delayedAck` (`streamTimer.cpp:234-262`), up to the output it asks for. -/
def delayedAck (s : StreamReceiver) : Bool × StreamReceiver :=
  let s := { s with ackTimer := none }
  if s.socket.isSome ∧ seqLt s.recvAcked s.recvNext then (true, { s with ackNow := true })
  else (false, s)

end StreamReceiver

end EsOs.Net
