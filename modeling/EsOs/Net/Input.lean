import EsOs.Net.Sender

/-!
# The input of a TCP connection

Acknowledgements, header options and what each state does with an arriving segment
(`os/net/src/streamInput.cpp`), and what the user of the socket can ask for
(`os/net/src/stream.cpp`). The state `listen` makes a new connection for a segment and is not part
of this module.
-/

namespace EsOs.Net

/-- The header of an arriving segment. `opt` is what follows the first 20 bytes. -/
structure TCPHdr where
  seq : TCPSeq
  ack : TCPSeq
  flag : Flags
  win : BitVec 16
  urg : BitVec 16
  hdrSize : Nat
  opt : List UInt8

namespace StreamReceiver

/-! ## Options -/

/-- The big-endian number in the first bytes. -/
def bigEndian (bytes : List UInt8) : Nat :=
  bytes.foldl (fun n b => n * 256 + b.toNat) 0

/-- The blocks of a SACK option, after its kind and its length. -/
def sackBlocks : (count : Nat) → List UInt8 → List (TCPSeq × TCPSeq)
  | 0, _ => []
  | count + 1, bytes =>
      (BitVec.ofNat 32 (bigEndian (bytes.take 4)),
        BitVec.ofNat 32 (bigEndian ((bytes.drop 4).take 4))) ::
        sackBlocks count (bytes.drop 8)

/-- The loop of `option` over the options that are left (`streamInput.cpp:564-623`): whether all of
    them are right, and the maximum segment size they give. -/
def optionLoop (hdr : TCPHdr) :
    (fuel : Nat) → (optlen : Int) → List UInt8 → (mss : Int) → StreamReceiver →
      Bool × Int × StreamReceiver
  | 0, _, _, mss, s => (true, mss, s)
  | fuel + 1, optlen, opt, mss, s =>
      let kind := opt.getD 0 0
      if optlen ≤ 0 ∨ kind = 0 then (decide (0 ≤ optlen), mss, s)
      else if kind = 1 then optionLoop hdr fuel (optlen - 1) (opt.drop 1) mss s
      else if optlen < 2 then (false, mss, s)
      else
        let len := (opt.getD 1 0).toNat
        if len < 2 ∨ optlen < len then (false, mss, s)
        else
          let next (mss : Int) (s : StreamReceiver) :=
            optionLoop hdr fuel (optlen - len) (opt.drop len) mss s
          if kind = 2 then
            let value : Int := bigEndian ((opt.drop 2).take 2)
            if len ≠ 4 ∨ hdr.flag.syn = false ∨ value ≤ 0 then (false, mss, s)
            else next value s
          else if kind = 4 then
            if len ≠ 2 ∨ hdr.flag.syn = false then (false, mss, s)
            else next mss { s with sack := true }
          else if kind = 5 then
            if (len - 2) % 8 ≠ 0 then (false, mss, s)
            else next mss (s.updateScoreboard hdr.ack (sackBlocks ((len - 2) / 8) (opt.drop 2)))
          else next mss s

/-- `option` (`streamInput.cpp:556-639`). -/
def option (s : StreamReceiver) (hdr : TCPHdr) : Bool × StreamReceiver :=
  let optlen : Int := hdr.hdrSize - 20
  let (ok, mss, s) := optionLoop hdr (hdr.hdrSize + 1) optlen hdr.opt s.getDefaultMSS s
  if ok = false ∨ optlen < 0 then (false, s)
  else if hdr.flag.syn then
    let s := { s with mss := min s.mss mss }
    (true, { s with cWin := 2 * s.mss, ssThresh := defSsthresh })
  else (true, s)

/-! ## Acknowledgements -/

/-- `while (mss <= cAcked)` (`streamInput.cpp:216-220`). With a positive `mss` the fuel is enough. -/
def addBack (mss : Int) : (fuel : Nat) → (cAcked cWin : Int) → Int × Int
  | 0, cAcked, cWin => (cAcked, cWin)
  | fuel + 1, cAcked, cWin =>
      if mss ≤ cAcked then addBack mss fuel (cAcked - mss) (cWin + mss) else (cAcked, cWin)

/-- `while (cWin <= cAcked)` (`streamInput.cpp:235-239`). With a positive `mss` the fuel is
    enough. -/
def growWindow (mss : Int) : (fuel : Nat) → (cAcked cWin : Int) → Int × Int
  | 0, cAcked, cWin => (cAcked, cWin)
  | fuel + 1, cAcked, cWin =>
      if cWin ≤ cAcked then growWindow mss fuel (cAcked - cWin) (cWin + mss) else (cAcked, cWin)

/-- `openWindow` (`streamInput.cpp:186-247`). -/
def openWindow (s : StreamReceiver) (ack : TCPSeq) : StreamReceiver :=
  let acked := (ack - s.sendUna).toInt
  if rxmitThresh ≤ s.dupAcks then
    if s.sack then s
    else
      let cAcked := s.cAcked + acked
      let (cAcked, cWin) := addBack s.mss cAcked.toNat cAcked (s.cWin - acked)
      { s with cAcked := cAcked, cWin := cWin }
  else
    let s : StreamReceiver :=
      if s.cWin < s.ssThresh then
        let cWin := s.cWin + min acked s.mss
        { s with cWin := cWin, cAcked := if s.ssThresh ≤ cWin then 0 else s.cAcked }
      else
        let cAcked := s.cAcked + acked
        let (cAcked, cWin) :=
          growWindow s.mss (4 * s.cWin.natAbs + cAcked.natAbs + 4) cAcked s.cWin
        { s with cAcked := cAcked, cWin := cWin }
    if 65535 < s.cWin then { s with cWin := 65535 } else s

/-- What `ack` does with a duplicate acknowledgement it counts (`streamInput.cpp:272-346`). -/
def duplicateAck (s : StreamReceiver) (ack : TCPSeq) : StreamReceiver :=
  let s := { s with dupAcks := s.dupAcks + 1 }
  if rxmitThresh < s.dupAcks then
    if s.sack then s else { s with cWin := s.cWin + s.mss }
  else if s.dupAcks = rxmitThresh ∨
      (s.sack ∧ rxmitThresh * s.mss < (s.sendFack - s.sendUna).toInt) then
    if seqLe ack (s.sendRecover - 1) then { s with dupAcks := 0 }
    else
      let s := s.cutThresh
      let s := resetRxmitTimer { s with sendRecover := s.sendMax, fastRxmit := true, rttTiming := 0 }
      if s.sack then { s with dupAcks := rxmitThresh, cWin := s.ssThresh }
      else { s with cWin := s.ssThresh + 3 * s.mss, cAcked := 0 }
  else if s.dupAcks = limitedThresh ∨ s.sack ∨
      limitedThresh * s.mss < (s.sendFack - s.sendUna).toInt then
    if seqLe ack (s.sendRecover - 1) then { s with dupAcks := 0 }
    else { s with dupAcks := limitedThresh }
  else s

/-- The congestion control for an acknowledgement of new data (`streamInput.cpp:352-400`). -/
def newAck (s : StreamReceiver) (ack : TCPSeq) : StreamReceiver :=
  if rxmitThresh ≤ s.dupAcks then
    let s := { s with rttTiming := 0 }
    if seqLt ack s.sendRecover then
      let s :=
        if s.dupAcks = rxmitThresh then
          resetRxmitTimer { s with fastRxmit := true, dupAcks := s.dupAcks + 1 }
        else { s with fastRxmit := true, dupAcks := s.dupAcks + 1 }
      s.openWindow ack
    else if s.sack then { s with cWin := min s.ssThresh (s.sendAwin + s.mss), dupAcks := 0 }
    else
      { s with cWin := min s.ssThresh ((s.sendMax - ack).toInt + s.mss), dupAcks := 0 }
  else
    openWindow (resetRxmitTimer { s with dupAcks := 0 }) ack

/-- The send sequence variables after `sendUna` has moved (`streamInput.cpp:402-423`). -/
def advanceUna (s : StreamReceiver) (ack : TCPSeq) : StreamReceiver :=
  let s :=
    { s with
      sendUna := ack
      sendRecover := if seqLt s.sendRecover ack then ack else s.sendRecover
      sendNext := if seqLt s.sendNext ack then ack else s.sendNext }
  if seqLt s.sendFack ack then
    { s with sendFack := ack, sendAwin := (s.sendNext - ack).toInt + s.rxmitData }
  else s

/-- The update of the send window (`streamInput.cpp:453-463`). -/
def updateSendWin (s : StreamReceiver) (seq ack : TCPSeq) (win : Int) : StreamReceiver :=
  if seqLt s.sendWL1 seq ∨ (s.sendWL1 = seq ∧ seqLe s.sendWL2 ack) ∨
      (s.sendWL2 = ack ∧ s.sendWin < win) then
    { s with sendWin := win, sendWL1 := seq, sendWL2 := ack, sendMaxWin := max s.sendMaxWin win }
  else s

/-- The persist state after an acknowledgement (`streamInput.cpp:465-480`). -/
def checkPersist (s : StreamReceiver) : StreamReceiver :=
  let s :=
    if s.sendWin = 0 ∧ 0 < s.sendRing.getUsed then
      resetRxmitTimer { s with persist := true, r0 := s.now }
    else { s with persist := false }
  if s.sendUna = s.sendMax then s.stopRxmitTimer else s

/-- `ack` (`streamInput.cpp:249-472`): "return true if FIN is acked". `sent` is the number of octets
    that leave the send buffer. -/
def ack (s : StreamReceiver) (seq ack : TCPSeq) (win sent len : Int) : Bool × StreamReceiver :=
  if seqLe ack s.sendUna then
    if s.dupAcks < rxmitThresh ∧ s.sendUna = s.sendMax then (true, { s with dupAcks := 0 })
    else if s.dupAcks < rxmitThresh ∧ (win ≠ s.sendWin ∨ len ≠ 0 ∨ ack ≠ s.sendUna) then (true, s)
    else (true, s.duplicateAck ack)
  else
    let s := (s.newAck ack).advanceUna ack
    let sendLen : Int := s.sendRing.getUsed
    let finAcked := decide (sendLen < sent)
    let sent := if finAcked then sent - 1 else sent
    let s :=
      if 0 < sent ∧ 0 < sendLen then
        { s with sendRing := (s.sendRing.skip (min sent sendLen)).2 }
      else s
    let s :=
      if s.rttTiming ≠ 0 ∧ seqLt s.rttSeq ack then s.updateRto (s.now - s.rttTiming) else s
    (finAcked, (s.updateSendWin seq ack win).checkPersist)

/-! ## The states -/

/-- `reset` (`stream.h:498-517`). -/
def reset (s : StreamReceiver) (seq : TCPSeq) (err : Option Errno) : StreamReceiver :=
  if s.inWindow seq then abort { s with err := err.or s.err } else s

/-- The segment that `input` takes from a message. -/
def segment (hdr : TCPHdr) (m : List UInt8) : Segment :=
  ⟨hdr.flag, hdr.seq, hdr.urg.toNat, getSegmentLength m.length hdr.hdrSize hdr.flag, hdr.hdrSize⟩

/-- What the checks of an `input` decide: it is over, with a segment to send or not, or the rest of
    the segment is processed. -/
inductive Checked
  | stop (reply : Bool) (s : StreamReceiver)
  | go (g : Segment) (s : StreamReceiver)

/-- The checks with which `input` begins from `StateEstablished` on, as in
    `streamInput.cpp:999-1034`. -/
def check (s : StreamReceiver) (hdr : TCPHdr) (m : List UInt8) (err : Option Errno) : Checked :=
  if hdr.flag.rst then .stop false (s.reset hdr.seq err)
  else
    let (accepted, g, s) := s.trim (segment hdr m)
    if accepted = false then .stop true s
    else if g.flag.syn then .stop false s.abort
    else if g.flag.ack = false then .stop false s
    else if seqLt s.sendMax hdr.ack then .stop true { s with ackNow := true }
    else
      let (ok, s) := s.option hdr
      if ok then .go g s else .stop false s

/-- `ack` for a segment that passed the checks. -/
def ackSegment (s : StreamReceiver) (hdr : TCPHdr) (g : Segment) : Bool × StreamReceiver :=
  s.ack g.seq hdr.ack hdr.win.toNat (hdr.ack - s.sendUna).toInt g.len

/-- FIN is received: `++recvNext`, and an acknowledgement is due. -/
def finReceived (s : StreamReceiver) : StreamReceiver :=
  { s with recvNext := s.recvNext + 1, ackNow := true }

/-- The end of an `input`: urgent data, text, and FIN, after which the state is `next`. -/
def textAndFin (s : StreamReceiver) (m : List UInt8) (g : Segment)
    (next : StreamReceiver → State) : Bool × StreamReceiver :=
  let s := if g.flag.urg then s.urg g else s
  let (ok, g, s) := s.text m g
  if ok = false then (false, s)
  else if g.flag.fin then (true, s.finReceived.setState (next s.finReceived))
  else (true, s)

/-- The new connection that `StateListen::input` makes for a SYN (`streamInput.cpp:689-735`), up to
    the check of the backlog: whether its options are right. -/
def child (socket : Socket) (now : Int) (hdr : TCPHdr) (isn : TCPSeq) (mtu : Int) :
    Bool × StreamReceiver :=
  let s := create socket now
  let mss := if socket.ipv4 then mtu - 20 - 20 else mtu - 40 - 20
  let s :=
    { s with
      mss := mss
      cWin := 2 * mss
      ssThresh := defSsthresh
      iss := isn
      recvAcked := hdr.seq
      irs := hdr.seq
      recvNext := hdr.seq + 1
      recvUp := hdr.seq + 1
      sendUna := isn
      sendNext := isn
      sendMax := isn
      sendUp := isn
      lastSack := isn
      sendFack := isn
      sendRecover := isn
      rxmitData := 0
      sendAwin := 0 }
  let (ok, s) := s.option hdr
  if ok then (true, s.setState .synReceived) else (false, s.abort)

/-- The peer's SYN gives the receive sequence numbers (`streamInput.cpp:779-780`). -/
def takeSyn (s : StreamReceiver) (seq : TCPSeq) : StreamReceiver :=
  { s with recvUp := seq + 1, recvNext := seq + 1, recvAcked := seq, irs := seq }

/-- The step of a `synSent` connection to `established` or to `synReceived`
    (`streamInput.cpp:788-822`). -/
def answered (s : StreamReceiver) (hdr : TCPHdr) : StreamReceiver :=
  if hdr.flag.ack ∧ seqLt s.iss hdr.ack then
    let s :=
      if s.rttTiming ≠ 0 ∧ seqLt s.rttSeq hdr.ack then s.updateRto (s.now - s.rttTiming) else s
    let una := s.sendUna + 1
    let s :=
      setState
        { s with sendUna := una, sendNext := if seqLt s.sendNext una then una else s.sendNext }
        .established
    { s with
      sendWin := hdr.win.toNat
      sendWL1 := hdr.seq
      sendWL2 := hdr.ack
      sendMaxWin := hdr.win.toNat
      ackNow := true }
  else { s.setState .synReceived with sendNext := s.sendUna }

/-- The rest of the segment with the peer's SYN (`streamInput.cpp:824-856`). -/
def afterSyn (s : StreamReceiver) (hdr : TCPHdr) (m : List UInt8) : Bool × StreamReceiver :=
  let (accepted, g, s) := s.trim (segment hdr m)
  if accepted = false then (true, s)
  else if g.flag.ack = false then (false, s)
  else if seqLt s.sendMax hdr.ack then (true, { s with ackNow := true })
  else
    let (_, s) := s.ackSegment hdr g
    s.textAndFin m g fun _ => .closeWait

/-- `StateSynSent::input` (`streamInput.cpp:744-856`). -/
def StateSynSent.input (s : StreamReceiver) (hdr : TCPHdr) (m : List UInt8) :
    Bool × StreamReceiver :=
  if hdr.flag.ack ∧ (seqLe hdr.ack s.iss ∨ seqLt s.sendMax hdr.ack) then (false, s)
  else if hdr.flag.rst then
    if hdr.flag.ack then (false, abort { s with err := some .econnreset }) else (false, s)
  else if hdr.flag.syn = false then (false, s)
  else
    let (ok, s) := (s.takeSyn hdr.seq).option hdr
    if ok then (s.answered hdr).afterSyn hdr m else (false, s)

/-- An acknowledgement in `StateSynReceived::input` (`streamInput.cpp:929-967`), up to the options:
    the number of acknowledged octets of the send buffer, and the connection. -/
def synAcked (s : StreamReceiver) (hdr : TCPHdr) (g : Segment) : Int × StreamReceiver :=
  let sent := (hdr.ack - s.sendUna).toInt
  if seqLt s.iss hdr.ack then
    let sent := if s.sendUna = s.iss then sent - 1 else sent
    let s := s.setState (if s.shutwr then .finWait1 else .established)
    (sent,
      { s with
        sendWin := hdr.win.toNat
        sendWL1 := g.seq
        sendWL2 := hdr.ack
        sendMaxWin := hdr.win.toNat })
  else (sent, s)

/-- The checks of `StateSynReceived::input` (`streamInput.cpp:890-927`). -/
def checkSyn (s : StreamReceiver) (hdr : TCPHdr) (m : List UInt8) : Checked :=
  if hdr.flag.ack ∧ (seqLt hdr.ack s.sendUna ∨ seqLt s.sendMax hdr.ack) then .stop false s
  else if seqLt hdr.seq s.irs then .stop false s
  else if hdr.flag.rst then .stop false (s.reset hdr.seq (some .econnrefused))
  else
    let (accepted, g, s) := s.trim (segment hdr m)
    if accepted = false then .stop true s
    else if g.flag.syn then .stop false s.abort
    else .go g s

/-- `StateSynReceived::input` (`streamInput.cpp:858-987`). What it tells a listening socket is not
    part of this definition. -/
def StateSynReceived.input (s : StreamReceiver) (hdr : TCPHdr) (m : List UInt8) :
    Bool × StreamReceiver :=
  match s.checkSyn hdr m with
  | .stop reply s => (reply, s)
  | .go g s =>
      if g.flag.ack then
        let (sent, s) := s.synAcked hdr g
        let (ok, s) := s.option hdr
        if ok = false then (false, s)
        else
          let (_, s) := s.ack g.seq hdr.ack hdr.win.toNat sent g.len
          s.textAndFin m g fun _ => .closeWait
      else s.textAndFin m g fun _ => .closeWait

/-- `StateEstablished::input` (`streamInput.cpp:989-1058`). -/
def StateEstablished.input (s : StreamReceiver) (hdr : TCPHdr) (m : List UInt8) :
    Bool × StreamReceiver :=
  match s.check hdr m (some .econnreset) with
  | .stop reply s => (reply, s)
  | .go g s =>
      let (_, s) := s.ackSegment hdr g
      s.textAndFin m g fun _ => .closeWait

/-- `StateFinWait1::input` (`streamInput.cpp:1060-1133`). -/
def StateFinWait1.input (s : StreamReceiver) (hdr : TCPHdr) (m : List UInt8) :
    Bool × StreamReceiver :=
  match s.check hdr m (some .econnreset) with
  | .stop reply s => (reply, s)
  | .go g s =>
      let (finAcked, s) := s.ackSegment hdr g
      let s := if finAcked then s.setState .finWait2 else s
      s.textAndFin m g fun s => if s.state = .finWait1 then .closing else .timeWait

/-- `StateFinWait2::input` (`streamInput.cpp:1135-1198`). -/
def StateFinWait2.input (s : StreamReceiver) (hdr : TCPHdr) (m : List UInt8) :
    Bool × StreamReceiver :=
  match s.check hdr m (some .econnreset) with
  | .stop reply s => (reply, s)
  | .go g s =>
      let (_, s) := s.ackSegment hdr g
      s.textAndFin m g fun _ => .timeWait

/-- `StateCloseWait::input` (`streamInput.cpp:1200-1247`). -/
def StateCloseWait.input (s : StreamReceiver) (hdr : TCPHdr) (m : List UInt8) :
    Bool × StreamReceiver :=
  match s.check hdr m (some .econnreset) with
  | .stop reply s => (reply, s)
  | .go g s => (true, (s.ackSegment hdr g).2)

/-- `StateLastAck::input` (`streamInput.cpp:1249-1303`). -/
def StateLastAck.input (s : StreamReceiver) (hdr : TCPHdr) (m : List UInt8) :
    Bool × StreamReceiver :=
  match s.check hdr m none with
  | .stop reply s => (reply, s)
  | .go g s =>
      let (finAcked, s) := s.ackSegment hdr g
      if finAcked then (false, abort { s with err := none }) else (true, s)

/-- `StateClosing::input` (`streamInput.cpp:1305-1358`). -/
def StateClosing.input (s : StreamReceiver) (hdr : TCPHdr) (m : List UInt8) :
    Bool × StreamReceiver :=
  match s.check hdr m none with
  | .stop reply s => (reply, s)
  | .go g s =>
      let (finAcked, s) := s.ackSegment hdr g
      (true, if finAcked then setState { s with err := none } .timeWait else s)

/-- `StateTimeWait::input` (`streamInput.cpp:1360-1429`). -/
def StateTimeWait.input (s : StreamReceiver) (hdr : TCPHdr) (m : List UInt8) :
    Bool × StreamReceiver :=
  if hdr.flag.rst = false ∧ hdr.flag.syn ∧ seqLe s.recvNext hdr.seq ∧ hdr.flag.ack = false then
    (false, s.abort)
  else
    match s.check hdr m none with
    | .stop reply s => (reply, s)
    | .go g s =>
        let (_, s) := s.ackSegment hdr g
        (true, resetRxmitTimer { s with rto := 2 * msl })

/-- The `input` of the states: whether a segment is to be sent. -/
def input (s : StreamReceiver) (hdr : TCPHdr) (m : List UInt8) : Bool × StreamReceiver :=
  match s.state with
  | .closed | .listen => (false, s)
  | .synSent => StateSynSent.input s hdr m
  | .synReceived => StateSynReceived.input s hdr m
  | .established => StateEstablished.input s hdr m
  | .finWait1 => StateFinWait1.input s hdr m
  | .finWait2 => StateFinWait2.input s hdr m
  | .closeWait => StateCloseWait.input s hdr m
  | .lastAck => StateLastAck.input s hdr m
  | .closing => StateClosing.input s hdr m
  | .timeWait => StateTimeWait.input s hdr m

/-! ## What the user asks for -/

/-- `write` once the connection is writable (`stream.cpp:297-311`). -/
def write (s : StreamReceiver) (data : List UInt8) : StreamReceiver :=
  match s.socket with
  | none => s
  | some socket =>
      let len := socket.sendBufferSize - s.sendRing.getUsed
      if len < 0 then s
      else { s with sendRing := (s.sendRing.write (data.take len.toNat)).2 }

/-- The `close` of the states (`stream.h`), which `close` and `shutdownOutput` call. -/
def State.close (s : StreamReceiver) : StreamReceiver :=
  match s.state with
  | .listen | .synSent => s.abort
  | .established => s.setState .finWait1
  | .closeWait => s.setState .lastAck
  | _ => s

/-- `close` (`stream.cpp:361-397`) up to the wait. Without blocking and timeout it aborts, unless the
    state has nothing to abort. -/
def close (s : StreamReceiver) : StreamReceiver :=
  match s.socket with
  | some ⟨_, _, _, false, 0⟩ => if s.state = .closed then s else s.abort
  | _ => State.close { s with shutrd := true, shutwr := true }

/-- `shutdownOutput` (`stream.cpp:399-421`). -/
def shutdownOutput (s : StreamReceiver) : StreamReceiver :=
  State.close { s with shutwr := true }

/-- `shutdownInput` (`stream.cpp:423-432`). -/
def shutdownInput (s : StreamReceiver) : StreamReceiver :=
  { s with shutrd := true }

/-- `StateClosed::connect` (`stream.cpp:434-475`) up to the output of the SYN. -/
def connect (s : StreamReceiver) (isn : TCPSeq) (mtu : Int) : StreamReceiver :=
  if s.state = .closed then
    let s := s.initRto
    setState
      { s with
        iss := isn
        sendUna := isn
        sendNext := isn
        sendMax := isn
        sendUp := isn
        sendFack := isn
        rxmitData := 0
        sendAwin := 0
        sendRecover := isn
        lastSack := isn
        mss :=
          match s.socket with
          | some socket => if socket.ipv4 then mtu - 20 - 20 else mtu - 40 - 20
          | none => 0 } .synSent
  else s

/-- `error` (`stream.cpp:145-157`). -/
def error (s : StreamReceiver) (code : Errno) : StreamReceiver :=
  if code = .enetunreach then s else abort { s with err := some code }

end StreamReceiver

end EsOs.Net
