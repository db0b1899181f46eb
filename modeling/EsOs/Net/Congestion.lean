import Mathlib
import EsOs.Lib.System
import EsOs.Net.Connection
import EsOs.Net.Input

/-!
# Congestion control

What `ack`, `option`, `output` and `expired` do to the congestion window, in any order. Everything
else that happens to a connection leaves what congestion control keeps and looks at as it is.
-/

namespace EsOs.Net

open EsOs.Lib

/-- What congestion control keeps, and what it looks at (`stream.h:355-416`). -/
structure Congestion where
  mss : Int
  cWin : Int
  ssThresh : Int
  cAcked : Int
  dupAcks : Int
  sack : Bool
  socket : Option Socket
  sendUna : TCPSeq
  sendMax : TCPSeq
  sendFack : TCPSeq
  sendRecover : TCPSeq
  sendWin : Int
  sendAwin : Int
  rttTiming : Int
  srtt : Int
  rttDe : Int

namespace StreamReceiver

def congestion (s : StreamReceiver) : Congestion :=
  ⟨s.mss, s.cWin, s.ssThresh, s.cAcked, s.dupAcks, s.sack, s.socket, s.sendUna, s.sendMax,
    s.sendFack, s.sendRecover, s.sendWin, s.sendAwin, s.rttTiming, s.srtt, s.rttDe⟩

/-- A step of congestion control: an acknowledgement, the options of a segment, an output, a timeout,
    or anything else. -/
inductive CongestionOp
  | ack (seq ack : TCPSeq) (win sent len : Int)
  | option (hdr : TCPHdr)
  | output (stack : Flags) (oob : Bool)
  | expired
  | other (next : StreamReceiver)

def congestionStep (s : StreamReceiver) : CongestionOp → StreamReceiver
  | .ack seq ack win sent len => (s.ack seq ack win sent len).2
  | .option hdr => (s.option hdr).2
  | .output stack oob => (s.output stack oob).2
  | .expired => s.expired.2
  | .other next => next

/-- An acknowledgement that is processed is not newer than `sendMax`, as the checks of an `input` see
    to. -/
def CongestionAllowed (s : StreamReceiver) : CongestionOp → Prop
  | .ack _ ack _ _ _ => ¬ seqLt s.sendMax ack
  | .other next => next.congestion = s.congestion
  | _ => True

/-- The runs of a connection from the time when the options of a SYN have been processed. -/
def congestionSystem : System StreamReceiver CongestionOp where
  init s := s.socket.isSome ∧ 0 < s.mss ∧ s.mss ≤ 65535 ∧ s.cWin = 2 * s.mss ∧
    s.ssThresh = defSsthresh ∧ 0 ≤ s.cAcked
  step s op s' := s.CongestionAllowed op ∧ s' = s.congestionStep op

/-! ## The windows -/

/-- The windows are positive and in the range of an `s32`. -/
structure WindowsInRange (s : StreamReceiver) : Prop where
  cWin_pos : 0 < s.cWin
  cWin_lt : s.cWin < 2 ^ 31
  ssThresh_pos : 0 < s.ssThresh
  ssThresh_lt : s.ssThresh < 2 ^ 31

/-- The loops of `openWindow` for `acked` octets are over after finitely many turns: their conditions
    do not hold any longer when the fuel has been used. -/
def LoopsEnd (s : StreamReceiver) (acked : Int) : Prop :=
  let cAcked := s.cAcked + acked
  let grown := growWindow s.mss (4 * s.cWin.natAbs + cAcked.natAbs + 4) cAcked s.cWin
  ¬ s.mss ≤ (addBack s.mss cAcked.toNat cAcked (s.cWin - acked)).1 ∧ ¬ grown.2 ≤ grown.1

/-- The condition on an acknowledgement in fast recovery. Without SACK a duplicate inflates the
    window, and a partial acknowledgement adds back what is no whole segment; with SACK the
    acknowledgement that ends recovery finds a segment more than `sendAwin` to be positive. -/
def RecoveryOk (s : StreamReceiver) (ack : TCPSeq) : Prop :=
  if seqLe ack s.sendUna then s.sack = false → s.cWin + s.mss < 2 ^ 31
  else if seqLt ack s.sendRecover then
    s.sack = false →
      s.cWin + s.cAcked - (s.cAcked + (ack - s.sendUna).toInt) % s.mss < 2 ^ 31
  else s.sack = true → 0 < s.sendAwin + s.mss

/-- The condition on a step: an acknowledgement is not exactly half the circle away from `sendUna` or
    `sendMax`, and one in fast recovery is right for it. -/
def WindowOk (s : StreamReceiver) : CongestionOp → Prop
  | .ack _ ack _ _ _ =>
      ack - s.sendUna ≠ 0x80000000#32 ∧ ack - s.sendMax ≠ 0x80000000#32 ∧
        (rxmitThresh ≤ s.dupAcks → s.RecoveryOk ack)
  | _ => True

end StreamReceiver

end EsOs.Net

/-!
## Which text is timed

Beside a connection stands the text that was sent for the first time while no round trip was being
measured: whether it was sent again, whether the estimator of the round trip has changed since, and
whether it has been acknowledged in full.
-/

namespace EsOs.Net

open EsOs.Lib

/-- Text that was sent for the first time while `rttTiming` was zero. -/
structure Timed where
  start : TCPSeq
  finish : TCPSeq
  again : Bool
  sampled : Bool

/-- A connection with the timed text in flight, and the timed text that is acknowledged in full. -/
structure Timing where
  conn : Connection
  flying : List Timed
  acked : List Timed

/-- The estimator of the round trip (`updateRto`). -/
def StreamReceiver.estimator (s : StreamReceiver) : Int × Int := (s.srtt, s.rttDe)

namespace Timed

/-- The text overlaps a segment. -/
def Overlaps (e : Timed) (g : Sent) : Prop :=
  seqLt g.seq e.finish ∧ seqLt e.start (g.seq.add g.len)

instance (e : Timed) (g : Sent) : Decidable (e.Overlaps g) :=
  inferInstanceAs (Decidable (_ ∧ _))

end Timed

namespace Timing

/-- What is known of the text after a step that makes the connection `conn`. -/
def observe (t : Timing) (conn : Connection) (e : Timed) : Timed :=
  { e with sampled := e.sampled || decide (conn.recv.estimator ≠ t.conn.recv.estimator) }

/-- The text in flight after a segment: it is sent again where they overlap, and text that is all
    new is timed while nothing is measured. -/
def transmit (t : Timing) (g : Sent) (flying : List Timed) : List Timed :=
  let flying := flying.map fun e => { e with again := e.again || decide (e.Overlaps g) }
  if g.text ≠ [] ∧ ¬ seqLt g.seq t.conn.recv.sendMax ∧ t.conn.recv.rttTiming = 0 then
    ⟨g.seq, g.seq.add g.len, false, false⟩ :: flying
  else flying

/-- A step of the connection. -/
def run (t : Timing) (op : ConnOp) : Timing :=
  let conn := t.conn.run op
  let flying := t.flying.map (t.observe conn)
  match op with
  | .connect _ _ => if t.conn.recv.state = .closed then ⟨conn, [], []⟩ else { t with conn := conn }
  | .output stack oob =>
      match (t.conn.recv.output stack oob).1 with
      | some g => { t with conn := conn, flying := t.transmit g flying }
      | none => { t with conn := conn, flying := flying }
  | _ =>
      { conn := conn
        flying := flying.filter fun e => !decide (seqLe e.finish conn.recv.sendUna)
        acked := flying.filter (fun e => decide (seqLe e.finish conn.recv.sendUna)) ++ t.acked }

/-- All the runs of a connection with what is timed of it. -/
def system : System Timing ConnOp where
  init t := Connection.system.init t.conn ∧ t.flying = [] ∧ t.acked = []
  step t op t' := Connection.system.step t.conn op t'.conn ∧ t' = t.run op

/-- The estimator received a sample for all the timed text that was acknowledged in full without
    having been sent again, and for no other. -/
def Sampled (t : Timing) : Prop :=
  ∀ e ∈ t.acked, e.sampled = true ↔ e.again = false

end Timing

end EsOs.Net
