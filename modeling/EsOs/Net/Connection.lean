import Mathlib
import EsOs.Lib.System
import EsOs.Net.Input
import EsOs.Net.Stream

/-!
# A connection and its runs

The steps of one `StreamReceiver`: arriving segments, output for whatever reason, the two timers,
and what the user asks for, in any order. Beside the connection stands what it has sent so far.
Octets are counted from `iss`, without wrapping, so that their order is the true one.
-/

namespace EsOs.Net

open EsOs.Lib

/-- What happens to a connection. -/
inductive ConnOp
  /-- A segment arrives: its header, and all of its bytes. -/
  | input (hdr : TCPHdr) (m : List UInt8)
  /-- A segment is to be sent. `stack` is what the stack holds where the flags will be. -/
  | output (stack : Flags) (oob : Bool)
  | expired
  | delayedAck
  | read (size : Int)
  | write (data : List UInt8)
  | close
  | shutdownOutput
  | shutdownInput
  | connect (isn : TCPSeq) (mtu : Int)
  | error (code : Errno)
  | tick (ticks : Nat)

/-- A segment with text, SYN or FIN that was sent: the count of the octet behind it, and whether it
    was a window probe, which ends behind the send window. -/
structure Transmitted where
  finish : Int
  probe : Bool
deriving DecidableEq

/-- A connection, the number of octets up to `sendMax`, the segments sent, and the number of the last
    FIN sent. -/
structure Connection where
  recv : StreamReceiver
  max : Int
  sent : List Transmitted
  fin : Option TCPSeq

namespace Connection

/-- The connection after a step that does not send. -/
def moved (c : Connection) (recv : StreamReceiver) : Connection :=
  { c with recv := recv, max := c.max + (recv.sendMax - c.recv.sendMax).toInt }

/-- The record of a segment that ends at `last`. -/
def transmitted (c : Connection) (last : TCPSeq) : Transmitted where
  finish := c.max + (last - c.recv.sendMax).toInt
  probe := !decide (seqLe last (c.recv.sendUna.add c.recv.sendWin))

/-- The connection after an output. -/
def emitted (c : Connection) (segment : Option Sent) (recv : StreamReceiver) : Connection :=
  match segment with
  | none => c.moved recv
  | some g =>
      if 0 < g.len then
        { c.moved recv with
          sent := c.transmitted (g.seq.add g.len) :: c.sent
          fin := if g.flag.fin then some (g.seq.add (g.len - 1)) else c.fin }
      else c.moved recv

def run (c : Connection) : ConnOp → Connection
  | .input hdr m => c.moved (c.recv.input hdr m).2
  | .output stack oob =>
      let (segment, recv) := c.recv.output stack oob
      c.emitted segment recv
  | .expired => c.moved c.recv.expired.2
  | .delayedAck => c.moved c.recv.delayedAck.2
  | .read size => c.moved (c.recv.read size).2
  | .write data => c.moved (c.recv.write data)
  | .close => c.moved c.recv.close
  | .shutdownOutput => c.moved c.recv.shutdownOutput
  | .shutdownInput => c.moved c.recv.shutdownInput
  | .connect isn mtu =>
      if c.recv.state = .closed then ⟨c.recv.connect isn mtu, 0, [], none⟩ else c
  | .error code => c.moved (c.recv.error code)
  | .tick ticks => c.moved { c.recv with now := c.recv.now + ticks }

/-- A new connection: one that will connect, or one that a listening socket made for a SYN whose
    options are right. -/
def Fresh (recv : StreamReceiver) : Prop :=
  ∃ (socket : Socket) (now : Int), 0 < socket.sendBufferSize ∧ socket.sendBufferSize < 2 ^ 30 ∧
    (recv = StreamReceiver.create socket now ∨
      ∃ hdr isn mtu, 68 ≤ mtu ∧
        (StreamReceiver.child socket now hdr isn mtu).1 = true ∧
        recv = (StreamReceiver.child socket now hdr isn mtu).2)

/-- All the runs of a connection. The path MTU of an address is 68 at least. -/
def system : System Connection ConnOp where
  init c := Fresh c.recv ∧ c.max = 0 ∧ c.sent = [] ∧ c.fin = none
  step c op c' := c' = c.run op ∧ ∀ isn mtu, op = .connect isn mtu → 68 ≤ mtu

theorem runWith_run {ok : Connection → ConnOp → Prop} {c : Connection} (h : system.RunWith ok c)
    (op : ConnOp) (hok : ok c op) (hmtu : ∀ isn mtu, op = .connect isn mtu → 68 ≤ mtu) :
    system.RunWith ok (c.run op) :=
  h.next hok ⟨rfl, hmtu⟩

end Connection

end EsOs.Net

/-!
## The receive path of a connection

An established connection receives the segments of a peer that sends one byte stream, in whatever
order and as often as the network delivers them, while the socket is read and segments are sent
that open the window. A session keeps the bytes that were read so far.
-/

namespace EsOs.Net

open EsOs.Lib

/-- The receive path for an arriving segment: `trim`, and then `text` if something is left. -/
def StreamReceiver.receive (s : StreamReceiver) (m : List UInt8) (g : Segment) : StreamReceiver :=
  let (accepted, g, s) := s.trim g
  if accepted then (s.text m g).2.2 else s

/-- A connection and the bytes read from it. -/
structure Session where
  out : List UInt8
  recv : StreamReceiver

/-- What happens to the receive path. -/
inductive SessionOp
  /-- A segment arrives whose text is the part of the stream from `p` on. -/
  | segment (p : Nat) (m : List UInt8) (g : Segment)
  | urg (g : Segment)
  | read (size : Int)
  | ringRead (count : Int)
  | canSend (len mss : Int) (flag : Flags)
  | shutdownInput

namespace Session

def run (s : Session) : SessionOp → Session
  | .segment _ m g => { s with recv := s.recv.receive m g }
  | .urg g => { s with recv := s.recv.urg g }
  | .read size =>
      let (data, recv) := s.recv.read size
      ⟨s.out ++ data, recv⟩
  | .ringRead count =>
      let (data, ring) := s.recv.recvRing.read count
      ⟨s.out ++ data, { s.recv with recvRing := ring }⟩
  | .canSend len mss flag => { s with recv := (s.recv.canSend len mss flag).2 }
  | .shutdownInput => { s with recv := { s.recv with shutrd := true } }

/-- The segment carries the part of `stream` from `p` on. SYN takes the number `irs` and comes
    before all of the stream. -/
structure Carries (stream : List UInt8) (irs : TCPSeq) (p : Nat) (m : List UInt8) (g : Segment) :
    Prop where
  offset_le : g.offset ≤ m.length
  len_eq : g.len = getSegmentLength m.length g.offset g.flag
  syn : g.flag.syn → p = 0
  seq_eq : g.seq = irs.add ((if g.flag.syn then 0 else 1) + p)
  text_eq : m.drop g.offset = (stream.drop p).take (m.length - g.offset)

/-- The receive path of a connection whose peer sends `stream`. -/
def system (stream : List UInt8) (irs : TCPSeq) : System Session SessionOp where
  init s :=
    s.out = [] ∧ s.recv.recvRing.used = 0 ∧ s.recv.recvRing.head < s.recv.recvRing.size ∧
      s.recv.recvRing.size < 2 ^ 31 ∧ s.recv.asb = [] ∧ s.recv.recvNext = irs.add 1 ∧
      0 ≤ s.recv.recvWin ∧ s.recv.recvWin ≤ s.recv.recvRing.getUnused
  step s op s' :=
    s' = s.run op ∧ ∀ p m g, op = .segment p m g → Carries stream irs p m g

/-- The position in the stream of the next byte to come: what was read and what can be read lies
    before it. -/
def position (s : Session) : Nat := s.out.length + s.recv.recvRing.used

/-- What has been read and can be read is the beginning of the stream, and `recvNext` numbers the
    byte behind it. -/
def InOrder (stream : List UInt8) (irs : TCPSeq) (s : Session) : Prop :=
  (s.out ++ (s.recv.recvRing.peek s.recv.recvRing.used 0)) <+: stream ∧
    s.recv.recvNext = irs.add (1 + s.position)

/-- The segment starts less than `2 ^ 31` octets before the next byte to come and ends less than
    `2 ^ 31` octets behind it. -/
def Near (s : Session) (p : Nat) (g : Segment) : Prop :=
  (s.position : Int) < p - (if g.flag.syn then 1 else 0) + 2 ^ 31 ∧
    p - (if g.flag.syn then 1 else 0) + g.len < s.position + 2 ^ 31

/-- By its 32-bit number the segment lies wholly before `recvNext` or wholly behind the window. -/
def Stray (s : StreamReceiver) (g : Segment) : Prop :=
  let old := (s.recvNext - g.seq).toInt
  (0 < old ∧ g.len ≤ old) ∨ (s.recvWin ≤ -old ∧ g.len - old - s.recvWin < 2 ^ 31)

/-- How many bytes the segment adds when it arrives with the next byte to come. -/
def added (s : Session) (p : Nat) (m : List UInt8) (g : Segment) : Nat :=
  min (p + (m.length - g.offset) - s.position) s.recv.recvWin.toNat

/-- The segment brings the next byte to come, and ends within or at the front of a block that was
    stored before and reaches further. -/
def Bridges (s : Session) (p : Nat) (m : List UInt8) (g : Segment) : Prop :=
  s.recv.shutrd = false ∧ p ≤ s.position ∧ 0 < s.added p m g ∧
    ∃ b ∈ s.recv.asb,
      s.recv.recvRing.pos s.recv.recvRing.tail b.data ≤ s.added p m g ∧
        s.added p m g < s.recv.recvRing.pos s.recv.recvRing.tail b.data + b.count

/-- The steps after which the session is sure to be in order. -/
def Plain (s : Session) : SessionOp → Prop
  | .segment p m g => Stray s.recv g ∨ (s.Near p g ∧ ¬ s.Bridges p m g)
  | _ => True

end Session

end EsOs.Net

/-!
## A listening socket

A `StreamReceiver` in the state `listen` makes a new one for each SYN, its child. It counts its
children: `parConn` those whose handshake is not complete, and `pendingConn` those that wait for
`accept` (`os/net/src/stream.cpp`, `os/net/src/streamInput.cpp`). A child is known by its number in
the order of creation; what a child does by itself is a step of its connection.
-/

namespace EsOs.Net

open EsOs.Lib

namespace StreamReceiver

/-- What a connection becomes in a step. -/
def after (s : StreamReceiver) (op : ConnOp) : StreamReceiver :=
  (Connection.run ⟨s, 0, [], none⟩ op).recv

/-- `StateSynReceived::input` finds SYN acknowledged and tells the listening socket
    (`streamInput.cpp:929-961`). -/
def synDone (s : StreamReceiver) : ConnOp → Bool
  | .input hdr m =>
      if s.state = .synReceived then
        match s.checkSyn hdr m with
        | .stop _ _ => false
        | .go g s => g.flag.ack && decide (seqLt s.iss hdr.ack)
      else false
  | _ => false

end StreamReceiver

/-- Steps that only the user of the socket takes. -/
def ConnOp.byUser : ConnOp → Bool
  | .read _ | .write _ | .close | .shutdownOutput | .shutdownInput | .connect _ _ => true
  | _ => false

/-- A child, and whether `accept` has given its socket to the user. -/
structure Child where
  recv : StreamReceiver
  given : Bool

/-- What a listening socket has of a `StreamReceiver`, and its children. -/
structure Listener where
  state : State
  backLogCount : Int
  parConn : Int
  pendingConn : Int
  accepted : List Nat
  children : List Child

inductive ListenOp
  /-- A segment arrives at the listening socket. The rest is what a new child is made of. -/
  | segment (hdr : TCPHdr) (m : List UInt8) (socket : Socket) (now : Int) (isn : TCPSeq)
      (mtu : Int)
  | child (i : Nat) (op : ConnOp)
  | accept
  | listen (backlog : Int)
  | abort

namespace Listener

/-- `StreamReceiver::MaxConn` (`stream.cpp:33`). -/
def maxConn : Int := 5

/-- `Socket::listen` (`socket.cpp:464-472`), with `setBackLogCount` (`stream.h:760-773`). -/
def listen (l : Listener) (backlog : Int) : Listener :=
  { l with
    state := .listen
    backLogCount := if backlog ≤ 0 then 1 else min backlog maxConn }

/-- `StateListen::input` (`streamInput.cpp:650-742`). The child goes on with the same segment. -/
def input (l : Listener) (hdr : TCPHdr) (m : List UInt8) (socket : Socket) (now : Int)
    (isn : TCPSeq) (mtu : Int) : Listener :=
  if hdr.flag.rst then l
  else if hdr.flag.ack then l
  else if hdr.flag.syn = false then l
  else
    let (ok, s) := StreamReceiver.child socket now hdr isn mtu
    if ok = false then l
    else if l.backLogCount ≤ l.parConn + l.pendingConn then l
    else
      { l with
        parConn := l.parConn + 1
        children := l.children ++ [⟨(s.input hdr m).2, false⟩] }

/-- The third segment of the handshake (`streamInput.cpp:951-961`). -/
def established (l : Listener) (i : Nat) : Listener :=
  { l with
    parConn := l.parConn - 1
    pendingConn := l.pendingConn + 1
    accepted := l.accepted ++ [i] }

/-- What `abort` of a child does with the listening socket (`stream.cpp:170-179`). -/
def aborted (l : Listener) (i : Nat) : Listener :=
  { l with accepted := l.accepted.erase i }

/-- A step of the child with the number `i`. -/
def childStep (l : Listener) (i : Nat) (c : Child) (op : ConnOp) : Listener :=
  let s := c.recv.after op
  let l := if c.recv.synDone op then l.established i else l
  let l := if s.state = .closed then l.aborted i else l
  { l with children := l.children.set i { c with recv := s } }

/-- `StateListen::accept` (`stream.cpp:473-495`) once there is something to accept. -/
def accept (l : Listener) : Listener :=
  match l.state, l.accepted with
  | .listen, i :: rest =>
      { l with
        pendingConn := l.pendingConn - 1
        accepted := rest
        children := l.children.modify i fun c => { c with given := true } }
  | _, _ => l

def run (l : Listener) : ListenOp → Option Listener
  | .segment hdr m socket now isn mtu =>
      -- a datagram has less than 64 KiB
      if m.length < 2 ^ 16 then
        some (if l.state = .listen then l.input hdr m socket now isn mtu else l)
      else none
  | .child i op =>
      match l.children[i]? with
      | none => none
      | some c => if op.byUser && !c.given then none else some (l.childStep i c op)
  | .accept => some l.accept
  | .listen backlog => some (l.listen backlog)
  | .abort => some { l with state := .closed }

/-- The runs of a listening socket, which begins without children. -/
def system : System Listener ListenOp :=
  .ofStep (fun l => l.parConn = 0 ∧ l.pendingConn = 0 ∧ l.accepted = [] ∧ l.children = []) run

end Listener

end EsOs.Net
