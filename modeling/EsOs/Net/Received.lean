import EsOs.Lib.Gather
import EsOs.Lib.System
import EsOs.Net.Proofs.Ring
import EsOs.Net.Ring
import EsOs.Net.Stream

/-!
# Receiving into a ring

What a receiver does with its ring: it writes at the end of the data and beyond it, and reads. All
that is written comes from one stream of bytes. Beside the ring the state counts the bytes that
were read and the parts of the stream that arrived, which the code does not keep.
-/

namespace EsOs.Net

open EsOs.Lib

/-- `count` bytes of a stream. -/
def slice (stream : Nat → UInt8) (pos count : Nat) : List UInt8 :=
  (List.range count).map fun i => stream (pos + i)

/-- A ring with its blocks, and its history: how many bytes were read, which parts of the stream
    were written, and whether a write beyond the data ever found all the entries for blocks in
    use. -/
structure Receiving where
  ring : Ring
  blocks : List Vec
  base : Nat
  received : List Extent
  full : Bool

/-- A call of the ring. The written bytes are those of the stream at their place. -/
inductive RingCall
  | writeBeyond (offset count : Nat)
  | writeTail (count : Nat)
  | write (count : Nat)
  | read (count : Int)
  | skip (count : Int)

namespace Receiving

/-- The place in the stream of the first byte behind the data. -/
def front (s : Receiving) : Nat := s.base + s.ring.used

/-- The bytes that are written `offset` behind the data. -/
def bytes (stream : Nat → UInt8) (s : Receiving) (offset count : Nat) : List UInt8 :=
  slice stream (s.front + offset) count

/-- The bytes are written inside the capacity, and beyond the data or at its end as the call
    says. -/
def Fits (s : Receiving) : RingCall → Prop
  | .writeBeyond offset count => 0 < offset ∧ s.ring.used + offset + count ≤ s.ring.size
  | .writeTail count => s.ring.used + count ≤ s.ring.size
  | .write count => s.ring.used + count ≤ s.ring.size
  | .read _ => True
  | .skip _ => True

/-- The state after a call. -/
def call (stream : Nat → UInt8) (maxblock : Nat) (s : Receiving) : RingCall → Receiving
  | .writeBeyond offset count =>
      let (_, ring, blocks) := s.ring.writeAt (s.bytes stream offset count) offset s.blocks maxblock
      { s with
        ring := ring
        blocks := blocks
        received := ⟨s.front + offset, count⟩ :: s.received
        full := s.full || decide (maxblock ≤ s.blocks.length) }
  | .writeTail count =>
      let (_, ring, blocks) := s.ring.writeAt (s.bytes stream 0 count) 0 s.blocks maxblock
      { s with
        ring := ring
        blocks := blocks
        received := ⟨s.front, count⟩ :: s.received }
  | .write count =>
      let (_, ring) := s.ring.write (s.bytes stream 0 count)
      { s with ring := ring, received := ⟨s.front, count⟩ :: s.received }
  | .read count =>
      let (data, ring) := s.ring.read count
      { s with ring := ring, base := s.base + data.length }
  | .skip count =>
      let (n, ring) := s.ring.skip count
      { s with ring := ring, base := s.base + n }

/-- The runs of a ring that `initialize` has set up (`ring.h:87-96`). -/
def system (stream : Nat → UInt8) (maxblock : Nat) : System Receiving RingCall where
  init s :=
    1 < maxblock ∧ 0 < s.ring.size ∧ s.ring.head = 0 ∧ s.ring.used = 0 ∧ s.blocks = [] ∧
      s.base = 0 ∧ s.received = [] ∧ s.full = false
  step s c s' := s.Fits c ∧ s' = s.call stream maxblock c

/-- The byte at `pos` of the stream was written. -/
def Got (s : Receiving) (pos : Nat) : Prop := ∃ e ∈ s.received, pos ∈ e

/-- The part of the stream in a block. -/
def part (s : Receiving) (b : Vec) : Extent :=
  ⟨s.front + s.ring.pos s.ring.tail b.data, b.count⟩

/-- The byte at `pos` of the stream is kept in a block. -/
def Pending (s : Receiving) (pos : Nat) : Prop := ∃ b ∈ s.blocks, pos ∈ s.part b

/-- The byte at `pos` of the stream was read, can be read or is kept in a block. -/
def Kept (s : Receiving) (pos : Nat) : Prop := pos < s.front ∨ s.Pending pos

/-- The part of the stream that a call writes. -/
def written (s : Receiving) : RingCall → Extent
  | .writeBeyond offset count => ⟨s.front + offset, count⟩
  | .writeTail count => ⟨s.front, count⟩
  | .write count => ⟨s.front, count⟩
  | .read _ => ⟨s.front, 0⟩
  | .skip _ => ⟨s.front, 0⟩

/-- All bytes before `n` were written, and the one at `n` was not. -/
def LongestPrefix (s : Receiving) (n : Nat) : Prop := (∀ pos < n, s.Got pos) ∧ ¬ s.Got n

/-- A write without blocks ends before every block. Other calls are free. -/
def ShortOfBlocks (s : Receiving) : RingCall → Prop
  | .write count => ∀ b ∈ s.blocks, count < s.ring.pos s.ring.tail b.data
  | _ => True

end Receiving

end EsOs.Net

/-!
## What a reader of a socket gets

`Socket::read` (`os/net/src/socket.cpp`) takes the number of bytes from the size that `read`
(`os/net/src/stream.cpp`) leaves in the messenger, and the bytes from the memory behind it. A reader
keeps all the bytes that it got, beside the connection and all the bytes that its ring has held.
-/

namespace EsOs.Net

open EsOs.Lib

namespace StreamReceiver

/-- How far behind the first byte of the ring the urgent pointer is (`stream.cpp:230`, `237`). -/
def mark (s : StreamReceiver) : Int :=
  s32 (s.recvRing.getUsed + (s.recvUp - s.recvNext).toInt)

/-- `len` of `read`, before the size of the messenger limits it (`stream.cpp:229-243`). -/
def readLen (s : StreamReceiver) : Int :=
  if s.mark = 0 then 1
  else if s.haveUrg then min (s.recvRing.getUsed : Int) s.mark
  else s.recvRing.getUsed

/-- The size that `read` leaves in a messenger of `size` bytes (`stream.cpp:244-254`): it stays what
    it was when `len` is negative. -/
def readSize (s : StreamReceiver) (size : Int) : Int :=
  if s.readLen < 0 then size else if size < s.readLen then size else s.readLen

end StreamReceiver

/-- `Socket::read` into the memory `dst` (`socket.cpp:474-496`), once the connection is readable: the
    bytes that it reports, and the connection. -/
def Socket.read (s : StreamReceiver) (dst : List UInt8) : List UInt8 × StreamReceiver :=
  let (data, recv) := s.read dst.length
  ((data ++ dst.drop data.length).take (s.readSize dst.length).toNat, recv)

/-- A reader of a connection: the bytes it got, and all the bytes the ring has held. -/
structure Reader where
  out : List UInt8
  stream : List UInt8
  recv : StreamReceiver

/-- What happens to a reader. -/
inductive ReadOp
  | read (dst : List UInt8)
  /-- Any change of the connection that leaves the bytes in the ring and may put `new` behind
      them. -/
  | arrive (new : List UInt8) (recv : StreamReceiver)

namespace Reader

/-- The runs of a reader that starts with a connection. -/
def system : System Reader ReadOp where
  init r := r.recv.recvRing.Wf ∧ r.out = [] ∧ r.stream = r.recv.recvRing.contents
  step
    | r, .read dst, r' =>
        r.recv.isReadable ∧
          r' = { r with
            out := r.out ++ (Socket.read r.recv dst).1
            recv := (Socket.read r.recv dst).2 }
    | r, .arrive new recv, r' =>
        recv.recvRing.Wf ∧ recv.recvRing.contents = r.recv.recvRing.contents ++ new ∧
          r' = { r with stream := r.stream ++ new, recv := recv }

end Reader

namespace StreamReceiver

/-- The bytes before the urgent mark, all the bytes when there is no mark in the ring, and the urgent
    byte alone when it is the first one. -/
def available (s : StreamReceiver) : Nat :=
  if s.haveUrg ∧ 0 ≤ s.mark then
    min s.recvRing.used (if s.mark = 0 then 1 else s.mark.toNat)
  else s.recvRing.used

end StreamReceiver

end EsOs.Net
