/-!
# Reassembly of IPv4 datagrams

`ReassReceiver::input` of `os/net/src/inet4reass.cpp`. The receiver keeps what it has of a datagram
in a chunk of 65535 bytes that begins with the header, and a list of the holes in it; the record of
a hole lies in the chunk at the hole itself. An access outside of a chunk has no result.

The fields of the header of the datagram are kept apart from the chunk, the options of a header are
left out, and so are the addresses of the messenger, the alarm and the conduits.
-/

namespace EsOs.Net

/-- The fields of `IPHdr` that are used (`es/net/inet4.h:151-169`), in host byte order. -/
structure IPHdr where
  /-- The lower half of `verlen`. -/
  ihl : BitVec 4
  len : UInt16
  id : UInt16
  frag : UInt16
  proto : UInt8
  src : UInt32
  dst : UInt32
deriving DecidableEq, Repr

namespace IPHdr

/-- `sizeof(IPHdr)` -/
def MinHdrSize : Nat := 20

/-- `IPHdr::getHdrSize` (`inet4.h:182-185`). -/
def getHdrSize (h : IPHdr) : Nat :=
  h.ihl.toNat <<< 2

/-- `IPHdr::getSize` (`inet4.h:194-197`). -/
def getSize (h : IPHdr) : Nat :=
  h.len.toNat

/-- `IPHdr::setSize` (`inet4.h:199-202`). -/
def setSize (h : IPHdr) (len : Nat) : IPHdr :=
  { h with len := UInt16.ofNat len }

/-- `IPHdr::getOffset` (`inet4.h:204-208`). -/
def getOffset (h : IPHdr) : Nat :=
  (h.frag &&& 0x1fff).toNat <<< 3

/-- `IPHdr::moreFragments` (`inet4.h:218-221`). -/
def moreFragments (h : IPHdr) : Bool :=
  h.frag &&& 0x2000 != 0

end IPHdr

/-- A received packet: its header, and the bytes behind it. -/
structure Packet where
  hdr : IPHdr
  payload : Nat → UInt8

/-- The bytes of a chunk. -/
abbrev Chunk := Nat → UInt8

namespace Chunk

/-- The length of the chunk of a datagram (`inet4reass.cpp:36`). -/
def SIZE : Nat := 65535

/-- The `u16` at `p`. -/
def get16 (c : Chunk) (p : Nat) : Nat :=
  (c p).toNat + 256 * (c (p + 1)).toNat

/-- Stores `v` in the `u16` at `p`. -/
def set16 (c : Chunk) (p v : Nat) : Chunk := fun i =>
  if i = p then UInt8.ofNat v else if i = p + 1 then UInt8.ofNat (v / 256) else c i

/-- `memmove` of `n` bytes of `src` to `p`. -/
def move (c : Chunk) (p n : Nat) (src : Nat → UInt8) : Chunk := fun i =>
  if p ≤ i ∧ i < p + n then src (i - p) else c i

end Chunk

namespace Hole

/-- The offsets of the fields of `Hole` and its size (`inet4reass.h:30-36`). -/
def first : Nat := 0
def last : Nat := 2
def next : Nat := 4
def SIZE : Nat := 8

/-- The record at `p` lies in the chunk. -/
def fits (p : Nat) : Bool :=
  p + SIZE ≤ Chunk.SIZE

end Hole

/-- `ReassReceiver::EOH` (`inet4reass.h:28`). -/
def EOH : Nat := 1

/-- A datagram under reassembly: `r`, `list` and `firstFragment[0]` (`inet4reass.h:40-47`). -/
structure Reass where
  iphdr : IPHdr
  chunk : Chunk
  list : Nat
  firstFragment : Bool

/-- Where `next` of the loop over the holes points: to `list`, or to `next` of the record at a
    place. -/
inductive Link where
  | list
  | next (hole : Nat)
deriving DecidableEq, Repr

/-- The state of the loop over the holes: the chunk, `list`, `next` and `last`. -/
structure HoleScan where
  chunk : Chunk
  list : Nat
  next : Link
  last : Nat

namespace HoleScan

/-- `*next` -/
def load (s : HoleScan) : Nat :=
  match s.next with
  | .list => s.list
  | .next hole => s.chunk.get16 (hole + Hole.next)

/-- `*next = v` -/
def store (s : HoleScan) (v : Nat) : HoleScan :=
  match s.next with
  | .list => { s with list := v }
  | .next hole => { s with chunk := s.chunk.set16 (hole + Hole.next) v }

/-- What is done at a hole that begins before the fragment: it ends there
    (`inet4reass.cpp:100-113`). Otherwise `offset` is where the hole begins in the fragment. -/
def cutHole (s : HoleScan) (hole first holeFirst : Nat) : HoleScan × Nat :=
  if holeFirst < first then
    let s := { s with chunk := s.chunk.set16 (hole + Hole.last) (first - 1) }
    ({ s.store holeFirst with next := .next hole }, 0)
  else (s, holeFirst - first)

/-- What is done where the fragment ends: a hole that goes on becomes a new one behind the fragment,
    or there is nothing behind the last fragment (`inet4reass.cpp:115-135`). -/
def endHole (s : HoleScan) (h holeLast : Nat) (more : Bool) : Option HoleScan :=
  if s.last < holeLast then
    if more then
      let hole := h + s.last + 1
      if Hole.fits hole then
        let s := { s with chunk := s.chunk.set16 (hole + Hole.first) (s.last + 1) }
        let s := { s with chunk := s.chunk.set16 (hole + Hole.last) holeLast }
        let s := { s with chunk := s.chunk.set16 (hole + Hole.next) s.load }
        some { s.store (s.chunk.get16 (hole + Hole.first)) with next := .next hole }
      else none
    else some (s.store EOH)
  else some { s with last := holeLast }

/-- The `memmove` of the bytes of a hole from the packet (`inet4reass.cpp:137-140`). -/
def fill (s : HoleScan) (h first offset : Nat) (m : Packet) : Option HoleScan :=
  if first + offset ≤ s.last + 1 then
    let count := s.last + 1 - (first + offset)
    if h + first + offset + count ≤ Chunk.SIZE ∧
        m.hdr.getHdrSize + offset + count ≤ m.hdr.getSize then
      some { s with
        chunk := s.chunk.move (h + first + offset) count fun i => m.payload (offset + i) }
    else none
  else none

/-- A turn of the loop over the holes for the record at `hole` (`inet4reass.cpp:89-140`). -/
def turn (s : HoleScan) (h first hole : Nat) (m : Packet) : Option HoleScan :=
  if Hole.fits hole then
    let holeFirst := s.chunk.get16 (hole + Hole.first)
    let holeLast := s.chunk.get16 (hole + Hole.last)
    if holeLast < first ∨ s.last < holeFirst then some { s with next := .next hole }
    else do
      let s := s.store (s.chunk.get16 (hole + Hole.next))
      let (s, offset) := s.cutHole hole first holeFirst
      let s ← s.endHole h holeLast m.hdr.moreFragments
      s.fill h first offset m
  else none

/-- The loop over the holes (`inet4reass.cpp:87-141`), where `h` is the size of the header. It has no
    result if it is not over after `turns` tests. -/
def loop (h first : Nat) (m : Packet) : Nat → HoleScan → Option HoleScan
  | 0, _ => none
  | turns + 1, s =>
    if s.load = EOH then some s
    else do
      let s ← s.turn h first (h + s.load) m
      loop h first m turns s

end HoleScan

namespace Reass

/-- A new datagram for the packet, in a chunk that holds anything (`inet4reass.cpp:28-43`). -/
def create (junk : Chunk) (m : Packet) : Reass :=
  let hole := IPHdr.MinHdrSize
  let chunk := junk.set16 (hole + Hole.first) 0
  let chunk := chunk.set16 (hole + Hole.last) (65535 - IPHdr.MinHdrSize)
  let chunk := chunk.set16 (hole + Hole.next) EOH
  { iphdr := m.hdr, chunk := chunk, list := 0, firstFragment := false }

/-- What is done with the packet that begins the datagram, for the first time
    (`inet4reass.cpp:66-78`): the header is saved, and where it has options the bytes move on and
    the datagram takes the header. -/
def saveFirst (r : Reass) (m : Packet) : Option Reass :=
  let hdrSize := m.hdr.getHdrSize
  if m.hdr.getOffset = 0 ∧ hdrSize + 8 ≤ m.hdr.getSize ∧ !r.firstFragment then
    let r := { r with firstFragment := true }
    if IPHdr.MinHdrSize < hdrSize then
      let count := r.iphdr.getSize - IPHdr.MinHdrSize
      if IPHdr.MinHdrSize ≤ r.iphdr.getSize ∧ hdrSize + count ≤ Chunk.SIZE then
        some { r with
          chunk := r.chunk.move hdrSize count fun i => r.chunk (IPHdr.MinHdrSize + i)
          iphdr := m.hdr }
      else none
    else some r
  else some r

/-- `Update iphdr` (`inet4reass.cpp:80-84`). -/
def updateSize (r : Reass) (first len : Nat) : Reass :=
  let size := r.iphdr.getHdrSize + first + len
  if r.iphdr.getSize < size then { r with iphdr := r.iphdr.setSize size } else r

/-- The holes that the packet fills (`inet4reass.cpp:86-141`). -/
def fillHoles (r : Reass) (m : Packet) (first len : Nat) : Option Reass := do
  let s ← HoleScan.loop r.iphdr.getHdrSize first m 65536
    { chunk := r.chunk, list := r.list, next := .list, last := first + len - 1 }
  pure { r with chunk := s.chunk, list := s.list }

end Reass

/-- What becomes of a datagram with a packet. -/
inductive Outcome where
  /-- It is given up. -/
  | discarded
  /-- It waits for more. -/
  | kept (r : Reass)
  /-- It is complete: the messenger that is passed on. -/
  | delivered (r : Reass)

/-- The datagram that waits for the next packet. -/
def Outcome.next : Outcome → Option Reass
  | .discarded => none
  | .kept r => some r
  | .delivered _ => none

/-- `ReassReceiver::input` (`inet4reass.cpp:21-163`) of the packet `m`, with the datagram that the
    packets before it have left. -/
def ReassReceiver.input (junk : Chunk) (r : Option Reass) (m : Packet) : Option Outcome :=
  let r := match r with
    | some r => r
    | none => .create junk m
  let first := m.hdr.getOffset
  let len := m.hdr.getSize - m.hdr.getHdrSize
  if m.hdr.getSize ≤ m.hdr.getHdrSize ∨ (m.hdr.moreFragments ∧ len % 8 ≠ 0) then some .discarded
  else do
    let r ← r.saveFirst m
    let r ← (r.updateSize first len).fillHoles m first len
    pure (if r.list = EOH then .delivered r else .kept r)

end EsOs.Net

/-!
## Fragmentation of IPv4 datagrams

`InReceiver::fragment` of `os/net/src/inet4.cpp`, for a datagram without options, and the packets
that a reassembly gets one after the other.
-/

namespace EsOs.Net

namespace IPHdr

/-- `IPHdr::setHdrSize` (`inet4.h:187-192`). -/
def setHdrSize (h : IPHdr) (hlen : Nat) : IPHdr :=
  { h with ihl := BitVec.ofNat 4 (hlen >>> 2) }

/-- `IPHdr::setOffset` (`inet4.h:210-216`). -/
def setOffset (h : IPHdr) (offset : Nat) : IPHdr :=
  { h with frag := UInt16.ofNat (offset >>> 3) ||| (h.frag &&& 0x1fff) }

end IPHdr

namespace InReceiver

/-- `(mtu - hlen) & ~7`, for a header that is not longer than the MTU. -/
def blocks (mtu hlen : Nat) : Nat :=
  (mtu - hlen) / 8 * 8

/-- The first fragment (`inet4.cpp:620-637`). -/
def firstFragment (m : Packet) (offset : Nat) : Packet where
  hdr := { m.hdr.setSize (m.hdr.getHdrSize + offset) with frag := 0x2000 }
  payload := m.payload

/-- The fragment of `len` bytes from `offset` on (`inet4.cpp:691-706`). -/
def nextFragment (m : Packet) (hlen offset len : Nat) : Packet where
  hdr :=
    let frag := ((m.hdr.setHdrSize hlen).setSize (hlen + len)).setOffset offset
    if m.hdr.getHdrSize + offset + len < m.hdr.getSize then
      { frag with frag := frag.frag ||| 0x2000 }
    else frag
  payload := fun i => m.payload (offset + i)

/-- `Send the remaining data` (`inet4.cpp:683-721`). No result if the loop is not over after `turns`
    tests. -/
def remaining (m : Packet) (mtu : Nat) : Nat → Nat → Option (List Packet)
  | 0, _ => none
  | turns + 1, offset =>
    let hlen := IPHdr.MinHdrSize
    if offset < m.hdr.getSize - m.hdr.getHdrSize then do
      let len := min (blocks mtu hlen) (m.hdr.getSize - m.hdr.getHdrSize - offset)
      let frags ← remaining m mtu turns (offset + len)
      pure (nextFragment m hlen offset len :: frags)
    else some []

/-- `InReceiver::fragment` (`inet4.cpp:614-722`): the fragments in the order in which they are
    sent. -/
def fragment (m : Packet) (mtu : Nat) : Option (List Packet) := do
  let offset := blocks mtu m.hdr.getHdrSize
  let frags ← remaining m mtu 65536 offset
  pure (firstFragment m offset :: frags)

end InReceiver

/-- What becomes of a datagram with each of the packets, and what is left of it. -/
def ReassReceiver.feed (junk : Chunk) :
    Option Reass → List Packet → Option (List Outcome × Option Reass)
  | r, [] => some ([], r)
  | r, m :: ms => do
    let o ← input junk r m
    let (os, r) ← feed junk o.next ms
    pure (o :: os, r)

end EsOs.Net
