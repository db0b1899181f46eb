import EsOs.Lib.Circular
import EsOs.Lib.Fifo

/-!
# The ring buffer

`Ring` (`include/es/ring.h`, `os/libes++/src/ring.cpp`) is the byte buffer of a socket. Pointers
into the buffer are indices of its bytes. The blocks that were written beyond the end of the data
are an array of `Vec`, of which the entries in use come first; here it is the list of those.
-/

namespace EsOs.Net

open EsOs.Lib

/-- `Ring::Vec`: the first byte of a block and the number of its bytes. -/
structure Vec where
  data : Nat
  count : Nat
deriving DecidableEq, Repr

structure Ring where
  buf : Nat → UInt8
  size : Nat
  head : Nat
  used : Nat

namespace Ring

def getUsed (r : Ring) : Nat := r.used

def getUnused (r : Ring) : Int := r.size - r.used

def getSize (r : Ring) : Nat := r.size

/-- `Ring::pos` (`ring.h:44-47`). -/
def pos (r : Ring) (org ptr : Nat) : Nat :=
  distance r.size org ptr

/-- `count` bytes from the index `src` on, which may go on at the start of the buffer. -/
def copyOut (r : Ring) (src count : Nat) : List UInt8 :=
  if src + count < r.size then (List.range count).map fun i => r.buf (src + i)
  else
    let snip := r.size - src
    ((List.range snip).map fun i => r.buf (src + i)) ++
      (List.range (count - snip)).map fun i => r.buf i

/-- `Ring::peek` (`ring.cpp:23-75`): the bytes copied to `dst`. -/
def peek (r : Ring) (count : Int) (offset : Nat) : List UInt8 :=
  let count := if (r.used : Int) < offset + count then (r.used : Int) - offset else count
  if count ≤ 0 then []
  else
    let src := r.head + offset
    -- the wrapped index of the source, which counts the bytes behind the end once too often
    let src := if r.size ≤ src then offset + (src - r.size) else src
    r.copyOut src count.toNat

/-- `Ring::read` (`ring.cpp:77-128`): the bytes copied to `dst`. -/
def read (r : Ring) (count : Int) : List UInt8 × Ring :=
  let count := if (r.used : Int) < count then (r.used : Int) else count
  if count ≤ 0 then ([], r)
  else
    let n := count.toNat
    let head := if r.head + n < r.size then r.head + n else n - (r.size - r.head)
    (r.copyOut r.head n, { r with head := head, used := r.used - n })

/-- `Ring::skip` (`ring.cpp:130-172`): the number of bytes discarded. -/
def skip (r : Ring) (count : Int) : Nat × Ring :=
  let count := if (r.used : Int) < count then (r.used : Int) else count
  if count ≤ 0 then (0, r)
  else
    let n := count.toNat
    let head := if r.head + n < r.size then r.head + n else n - (r.size - r.head)
    (n, { r with head := head, used := r.used - n })

/-- The index `offset` bytes behind the data. -/
def tail (r : Ring) : Nat :=
  if r.size ≤ r.head + r.used then r.head + r.used - r.size else r.head + r.used

/-- Copies `src` into the buffer from the index `dst` on (`ring.cpp:203-221`, `337-356`). -/
def copyIn (r : Ring) (dst : Nat) (src : List UInt8) : Ring :=
  { r with
    buf :=
      if r.head ≤ dst then copyAround r.buf r.size dst src
      else copyTo r.buf dst src }

/-- `Ring::write(src, count)` (`ring.cpp:174-224`): the number of bytes written. -/
def write (r : Ring) (src : List UInt8) : Nat × Ring :=
  let count := if r.size < r.used + src.length then r.size - r.used else src.length
  if count = 0 then (0, r)
  else
    let r' := r.copyIn r.tail (src.take count)
    (count, { r' with used := r.used + count })

/-- The loop of `Ring::marge` for a segment at the tail (`ring.cpp:245-257`). It deletes the blocks
    the data reaches and gives the end of the data. -/
def mergeLoop (r : Ring) (tail : Nat) : Nat → List Vec → Nat × List Vec
  | pr, [] => (pr, [])
  | pr, block :: blocks =>
      let pb := r.pos tail block.data
      if pb ≤ pr then r.mergeLoop tail (max (pb + block.count) pr) blocks
      else
        let rest := r.mergeLoop tail pr blocks
        (rest.1, block :: rest.2)

/-- The loop of `Ring::marge` for a segment beyond the tail (`ring.cpp:263-279`). It deletes the
    blocks the segment overlaps or touches and gives the joined segment. -/
def joinLoop (r : Ring) (tail : Nat) : (adv pl pr : Nat) → List Vec → Vec × List Vec
  | adv, pl, pr, [] => (⟨adv, pr - pl⟩, [])
  | adv, pl, pr, block :: blocks =>
      let pb := r.pos tail block.data
      if pl ≤ pb + block.count ∧ pb ≤ pr then
        let pr := max (pb + block.count) pr
        if pb < pl then r.joinLoop tail block.data pb pr blocks
        else r.joinLoop tail adv pl pr blocks
      else
        let rest := r.joinLoop tail adv pl pr blocks
        (rest.1, block :: rest.2)

/-- `Ring::marge` (`ring.cpp:226-295`). -/
def marge (r : Ring) (adv count : Nat) (blocks : List Vec) (maxblock tail : Nat) :
    Nat × Ring × List Vec :=
  let pl := r.pos tail adv
  let pr := pl + count
  if tail = adv then
    let (pr, blocks) := r.mergeLoop tail pr blocks
    let count := pr - pl
    (count, { r with used := r.used + count }, blocks)
  else
    let (block, blocks) := r.joinLoop tail adv pl pr blocks
    -- the oldest block makes room for the new one
    let blocks := if blocks.length < maxblock then blocks else blocks.drop 1
    (0, r, blocks ++ [block])

/-- `Ring::write(src, count, offset, blocks, maxblock)` (`ring.cpp:297-359`). -/
def writeAt (r : Ring) (src : List UInt8) (offset : Nat) (blocks : List Vec) (maxblock : Nat) :
    Nat × Ring × List Vec :=
  let count :=
    if r.size < r.used + offset + src.length then r.size - r.used - offset else src.length
  if count = 0 then (0, r, blocks)
  else
    let tail := r.tail
    let adv := if r.size ≤ tail + offset then tail + offset - r.size else tail + offset
    (r.copyIn adv (src.take count)).marge adv count blocks maxblock tail

end Ring

end EsOs.Net

/-!
## The calls of a ring buffer

The calls of `Ring` (`os/libes++/src/ring.cpp`) with their arguments as the machine has them. A
`long` has 32 bits, so that the sum of two of them may wrap. A failed `ASSERT` and a copy that
leaves the buffer have no result.
-/

namespace EsOs.Net

open EsOs.Lib

/-- A call of a ring. A source is the memory from its pointer on. -/
inductive QueueCall where
  | write (src : Nat → UInt8) (count : Int32)
  | read (count : Int32)
  | peek (count offset : Int32)
  | skip (count : Int32)

/-- What a call returns and the bytes that it copies to its destination. -/
structure QueueAnswer where
  result : Nat
  bytes : List UInt8
deriving DecidableEq, Repr

namespace Ring

/-- The constructor `Ring::Ring(buf, size)` (`ring.h:78-84`). -/
def create (buf : Nat → UInt8) (size : Nat) : Ring := ⟨buf, size, 0, 0⟩

/-- `static_cast<long>(n)`. -/
def long (n : Int) : Int := n.bmod 4294967296

/-- `Ring::peek` (`ring.cpp:23-75`) with its assertions. -/
def peekCall (r : Ring) (count offset : Int) : Option (List UInt8) :=
  if offset < 0 then none
  else
    let count := if (r.used : Int) < long (offset + count) then (r.used : Int) - offset else count
    if count ≤ 0 then some []
    else if (r.used : Int) ≤ offset then none
    else
      let offset := offset.toNat
      let src := r.head + offset
      let src := if r.size ≤ src then offset + (src - r.size) else src
      if r.size ≤ src then none
      else if (r.size : Int) < count then none
      else some (r.copyOut src count.toNat)

/-- `Ring::write(src, count)` (`ring.cpp:174-224`) on the memory of its source. -/
def writeCall (r : Ring) (src : Nat → UInt8) (count : Int) : Option (Nat × Ring) :=
  let count :=
    if (r.size : Int) < long (r.used + count) then (r.size : Int) - r.used else count
  if count ≤ 0 then some (0, r)
  else if (r.size : Int) - r.used < count then none
  else
    let n := count.toNat
    some (n, { r.copyIn r.tail ((List.range n).map src) with used := r.used + n })

/-- One call. -/
def call (r : Ring) : QueueCall → Option (QueueAnswer × Ring)
  | .write src count => (r.writeCall src count.toInt).map fun (n, r') => (⟨n, []⟩, r')
  | .read count =>
      let (bytes, r') := r.read count.toInt
      some (⟨bytes.length, bytes⟩, r')
  | .peek count offset =>
      (r.peekCall count.toInt offset.toInt).map fun bytes => (⟨bytes.length, bytes⟩, r)
  | .skip count =>
      let (n, r') := r.skip count.toInt
      some (⟨n, []⟩, r')

/-- The calls one after the other. -/
def calls (r : Ring) : List QueueCall → Option (List QueueAnswer × Ring)
  | [] => some ([], r)
  | c :: cs =>
      match r.call c with
      | none => none
      | some (a, r') => (r'.calls cs).map fun (as, r'') => (a :: as, r'')

end Ring

/-- What a queue of bytes answers to a call of the ring. A count below zero asks for nothing. -/
def Ring.byteQueue (q : Fifo UInt8) : QueueCall → QueueAnswer × Fifo UInt8
  | .write src count =>
      let n := count.toInt.toNat
      (⟨min n q.unused, []⟩, q.write ((List.range n).map src))
  | .read count =>
      let bytes := q.peek count.toInt.toNat 0
      (⟨bytes.length, bytes⟩, q.drop bytes.length)
  | .peek count offset =>
      let bytes := q.peek count.toInt.toNat offset.toInt.toNat
      (⟨bytes.length, bytes⟩, q)
  | .skip count =>
      let n := min count.toInt.toNat q.used
      (⟨n, []⟩, q.drop n)

/-- The calls on a queue one after the other. -/
def Ring.byteQueues (q : Fifo UInt8) : List QueueCall → List QueueAnswer × Fifo UInt8
  | [] => ([], q)
  | c :: cs =>
      let (a, q') := Ring.byteQueue q c
      let (as, q'') := Ring.byteQueues q' cs
      (a :: as, q'')

end EsOs.Net
