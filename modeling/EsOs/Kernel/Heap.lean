import EsOs.Kernel.Arena

/-!
# The kernel heap

`Heap` (`os/kernel/include/heap.h`, `os/kernel/port/heap.cpp`) hands out small blocks from pages,
each cut into cells of one size, and large blocks with a header of their own. Both come from an
arena. A mass is the record at the start of such a page; a cell is named by the address of its
header. What the heap stores in memory are functions of addresses.
-/

namespace EsOs.Kernel

open EsOs.Lib

/-- `Heap::Mass` (`heap.h:108-122`): the number of cells in use, the index of its bucket and the
    list of its free cells. -/
structure Mass where
  used : Int
  bucket : Nat
  listCell : List Nat
deriving DecidableEq, Repr

/-- The calls that the heap makes on its arena. -/
inductive ArenaCall where
  | took (place size : Nat)
  | gave (place size : Nat)
deriving DecidableEq, Repr

/-- `Heap` (`heap.h:72-74`, `149-151`), with the records it keeps in memory and the calls it has
    made on the arena, the last one first. -/
structure Heap where
  arena : Arena
  thresh : Nat
  bucketSizes : List Nat
  listMass : Nat → List Nat
  listLargeCell : List Nat
  mass : Nat → Mass
  cellSize : Nat → Nat
  calls : List ArenaCall

namespace Heap

/-- `Page::SIZE`. -/
def PAGE_SIZE : Nat := 4096

/-- `Heap::Mass::SIZE` (`heap.cpp:24`). -/
def MASS_SIZE : Nat := 32

/-- `Heap::Cell::SIZE` (`heap.cpp:25`). -/
def CELL_SIZE : Nat := 32

/-- `Heap::BUCKET_SIZE` (`heap.h:85`). -/
def BUCKET_SIZE : Nat := 9

/-- `Arena::SHIFT` (`arena.h:47`). -/
def SHIFT : Nat := 5

/-- The block size for `d` blocks a page (`heap.cpp:38`, `43`). -/
def sizeFor (d : Nat) : Nat :=
  ((PAGE_SIZE - MASS_SIZE) / d &&& wordNot (Arena.ALIGN - 1)) - CELL_SIZE

/-- The loop of `Heap::Heap` from the bucket `i` on, for the buckets that are left
    (`heap.cpp:30-47`): the block sizes and the threshold. -/
def initBuckets : Nat → Nat → List Nat × Nat
  | 0, _ => ([], 0)
  | left + 1, i =>
      let d := (PAGE_SIZE - MASS_SIZE) / ((Arena.ALIGN <<< i) + CELL_SIZE)
      if 2 < d then
        let (sizes, thresh) := initBuckets left (i + 1)
        (sizeFor d :: sizes, thresh)
      else (sizeFor 2 :: List.replicate left 0, sizeFor 2)

/-- `Heap::Heap` (`heap.cpp:27-48`). -/
def new (arena : Arena) : Heap where
  arena := arena
  thresh := (initBuckets BUCKET_SIZE 0).2
  bucketSizes := (initBuckets BUCKET_SIZE 0).1
  listMass := fun _ => []
  listLargeCell := []
  mass := fun _ => ⟨0, 0, []⟩
  cellSize := fun _ => 0
  calls := []

/-- The block size of a bucket. -/
def size (h : Heap) (bucket : Nat) : Nat := h.bucketSizes.getD bucket 0

/-- `ffs`: the place of the lowest bit of a word, counted from 1. -/
def ffs (n : Nat) : Nat :=
  match (List.range 32).find? fun i => n.testBit i with
  | some i => i + 1
  | none => 0

/-- `Heap::getBucket` (`heap.cpp:50-72`): `none` for the null pointer, and for a search that
    leaves the array. -/
def getBucket (h : Heap) (size : Nat) : Option Nat :=
  let i := ffs size
  if i = 0 then none
  else
    let i := if i ≤ SHIFT then 0 else i - (SHIFT + 1)
    ((List.range BUCKET_SIZE).drop i).find? fun bucket => decide (size ≤ h.size bucket)

/-- `Heap::isLargeCell` (`heap.h:153-156`). -/
def isLargeCell (h : Heap) (size : Nat) : Bool := decide (h.thresh < size)

/-- The loop that cuts a page into cells (`heap.cpp:171-177`), with a bound on its rounds. -/
def massLoop (right size : Nat) : Nat → Nat → List Nat
  | 0, _ => []
  | n + 1, place =>
      if place + CELL_SIZE + size ≤ right then
        place :: massLoop right size n (place + CELL_SIZE + size)
      else []

/-- The cells of a page. -/
def massCells (left size : Nat) : List Nat :=
  massLoop (word (left + PAGE_SIZE)) size PAGE_SIZE (left + MASS_SIZE)

/-- Writes the record of a mass. -/
def setMass (h : Heap) (m : Nat) (mass : Mass) : Heap :=
  { h with mass := Function.update h.mass m mass }

/-- `Mass::Mass` (`heap.cpp:165-178`) at the address `left`. -/
def newMass (h : Heap) (bucket left : Nat) : Heap :=
  let cells := massCells left (h.size bucket)
  { h.setMass left ⟨0, bucket, cells⟩ with
    cellSize := fun cell => if cell ∈ cells then h.size bucket else h.cellSize cell }

/-- `Mass::getCell` (`heap.cpp:180-189`). -/
def getCell (h : Heap) (m : Nat) : Option Nat × Heap :=
  match (h.mass m).listCell with
  | [] => (none, h)
  | cell :: cells =>
      (some cell, h.setMass m ⟨(h.mass m).used + 1, (h.mass m).bucket, cells⟩)

/-- `Bucket::allocMass` (`heap.h:135-138`) with the new mass put first (`heap.cpp:215-221`). -/
def allocMass (h : Heap) (bucket : Nat) : Option (Nat × Heap) :=
  match h.arena.allocLast PAGE_SIZE PAGE_SIZE with
  | none => none
  | some (place, arena) =>
      some (place, { ({ h with arena := arena }).newMass bucket place with
        listMass := Function.update h.listMass bucket (place :: h.listMass bucket)
        calls := .took place PAGE_SIZE :: h.calls })

/-- `Bucket::alloc` (`heap.cpp:198-223`). -/
def bucketAlloc (h : Heap) (bucket : Nat) : Option Nat × Heap :=
  match (h.listMass bucket).find? fun m => !(h.mass m).listCell.isEmpty with
  | some m => h.getCell m
  | none =>
      match h.allocMass bucket with
      | none => (none, h)
      | some (m, h') => h'.getCell m

/-- The size of a large block, a multiple of the granule of the arena (`heap.cpp:99`). -/
def roundSize (size : Nat) : Nat :=
  wordSub (word (size + Arena.ALIGN)) 1 &&& wordNot (Arena.ALIGN - 1)

/-- `Heap::alloc` on a large block (`heap.cpp:97-109`): the cell. -/
def allocLarge (h : Heap) (size : Nat) : Option Nat × Heap :=
  let size := roundSize size
  match h.arena.alloc (word (size + CELL_SIZE)) Arena.ALIGN with
  | none => (none, h)
  | some (place, arena) =>
      (some place, { h with
        arena := arena
        cellSize := Function.update h.cellSize place size
        listLargeCell := h.listLargeCell ++ [place]
        calls := .took place (word (size + CELL_SIZE)) :: h.calls })

/-- `Heap::alloc` (`heap.cpp:94-121`): the data of the cell, or `none` for the null pointer. A size
    of which `getBucket` makes nothing stops at its assertion. -/
def alloc (h : Heap) (size : Nat) : Option Nat × Heap :=
  let (cell, h') :=
    if h.isLargeCell size then h.allocLarge size
    else
      match h.getBucket size with
      | none => (none, h)
      | some bucket => h.bucketAlloc bucket
  (cell.map (· + CELL_SIZE), h')

/-- `Heap::getMass` (`heap.h:163-170`): the page of a cell. -/
def getMass (cell : Nat) : Nat := cell &&& wordNot (PAGE_SIZE - 1)

/-- `Bucket::freeMass` (`heap.h:140-143`). -/
def freeMass (h : Heap) (m : Nat) : Heap :=
  { h with arena := h.arena.free m PAGE_SIZE, calls := .gave m PAGE_SIZE :: h.calls }

/-- `Bucket::free` with `Mass::putCell` (`heap.cpp:191-196`, `225-235`). -/
def bucketFree (h : Heap) (m cell : Nat) : Heap :=
  let mass : Mass := ⟨(h.mass m).used - 1, (h.mass m).bucket, cell :: (h.mass m).listCell⟩
  let h' := h.setMass m mass
  if mass.used = 0 then
    ({ h' with
      listMass := Function.update h.listMass mass.bucket
        ((h.listMass mass.bucket).erase m) }).freeMass m
  else h'

/-- `Heap::free` on a large cell (`heap.cpp:131-134`). -/
def freeLarge (h : Heap) (cell : Nat) : Heap :=
  let size := word (h.cellSize cell + CELL_SIZE)
  { h with
    listLargeCell := h.listLargeCell.erase cell
    arena := h.arena.free cell size
    calls := .gave cell size :: h.calls }

/-- `Heap::free` (`heap.cpp:123-142`). -/
def free (h : Heap) (place : Nat) : Heap :=
  let cell := place - CELL_SIZE
  if h.isLargeCell (h.cellSize cell) then h.freeLarge cell
  else h.bucketFree (getMass cell) cell

/-- Where `free` gives a block back: to the bucket of its page, or to no bucket. -/
def home (h : Heap) (place : Nat) : Option Nat :=
  if h.isLargeCell (h.cellSize (place - CELL_SIZE)) then none
  else some (h.mass (getMass (place - CELL_SIZE))).bucket

/-- `Heap::~Heap` (`heap.cpp:74-92`): the masses of every bucket, then the large cells, which it
    gives back without their headers. -/
def destroy (h : Heap) : Heap :=
  let h' := ((List.range BUCKET_SIZE).flatMap h.listMass).foldl freeMass h
  h.listLargeCell.foldl (fun h cell =>
    { h with
      arena := h.arena.free cell (h.cellSize cell)
      calls := .gave cell (h.cellSize cell) :: h.calls })
    { h' with listMass := fun _ => [], listLargeCell := [] }

/-- The page that a mass is at the start of, as it was taken from the arena. -/
def pageBlock (m : Nat) : Block := ⟨m, PAGE_SIZE, PAGE_SIZE⟩

/-- A large cell with its header, as it was taken from the arena. -/
def largeBlock (h : Heap) (cell : Nat) : Block :=
  ⟨cell, word (h.cellSize cell + CELL_SIZE), Arena.ALIGN⟩

/-- The blocks of the arena that the lists of the heap lead to. -/
def taken (h : Heap) : List Block :=
  ((List.range BUCKET_SIZE).flatMap h.listMass).map pageBlock ++
    h.listLargeCell.map h.largeBlock

end Heap

/-- What the arena has handed out and not got back after these calls, the last call first. A call
    that gives back something else than was taken leaves nothing to compare. -/
def outstanding : List ArenaCall → Option (List Extent)
  | [] => some []
  | .took place size :: calls => (outstanding calls).map (⟨place, size⟩ :: ·)
  | .gave place size :: calls =>
      (outstanding calls).bind fun l =>
        if (⟨place, size⟩ : Extent) ∈ l then some (l.erase ⟨place, size⟩) else none

/-- A block that the heap handed out, the size asked for and the bucket it came from; a large one
    comes from none. -/
structure HeapBlock where
  place : Nat
  size : Nat
  bucket : Option Nat
deriving DecidableEq, Repr

/-- A heap and the blocks its callers hold. -/
structure HeapState where
  heap : Heap
  live : List HeapBlock

/-- The bytes behind the header of a block, as many as its header says. -/
def HeapState.payload (s : HeapState) (b : HeapBlock) : Extent :=
  ⟨b.place, s.heap.cellSize (b.place - Heap.CELL_SIZE)⟩

inductive HeapOp where
  | alloc (size : Nat)
  | free (b : HeapBlock)
deriving DecidableEq, Repr

/-- One call. A request is a word other than 0, and only a block that was handed out and not yet
    given back is freed. -/
def HeapState.step (s : HeapState) : HeapOp → Option HeapState
  | .alloc size =>
      if 0 < size ∧ size < 4294967296 then
        match s.heap.alloc size with
        | (none, heap) => some ⟨heap, s.live⟩
        | (some place, heap) =>
            let bucket := if s.heap.isLargeCell size then none else s.heap.getBucket size
            some ⟨heap, ⟨place, size, bucket⟩ :: s.live⟩
      else none
  | .free b => if b ∈ s.live then some ⟨s.heap.free b.place, s.live.erase b⟩ else none

/-- Where the size of a request is not lost: rounded up and with its header it is still a word, or
    the arena has nothing to give. -/
def HeapState.Meets (s : HeapState) : HeapOp → Prop
  | .alloc size => size ≤ 4294967232 ∨ s.heap.arena.unused = []
  | .free _ => True

/-- The runs of a heap that starts over an arena. -/
def heapSystem (arena : Arena) : System HeapState HeapOp :=
  System.ofStep (fun s => s = ⟨.new arena, []⟩) HeapState.step

end EsOs.Kernel
