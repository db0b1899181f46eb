import EsOs.Lib.Extents
import EsOs.Lib.System
import EsOs.Lib.Word

/-!
# The arena allocator

`Arena` (`os/kernel/include/arena.h`, `os/kernel/port/arena.cpp`) keeps the free memory of a region
in a list of cells in the order of their addresses. A cell lies at the start of the memory it
describes, so its address is the left end of the extent. Addresses and sizes are 32-bit words.
-/

namespace EsOs.Kernel

open EsOs.Lib

/-- `Arena`: the list `unused` (`arena.h:99-100`). -/
structure Arena where
  unused : List Extent
deriving DecidableEq, Repr

namespace Arena

/-- `Arena::ALIGN` (`arena.h:46`). -/
def ALIGN : Nat := 32

/-- `Arena::round` (`arena.h:60-64`). -/
def round (ptr align : Nat) : Nat :=
  wordSub (word (ptr + align)) 1 &&& wordNot (wordSub align 1)

/-- `Cell::right` (`arena.h:83-86`). -/
def right (cell : Extent) : Nat := word (cell.left + cell.size)

/-- The bytes in front of the first aligned address of a cell (`arena.cpp:38`, `86`). -/
def padding (align : Nat) (cell : Extent) : Nat := wordSub (round cell.left align) cell.left

/-- The test of the search for a cell large enough (`arena.cpp:39`, `87`). -/
def fits (size align : Nat) (cell : Extent) : Bool :=
  decide (word (padding align cell + size) ≤ cell.size)

/-- The search from the first cell on (`arena.cpp:33-44`): the cells before the one found, that
    cell and the cells after it. -/
def search (p : Extent → Bool) : List Extent → Option (List Extent × Extent × List Extent)
  | [] => none
  | cell :: cells =>
      if p cell then some ([], cell, cells)
      else (search p cells).map fun r => (cell :: r.1, r.2)

/-- The search from the last cell back (`arena.cpp:81-92`). -/
def searchLast (p : Extent → Bool) (cells : List Extent) :
    Option (List Extent × Extent × List Extent) :=
  (search p cells.reverse).map fun r => (r.2.2.reverse, r.2.1, r.1.reverse)

/-- The block cut out of the cell found and the cells that are left of it (`arena.cpp:49-68`,
    `97-117`). -/
def carve (size align : Nat) (cell : Extent) : Nat × List Extent :=
  let padding := padding align cell
  let leftover := wordSub cell.size size
  if padding = 0 then
    (cell.left, if 0 < leftover then [⟨word (cell.left + size), leftover⟩] else [])
  else
    let leftover := wordSub leftover padding
    let place := word (cell.left + padding)
    (place, ⟨cell.left, padding⟩ ::
      if 0 < leftover then [⟨word (place + size), leftover⟩] else [])

/-- What `alloc` and `allocLast` do with the result of their search. -/
def take (size align : Nat) :
    Option (List Extent × Extent × List Extent) → Option (Nat × Arena)
  | none => none
  | some (before, cell, after) =>
      let (place, cells) := carve size align cell
      some (place, ⟨before ++ cells ++ after⟩)

/-- `Arena::alloc` (`arena.cpp:22-69`): the place of the block, or `none` for the null pointer. -/
def alloc (a : Arena) (size align : Nat) : Option (Nat × Arena) :=
  take size align (search (fits size align) a.unused)

/-- `Arena::allocLast` (`arena.cpp:71-118`). -/
def allocLast (a : Arena) (size align : Nat) : Option (Nat × Arena) :=
  take size align (searchLast (fits size align) a.unused)

/-- Joins a cell with the first of those behind it if they touch (`arena.cpp:143-147`). -/
def joinNext (cell : Extent) : List Extent → Extent × List Extent
  | [] => (cell, [])
  | next :: after =>
      if right cell = next.left then (⟨cell.left, word (cell.size + next.size)⟩, after)
      else (cell, next :: after)

/-- Joins a cell with the last of those before it if they touch (`arena.cpp:148-152`). -/
def joinPrev (before : List Extent) (cell : Extent) : List Extent :=
  match before.getLast? with
  | none => [cell]
  | some prev =>
      if right prev = cell.left then
        before.dropLast ++ [⟨prev.left, word (prev.size + cell.size)⟩]
      else before ++ [cell]

/-- `Arena::free` (`arena.cpp:120-153`): the cell goes before the first one at no lower address. -/
def free (a : Arena) (place size : Nat) : Arena :=
  let before := a.unused.takeWhile fun next => !decide (place ≤ next.left)
  let after := a.unused.dropWhile fun next => !decide (place ≤ next.left)
  let (cell, after) := joinNext ⟨place, size⟩ after
  ⟨joinPrev before cell ++ after⟩

/-- `Arena::size` (`arena.cpp:155-169`). -/
def size (a : Arena) : Nat := a.unused.foldl (fun n cell => word (n + cell.size)) 0

/-- `Arena::Arena(place, size)` (`arena.h:93-96`). -/
def new (place size : Nat) : Arena := free ⟨[]⟩ place size

end Arena

/-- A block that `alloc` or `allocLast` handed out, with the alignment asked for. -/
structure Block where
  place : Nat
  size : Nat
  align : Nat
deriving DecidableEq, Repr

def Block.extent (b : Block) : Extent := ⟨b.place, b.size⟩

/-- An arena and the blocks its callers hold. -/
structure ArenaState where
  arena : Arena
  live : List Block
deriving DecidableEq, Repr

/-- The calls of an arena's users. `last` tells `allocLast` from `alloc`. -/
inductive ArenaOp where
  | alloc (last : Bool) (size align : Nat)
  | free (b : Block)
deriving DecidableEq, Repr

/-- The assertions of `alloc` and `allocLast` on their arguments (`arena.cpp:30-31`, `78-79`),
    which are words. -/
def accepted (size align : Nat) : Bool :=
  decide (align % Arena.ALIGN = 0 ∧ 0 < size ∧ size % Arena.ALIGN = 0 ∧ size < 4294967296 ∧
    align < 4294967296)

/-- One call. Only a block that was handed out and not yet given back is freed. -/
def ArenaState.step (s : ArenaState) : ArenaOp → Option ArenaState
  | .alloc last size align =>
      if accepted size align then
        match if last then s.arena.allocLast size align else s.arena.alloc size align with
        | none => some s
        | some (place, arena) => some ⟨arena, ⟨place, size, align⟩ :: s.live⟩
      else none
  | .free b =>
      if b ∈ s.live then some ⟨s.arena.free b.place b.size, s.live.erase b⟩ else none

/-- Where the arithmetic of a request holds: the alignment is a power of two, as the mask of
    `round` takes it, and the sum that the search compares with a cell does not wrap around to
    one that fits. -/
def ArenaState.Meets (s : ArenaState) : ArenaOp → Prop
  | .alloc _ size align =>
      (∃ k, align = 2 ^ k) ∧ ∀ cell ∈ s.arena.unused,
        Arena.fits size align cell = true → Arena.padding align cell + size < 4294967296
  | .free _ => True

/-- A region that the constructor accepts: its size is a word, and its end is an address or the
    end of the address space. -/
def Region (space : Extent) : Prop :=
  space.left % Arena.ALIGN = 0 ∧ 0 < space.size ∧ space.size % Arena.ALIGN = 0 ∧
    space.size < 4294967296 ∧ space.right ≤ 4294967296

instance (space : Extent) : Decidable (Region space) :=
  inferInstanceAs (Decidable (_ ∧ _ ∧ _ ∧ _ ∧ _))

/-- The runs of an arena over a region. -/
def arenaSystem (space : Extent) : System ArenaState ArenaOp :=
  System.ofStep (fun s => s = ⟨.new space.left space.size, []⟩) ArenaState.step

end EsOs.Kernel
