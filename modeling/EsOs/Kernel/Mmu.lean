import Mathlib.Data.Int.Basic
import Mathlib.Data.List.Basic
import Mathlib.Logic.Function.Basic

/-!
# The address space of a process

The map list of a process and the operations that edit it: `Process::map`, `Process::unmap` and
`Process::setBreak` of `os/kernel/port/process.cpp`, with the address arithmetic of `Page`
(`os/kernel/include/cache.h`) and the `Map` record of `os/kernel/port/map.cpp`.

Addresses are 32-bit and kept as natural numbers below `2^32`; a `long long` is an `Int`, and a
pointer sum wraps. The list is the doubly linked `Map::List`, read in its forward order.
-/

namespace EsOs.Kernel

/-- `static_cast<u8*>(p) + n`: a pointer moved by a `long long`, in 32-bit arithmetic. -/
def addPtr (p : Nat) (n : Int) : Nat :=
  (((p : Int) + n) % 4294967296).toNat

/-- A `long long` stored into a 32-bit `long`. -/
def toLong (n : Int) : Int :=
  n.bmod 4294967296

namespace Page

/-- `Page::SIZE` (`os/kernel/pc/pc_init.cpp:77`). -/
def SIZE : Nat := 4096

/-- `Page::pageOffset`; the argument is converted to a 32-bit `unsigned long`. -/
def pageOffset (offset : Int) : Nat :=
  (offset % 4096).toNat

/-- `Page::pageBase`; the argument is converted to a 32-bit `unsigned long`. -/
def pageBase (pte : Int) : Int :=
  pte % 4294967296 - pte % 4096

/-- `Page::round`: up to the next page boundary, wrapping at the end of the address space. -/
def round (ptr : Nat) : Nat :=
  let addr := (ptr + 4095) % 4294967296
  addr - addr % 4096

/-- `Page::trunc`: down to the page boundary. -/
def trunc (ptr : Nat) : Nat :=
  ptr - ptr % 4096

end Page

/-- `Process::USER_MIN` (`os/kernel/port/mmu.cpp:25`). -/
def USER_MIN : Nat := 0x1000

/-- `Process::USER_MAX` (`os/kernel/port/mmu.cpp:26`). -/
def USER_MAX : Nat := 0x80000000 - 0x200000

/-- `es::CurrentProcess::MAP_FIXED` (`include/es/base/IProcess.idl:102`). -/
def MAP_FIXED : Nat := 0x10

/-- `PROT_WRITE` (`include/es/base/IProcess.idl:98`). -/
def PROT_WRITE : Nat := 0x2

/-- `Map` of `os/kernel/include/process.h`; `end_` is the field `end`. -/
structure Map (P : Type _) where
  start : Nat
  end_ : Nat
  length : Int
  prot : Nat
  flags : Nat
  pageable : Option P
  offset : Int
  deriving DecidableEq, Repr

/-- The arguments of a call `mmu->unset(start, count, pageable, offset)`. -/
structure Unset (P : Type _) where
  start : Nat
  count : Int
  pageable : Option P
  offset : Int
  deriving DecidableEq, Repr

/-- The fields of `Process` that `map`, `unmap` and `setBreak` work on: the map list and the
    break value `end`. -/
structure Process (P : Type _) where
  mapList : List (Map P)
  end_ : Nat
  deriving DecidableEq, Repr

variable {P : Type _}

namespace Map

/-- The constructor of `Map` (`os/kernel/port/map.cpp:24-49`): the end is rounded up and the length is
    stored in a `long`. -/
def new (start end_ : Nat) (length : Int) (prot flags : Nat) (pageable : Option P)
    (offset : Int) : Map P where
  start := start
  end_ := Page.round end_
  length := toLong length
  prot := prot
  flags := flags
  pageable := pageable
  offset := offset

end Map

namespace Process

/-- `Process::lookup`: the map that holds the address. -/
def lookupIn (addr : Nat) : List (Map P) → Option (Map P)
  | [] => none
  | m :: ms =>
      if m.end_ ≤ addr then lookupIn addr ms
      else if m.start ≤ addr then some m
      else none

/-- `Process::lookup` (`os/kernel/port/process.cpp:59-81`). -/
def lookup (p : Process P) (addr : Nat) : Option (Map P) :=
  lookupIn addr p.mapList

/-- The loop of `Process::isValid`. -/
def validFrom (write : Bool) (end_ : Nat) : Nat → List (Map P) → Bool
  | _, [] => false
  | start, m :: ms =>
      if start < m.start then false
      else if start < m.end_ then
        if write ∧ m.prot &&& PROT_WRITE = 0 then false
        else if m.end_ < end_ then validFrom write end_ m.end_ ms
        else true
      else validFrom write end_ start ms

/-- `Process::isValid(start, length, write)` (`os/kernel/port/process.cpp:83-115`). -/
def isValid (p : Process P) (start : Nat) (length : Int) (write : Bool) : Bool :=
  let end_ := addPtr start length
  if start < end_ then validFrom write end_ start p.mapList else false

/-- The loop of `Process::map` for `MAP_FIXED`: the list around the place of `[start, end_)`, or
    `none` when a map overlaps it. -/
def fixedPlace (start end_ : Nat) : List (Map P) → Option (List (Map P) × List (Map P))
  | [] => some ([], [])
  | m :: ms =>
      if end_ ≤ m.start then some ([], m :: ms)
      else if start < m.end_ then none
      else (fixedPlace start end_ ms).map fun (before, after) => (m :: before, after)

/-- The loop of `Process::map` without `MAP_FIXED`: each map in the way moves the candidate
    behind itself. Returns the candidate and the list around it. -/
def freePlace (length : Int) (start end_ : Nat) :
    List (Map P) → Nat × Nat × List (Map P) × List (Map P)
  | [] => (start, end_, [], [])
  | m :: ms =>
      if end_ ≤ m.start then (start, end_, [], m :: ms)
      else
        let start' := if start < m.end_ then m.end_ else start
        let end' := if start < m.end_ then addPtr m.end_ length else end_
        let (s, e, before, after) := freePlace length start' end' ms
        (s, e, m :: before, after)

/-- The search of `Process::map` for the bounds of the new map and its place in the list, between
    the first and the second part returned; `none` refuses the request. -/
def findPlace (flags start : Nat) (length : Int) (min max : Nat) (l : List (Map P)) :
    Option (Nat × Nat × List (Map P) × List (Map P)) :=
  if flags &&& MAP_FIXED ≠ 0 then
    let end_ := addPtr start length
    if start < min ∨ max < end_ ∨ end_ ≤ start then none
    else (fixedPlace start end_ l).map fun (before, after) => (start, end_, before, after)
  else
    let start := if start < min then min else start
    let (s, e, before, after) := freePlace length start (addPtr start length) l
    if max < e ∨ e ≤ s then none else some (s, e, before, after)

/-- `Process::map` with the size of the pageable object and the bounds of the address space
    (`os/kernel/port/process.cpp:132-217`). The result is the returned pointer, 0 for a refused
    request, and the process; `none` is the exception of a `new Map` that runs out of memory
    (`alloc = false`). -/
def mapSized (p : Process P) (start : Nat) (length : Int) (prot flags : Nat)
    (pageable : Option P) (offset size : Int) (min max : Nat) (alloc : Bool) :
    Option (Nat × Process P) :=
  if Page.pageOffset offset ≠ Page.pageOffset start then some (0, p)
  else
    let size := if length < size then length else size
    let start := Page.trunc start
    let length := length + Page.pageOffset offset
    let size := size + Page.pageOffset offset
    let offset := Page.pageBase offset
    match findPlace flags start length min max p.mapList with
    | none => some (0, p)
    | some (s, e, before, after) =>
        if alloc then
          -- without a pageable object the map just uses the swap file
          let m := match pageable with
            | none => Map.new s e 0 prot flags none 0
            | some object => Map.new s e size prot flags (some object) offset
          some (m.start, { p with mapList := before ++ m :: after })
        else none

/-- `Process::map` (`os/kernel/port/process.cpp:117-130`). `getSize` answers
    `pageable->getSize()`, `none` standing for an exception. -/
def map (getSize : P → Option Int) (p : Process P) (start : Nat) (length : Int)
    (prot flags : Nat) (pageable : Option P) (offset : Int) (alloc : Bool) :
    Option (Nat × Process P) :=
  match pageable with
  | none => p.mapSized start length prot flags none offset length USER_MIN USER_MAX alloc
  | some object =>
      match getSize object with
      | none => none
      | some size =>
          p.mapSized start length prot flags (some object) offset (size - offset)
            USER_MIN USER_MAX alloc

/-- What `Process::unmap` makes of a map that overlaps `[start, end_)` without lying inside it,
    and the calls of `mmu->unset`. -/
def trimMap (start end_ : Nat) (m : Map P) : Map P × List (Unset P) :=
  let (m, tail) :=
    if m.start < start then
      ({ m with end_ := start },
        [⟨start, (m.end_ : Int) - start, m.pageable, m.offset + ((start : Int) - m.start)⟩])
    else (m, [])
  let (m, front) :=
    if end_ < m.end_ then
      ({ m with start := end_ },
        [⟨end_, (m.end_ : Int) - end_, m.pageable, m.offset + ((end_ : Int) - m.start)⟩])
    else (m, [])
  -- the difference of two `u32*` counts words, not bytes
  ({ m with length := ((m.end_ : Int) - m.start) / 4 }, tail ++ front)

/-- The loop of `Process::unmap` (`os/kernel/port/process.cpp:239-272`). -/
def unmapFrom (start end_ : Nat) : List (Map P) → List (Map P) × List (Unset P)
  | [] => ([], [])
  | m :: ms =>
      if end_ ≤ m.start then (m :: ms, [])
      else
        let (rest, unsets) := unmapFrom start end_ ms
        if m.end_ ≤ start then (m :: rest, unsets)
        else if start ≤ m.start ∧ m.end_ ≤ end_ then
          (rest, ⟨m.start, m.length, m.pageable, m.offset⟩ :: unsets)
        else
          let (trimmed, calls) := trimMap start end_ m
          (trimmed :: rest, calls ++ unsets)

/-- `Process::unmap` (`os/kernel/port/process.cpp:219-273`): the process and the calls of
    `mmu->unset`, or `none` when the check for a wrap around refuses the range. -/
def unmap? (p : Process P) (start : Nat) (length : Int) : Option (Process P × List (Unset P)) :=
  let end_ := Page.round (addPtr start length)
  let start := Page.trunc start
  if end_ ≤ start then none
  else
    let (maps, unsets) := unmapFrom start end_ p.mapList
    some ({ p with mapList := maps }, unsets)

/-- `Process::unmap` as its caller sees it: a refused range leaves the process as it is. -/
def unmap (p : Process P) (start : Nat) (length : Int) : Process P :=
  match p.unmap? start length with
  | none => p
  | some (p', _) => p'

/-- The search of `Process::setBreak`: the list up to the map that holds the break, the map, and
    the list behind it. -/
def breakPlace (brk : Nat) : List (Map P) → Option (List (Map P) × Map P × List (Map P))
  | [] => none
  | m :: ms =>
      if m.end_ < brk then (breakPlace brk ms).map fun (before, x, after) => (m :: before, x, after)
      else some ([], m, ms)

/-- `Process::setBreak` (`os/kernel/port/process.cpp:275-341`): the returned pointer and the
    process; `none` is the fault of a write through the null `map` when no map reaches up to the
    break. -/
def setBreak (p : Process P) (increment : Int) : Option (Nat × Process P) :=
  if increment = 0 then some (p.end_, p)
  else
    let newend := addPtr p.end_ increment
    match breakPlace p.end_ p.mapList with
    | none =>
        -- growing past a bound is refused before the null map is used
        if 0 < increment ∧ (newend < p.end_ ∨ USER_MAX < newend) then some (p.end_, p)
        else if increment < 0 ∧ p.end_ < newend then some (p.end_, p)
        else none
    | some (before, m, after) =>
        if p.end_ < m.start then some (p.end_, p)
        else if 0 < increment ∧ (newend < p.end_ ∨ USER_MAX < newend ∨
            ∃ next ∈ after.head?, next.start ≤ newend) then some (p.end_, p)
        else if increment < 0 ∧ (p.end_ < newend ∨ newend < addPtr m.start m.length) then
          some (p.end_, p)
        else some (p.end_,
          { p with
            mapList := before ++ { m with end_ := Page.round newend } :: after
            end_ := newend })

end Process

end EsOs.Kernel

/-!
## The page tables of a process

`Mmu` (`os/kernel/port/mmu.cpp`) keeps the page directory of a process and its page tables, which
are pages of a cache. An entry is a 32-bit word; whom an unset entry is given back to depends on
its bits. The pages given back are listed in their order, as the arguments of the calls made.
-/

namespace EsOs.Kernel

/-- `Page::PTEVALID` (`os/kernel/include/cache.h:122`). -/
def Page.PTEVALID : Nat := 1

/-- `Page::PTEPRIVATE` (`os/kernel/include/cache.h:130`). -/
def Page.PTEPRIVATE : Nat := 512

/-- `Mmu` (`os/kernel/include/process.h:120-141`): the directory, and the entries of the tables. -/
structure Mmu where
  directory : Nat → Nat
  table : Nat → Nat → Nat

/-- A call that gives back what an entry stood for: `swap->put(PageTable::lookup(pte))`,
    `swap->put(Page::pageBase(pte))` or `pageable->put(offset, pte)`. -/
inductive GivenBack where
  | page (pte : Nat)
  | swapped (base : Int)
  | pageable (offset : Int) (pte : Nat)
deriving DecidableEq, Repr

namespace Mmu

/-- The variables of the loops of `unset`, and the calls made. -/
structure Unsetting where
  mmu : Mmu
  addr : Nat
  offset : Int
  given : List GivenBack

/-- The call for an entry (`mmu.cpp:161-178`). -/
def giveBack (offset : Int) (pte : Nat) : List GivenBack :=
  if pte &&& Page.PTEPRIVATE ≠ 0 then
    if pte &&& Page.PTEVALID ≠ 0 then [.page pte] else [.swapped (Page.pageBase pte)]
  else if pte &&& Page.PTEVALID ≠ 0 then [.pageable offset pte]
  else []

/-- The body of the inner loop (`mmu.cpp:160-181`). -/
def Unsetting.clear (t i : Nat) (s : Unsetting) : Unsetting where
  mmu := { s.mmu with
    table := Function.update s.mmu.table t (Function.update (s.mmu.table t) i 0) }
  addr := (s.addr + 4096) % 4294967296
  offset := s.offset + 4096
  given := s.given ++ giveBack s.offset (s.mmu.table t i)

/-- The inner loop (`mmu.cpp:159-182`), which counts down before it looks at the count. -/
def clearLoop (t : Nat) : (countInTable i : Nat) → Unsetting → Unsetting
  | 0, _, s => s
  | countInTable + 1, i, s =>
      if 0 < countInTable then clearLoop t countInTable (i + 1) (s.clear t i) else s

/-- The outer loop (`mmu.cpp:138-183`). -/
def unsetLoop (count : Nat) (s : Unsetting) : Unsetting :=
  if 0 < count then
    let i := s.addr % 0x400000 / 4096
    let countInTable := if count < 1024 - i then count else 1024 - i
    if s.mmu.directory (s.addr / 0x400000) &&& Page.PTEVALID = 0 then
      unsetLoop (count - countInTable)
        { s with
          addr := (s.addr + 4096 * countInTable) % 4294967296
          offset := s.offset + 4096 * countInTable }
    else unsetLoop (count - countInTable) (clearLoop (s.addr / 0x400000) countInTable i s)
  else s
termination_by count
decreasing_by all_goals (split <;> omega)

/-- `Mmu::unset` (`mmu.cpp:133-184`): the tables and the calls made. -/
def unset (m : Mmu) (start : Nat) (count offset : Int) : Mmu × List GivenBack :=
  let s := unsetLoop (count.tdiv 4096).toNat ⟨m, start, offset, []⟩
  (s.mmu, s.given)

end Mmu

end EsOs.Kernel
