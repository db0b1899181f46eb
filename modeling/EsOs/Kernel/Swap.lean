import Mathlib.Logic.Function.Basic
import EsOs.Lib.System

/-!
# The slots of the swap space

`os/kernel/port/swap.cpp`: the swap space is cut into stretches of a page that holds a record of type
`SwapUse` and the pages of its slots. A record counts the references to its slots and links those
that are free. A record stays in memory, so that it is kept here by the offset of its page; the cache
that the swap space lies in answers for the pages of the slots.

An access outside of an array has no result, nor has an extension at which `size`, a `long`,
overflows.
-/

namespace EsOs.Kernel

namespace Swap

/-- `process.h:144`. -/
def NUM_ENTRIES : Nat := 1018

/-- `Page::SIZE * (NUM_ENTRIES + 1)`, the bytes that a record and its slots take. -/
def STRETCH : Nat := 4173824

/-- `--` on a `u16`. -/
def decrement (n : Nat) : Nat :=
  if n = 0 then 65535 else n - 1

/-- `SwapUse` (`process.h:146-160`). -/
structure SwapUse where
  offset : Nat
  freeCount : Nat
  freeIndex : Nat
  map : Nat → Nat
  ref : Nat → Nat

/-- `SwapUse::SwapUse` (`swap.cpp:25-38`). -/
def SwapUse.new (offset : Nat) : SwapUse where
  offset := offset
  freeCount := NUM_ENTRIES
  freeIndex := 0
  map n := n + 1
  ref _ := 0

/-- The first free slot is taken out of the links (`swap.cpp:121-124`). -/
def SwapUse.takeFirst (use : SwapUse) : SwapUse :=
  { use with
    ref := Function.update use.ref use.freeIndex ((use.ref use.freeIndex + 1) % 65536)
    freeIndex := use.map use.freeIndex
    freeCount := decrement use.freeCount }

/-- `++swap->ref[n]`, a `u16`. -/
def SwapUse.addRef (use : SwapUse) (n : Nat) : SwapUse :=
  { use with ref := Function.update use.ref n ((use.ref n + 1) % 65536) }

/-- `--swap->ref[n]`. -/
def SwapUse.dropRef (use : SwapUse) (n : Nat) : SwapUse :=
  { use with ref := Function.update use.ref n (decrement (use.ref n)) }

/-- A slot is linked before the free ones (`swap.cpp:140-142`). -/
def SwapUse.linkFirst (use : SwapUse) (n : Nat) : SwapUse :=
  { use with
    map := Function.update use.map n use.freeIndex
    freeIndex := n
    freeCount := (use.freeCount + 1) % 65536 }

end Swap

open Swap

/-- `Swap` (`process.h:162-165`), with the records in its pages and the size of its cache. -/
structure Swap where
  cacheSize : Nat
  uses : Nat → Option SwapUse
  freeList : List Nat
  fullList : List Nat
  size : Nat

namespace Swap

/-- `Swap::Swap` (`swap.cpp:40-48`). -/
def new (cacheSize : Nat) : Swap where
  cacheSize := cacheSize
  uses _ := none
  freeList := []
  fullList := []
  size := 0

/-- The offset of the record of a slot (`swap.cpp:68`). -/
def recordOf (offset : Nat) : Nat :=
  offset - offset % STRETCH

/-- `n` in `restore` and `put` (`swap.cpp:84`, `swap.cpp:136`), negative in the record's page. -/
def indexOf (offset : Nat) : Int :=
  (offset % STRETCH / 4096 : Nat) - 1

/-- `Cache::getPage` finds or makes a page inside of the cache (`cache.cpp:30-69`). -/
def hasPage (s : Swap) (offset : Nat) : Bool :=
  offset < s.cacheSize

/-- A record with new values in its page. -/
def setUse (s : Swap) (use : SwapUse) : Swap :=
  { s with uses := Function.update s.uses use.offset (some use) }

/-- `Extend swap` (`swap.cpp:97-114`), once a page is there. -/
def extend (s : Swap) : Swap :=
  { s.setUse (SwapUse.new s.size) with
    freeList := s.freeList ++ [s.size]
    size := s.size + STRETCH }

/-- A record moves to the end of `fullList` when its last slot is taken (`swap.cpp:124-128`). -/
def taken (s : Swap) (use : SwapUse) : Swap :=
  if use.freeCount ≤ 0 then
    { s with freeList := s.freeList.erase use.offset, fullList := s.fullList ++ [use.offset] }
  else s

/-- The slot that `Swap::get` takes (`swap.cpp:116-129`): its offset, if its page is there, and the
    swap space afterwards. -/
def take (s : Swap) : Option (Nat × Bool × Swap) :=
  match s.freeList with
  | [] => none
  | base :: _ =>
    match s.uses base with
    | none => none
    | some use =>
      if NUM_ENTRIES ≤ use.freeIndex then none
      else
        let offset := use.offset + 4096 * (1 + use.freeIndex)
        some (offset, s.hasPage offset, (s.setUse use.takeFirst).taken use.takeFirst)

/-- `Swap::get` (`swap.cpp:93-130`): nothing if the swap space cannot be extended. -/
def get (s : Swap) : Option (Option (Nat × Bool) × Swap) :=
  if s.freeList.isEmpty then
    if !s.hasPage s.size then some (none, s)
    else if 2147483648 ≤ s.size + STRETCH then none
    else s.extend.take.map fun (offset, page, s) => (some (offset, page), s)
  else s.take.map fun (offset, page, s) => (some (offset, page), s)

/-- `Swap::restore` (`swap.cpp:77-91`), and whether the page is there. -/
def restore (s : Swap) (offset : Nat) : Option (Bool × Swap) :=
  if !s.hasPage offset then some (false, s)
  else
    match s.uses (recordOf offset) with
    | none => none
    | some use =>
      if indexOf offset < 0 then none
      else some (true, s.setUse (use.addRef (indexOf offset).toNat))

/-- A record moves to the end of `freeList` when its first slot is put back
    (`swap.cpp:142-146`). -/
def putBack (s : Swap) (use : SwapUse) : Swap :=
  if use.freeCount = 1 then
    { s with fullList := s.fullList.erase use.offset, freeList := s.freeList ++ [use.offset] }
  else s

/-- `Swap::put` (`swap.cpp:132-148`). -/
def put (s : Swap) (offset : Nat) : Option Swap :=
  match s.uses (recordOf offset) with
  | none => none
  | some use =>
    if indexOf offset < 0 then none
    else
      let n := (indexOf offset).toNat
      let use := use.dropRef n
      if use.ref n = 0 then some ((s.setUse (use.linkFirst n)).putBack (use.linkFirst n))
      else some (s.setUse use)

end Swap

/-- The calls on the swap space. -/
inductive SwapCall where
  | get
  | restore (offset : Nat)
  | put (offset : Nat)

/-- A swap space with the slots that calls of `get` and `restore` have taken so far, and those that
    calls of `put` have put back. A slot is its record and its index. -/
structure SwapRun where
  swap : Swap
  takes : List (Nat × Int)
  puts : List (Nat × Int)

namespace SwapRun

/-- The record and the index of the slot at an offset. -/
def slotOf (offset : Nat) : Nat × Int :=
  (recordOf offset, indexOf offset)

/-- The gets and restores of a slot without its puts. -/
def held (s : SwapRun) (slot : Nat × Int) : Int :=
  s.takes.count slot - s.puts.count slot

/-- A call and what is kept of it. A `get` whose slot has no page has taken the slot. -/
def step (s : SwapRun) : SwapCall → Option SwapRun
  | .get => s.swap.get.map fun
    | (none, swap) => { s with swap := swap }
    | (some (offset, _), swap) => { s with swap := swap, takes := slotOf offset :: s.takes }
  | .restore offset => (s.swap.restore offset).map fun
    | (false, swap) => { s with swap := swap }
    | (true, swap) => { s with swap := swap, takes := slotOf offset :: s.takes }
  | .put offset => (s.swap.put offset).map fun swap =>
    { s with swap := swap, puts := slotOf offset :: s.puts }

/-- A new swap space in a cache. -/
def Fresh (s : SwapRun) : Prop :=
  ∃ cacheSize, s = ⟨.new cacheSize, [], []⟩

def system : EsOs.Lib.System SwapRun SwapCall :=
  .ofStep Fresh step

end SwapRun

end EsOs.Kernel
