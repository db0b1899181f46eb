import Mathlib
import EsOs.Kernel.Page

/-!
# The cache of a stream

`Cache` (`os/kernel/port/cache.cpp`) keeps pages of a backing stream, and `Page::fill`,
`Page::sync`, `Page::read` and `Page::write` (`os/kernel/port/page.cpp`) move bytes between the
pages and the stream.

The state is that of one cache together with the page table, which it shares with others. What
others do to the table while the cache waits for a page is an argument of the operations. The times
of last update are left out.
-/

namespace EsOs.Kernel

open EsOs.Lib

/-- A backing stream, which keeps what is written to it. It moves at most `grain` bytes at once. -/
structure Store where
  size : Int
  data : Int → UInt8
  grain : Nat
  grain_pos : 0 < grain

namespace Store

/-- How many bytes a read of `count` bytes at `pos` returns. -/
def read (s : Store) (count : Nat) (pos : Int) : Int :=
  min (min count s.grain) (s.size - pos)

/-- How many bytes a write of `count` bytes takes. -/
def writeCount (s : Store) (count : Nat) : Nat :=
  min count s.grain

/-- Writes the first bytes of `src` at `pos`. -/
def write (s : Store) (src : Nat → UInt8) (count : Nat) (pos : Int) : Store :=
  { s with
    size := max s.size (pos + s.writeCount count)
    data := fun x =>
      if pos ≤ x ∧ x < pos + s.writeCount count then src (x - pos).toNat else s.data x }

/-- The bytes behind the old or the new end are not defined: they are those of `fresh`. -/
def setSize (s : Store) (newSize : Int) (fresh : Int → UInt8) : Store :=
  { s with
    size := newSize
    data := fun x => if x < s.size ∧ x < newSize then s.data x else fresh x }

end Store

namespace Page

/-- The loop of `Page::fill`; `len` bytes are there. -/
def fillLoop (store : Store) (offset : Int) : Nat → Nat → (Nat → UInt8) → Nat × (Nat → UInt8)
  | 0, len, data => (len, data)
  | fuel + 1, len, data =>
      if 4096 ≤ len then (len, data)
      else
        let n := store.read (4096 - len) (offset + len)
        if n ≤ 0 then (len, fun i => if len ≤ i ∧ i < 4096 then 0 else data i)
        else fillLoop store offset fuel (len + n.toNat) fun i =>
          if len ≤ i ∧ i < len + n.toNat then store.data (offset + i) else data i

/-- `Page::fill` (`os/kernel/port/page.cpp:47-73`), with the number of bytes. -/
def fill (page : Page) (store : Store) : Page × Nat :=
  if page.filled then (page, 4096)
  else
    let (len, data) := fillLoop store page.offset 4096 0 page.data
    ({ page with data := data, filled := true }, len)

/-- `Page::read` (`os/kernel/port/page.cpp:172-179`). -/
def read (page : Page) (count offset : Nat) : List UInt8 :=
  (List.range count).map fun i => page.data (offset + i)

/-- `Page::write` (`os/kernel/port/page.cpp:181-196`). -/
def write (page : Page) (src : List UInt8) (offset : Nat) : Page :=
  let bits := (offset + src.length + 511) / 512 - offset / 512
  { page with
    data := fun i =>
      if offset ≤ i ∧ i < offset + src.length then src.getD (i - offset) 0 else page.data i
    map := page.map ||| ((1 <<< bits - 1) <<< (offset / 512)) }

/-- The loop of `Page::sync` that collects a run of changed sectors, from its second turn on; `map`
    and `mask` have 64 bits. -/
def syncRun (sectorSize shift : Nat) : Nat → Nat → Nat → Nat → Nat × Nat × Nat
  | 0, map, mask, len => (map, mask, len)
  | fuel + 1, map, mask, len =>
      let len := len + sectorSize
      let map := map &&& (mask ^^^ (2 ^ 64 - 1))
      let mask := mask <<< shift
      if map &&& mask ≠ 0 then syncRun sectorSize shift fuel map mask len else (map, mask, len)

/-- The loop of `Page::sync` that writes `len` bytes back from `pos` on. -/
def writeBack (page : Page) : Nat → Nat → Nat → Store → Store × Nat
  | 0, _, pos, store => (store, pos)
  | fuel + 1, len, pos, store =>
      if len = 0 then (store, pos)
      else
        let n := store.writeCount len
        if n = 0 then (store, pos)
        else writeBack page fuel (len - n) (pos + n)
          (store.write (fun i => page.data (pos + i)) len (page.offset + pos))

/-- The outer loop of `Page::sync`, with the part of the map that is left. -/
def syncLoop (page : Page) (sectorSize shift : Nat) : Nat → Nat → Nat → Nat → Store → Store × Nat
  | 0, _, _, pos, store => (store, pos)
  | fuel + 1, map, mask, pos, store =>
      if map = 0 then (store, pos)
      else if map &&& mask = 0 then
        syncLoop page sectorSize shift fuel map (mask <<< shift) (pos + sectorSize) store
      else
        let (map, mask, len) := syncRun sectorSize shift 64 map mask 0
        let (store, pos) := writeBack page len len pos store
        syncLoop page sectorSize shift fuel map mask pos store

end Page

/-- One cache, and the page table. `number` stands for its address. -/
structure CacheState where
  table : PageTable
  number : Nat
  backingStore : Store
  pageSet : Nat
  size : Int
  changedList : List Nat
  sectorSize : Nat

namespace CacheState

/-- `Cache::Cache` (`os/kernel/port/cache.cpp:385-398`) and `Cache::setSectorSize`. -/
def create (t : PageTable) (number : Nat) (store : Store) (pageSet sectorSize : Nat) :
    CacheState where
  table := t
  number := number
  backingStore := store
  pageSet := pageSet
  size := store.size
  changedList := []
  sectorSize := sectorSize

/-- Changes one page. -/
def updPage (s : CacheState) (p : Nat) (f : Page → Page) : CacheState :=
  { s with table := s.table.updPage p f }

/-- `Page::release`. -/
def release (s : CacheState) (p : Nat) : CacheState :=
  { s with table := s.table.release p }

/-- `Cache::change` (`os/kernel/port/cache.cpp:123-152`). -/
def change (s : CacheState) (p : Nat) : CacheState :=
  let (t, changed) := s.table.change p
  { s with
    table := t, changedList := if changed then addLast s.changedList p else s.changedList }

/-- `Cache::clean` of a page (`os/kernel/port/cache.cpp:154-179`). -/
def clean (s : CacheState) (p : Nat) : CacheState × Bool :=
  let (t, changed) := s.table.clean p
  ({ s with
    table := t, changedList := if changed then s.changedList.erase p else s.changedList }, changed)

/-- `Page::free` of a page of this cache (`os/kernel/port/page.cpp:151-163`). -/
def freePage (hash : HashCode) (s : CacheState) (p : Nat) : CacheState :=
  let s := s.updPage p fun page => { page with free := true }
  let s := { s with table := s.table.remove hash p }
  (s.clean p).1.release p

/-- `Page::sync` (`os/kernel/port/page.cpp:75-128`), with the place behind the last byte written. -/
def sync (s : CacheState) (p : Nat) : CacheState × Nat :=
  match s.clean p with
  | (s, false) => (s, 4096)
  | (s, true) =>
      let map := (s.table.pages p).map
      let s := s.updPage p fun page => { page with map := 0 }
      let shift := s.sectorSize / 512
      let (store, pos) := (s.table.pages p).syncLoop s.sectorSize shift 64 map (1 <<< shift - 1) 0
        s.backingStore
      ({ s with backingStore := store }, pos)

/-- One turn of `Cache::flush` and of `Cache::clean`: the page found in the list of changed pages
    is referred to and written back. -/
def syncPage (s : CacheState) (p : Nat) : CacheState :=
  (({ s with table := s.table.addRef p } : CacheState).sync p).1.release p

/-- The loop of `Cache::flush`; the first argument bounds the number of turns. -/
def flushLoop : Nat → CacheState → CacheState
  | 0, s => s
  | fuel + 1, s =>
      match s.changedList with
      | [] => s
      | p :: _ => flushLoop fuel (s.syncPage p)

/-- `Cache::flush` (`os/kernel/port/cache.cpp:310-321`). -/
def flush (s : CacheState) : CacheState :=
  s.flushLoop s.changedList.length

/-- One turn of `Cache::getPage`: the page of an offset, if it can be had now. -/
def tryPage (hash : HashCode) (s : CacheState) (offset : Int) : CacheState × Option Nat :=
  match s.table.lookup hash s.number offset with
  | (t, some p) => ({ s with table := t }, some p)
  | (t, none) =>
      match t.alloc hash s.pageSet s.number offset with
      | (t, some p) => ({ s with table := t }, some p)
      | (t, none) =>
          match t.steal hash s.pageSet s.number offset with
          | (t, some p) => ({ s with table := t }, some p)
          | (t, none) => ({ s with table := t }, none)

end CacheState

/-- What others may do to a page while a cache is not at work: they leave its pages in the page
    table, and neither mark them clean nor write to them. -/
def PageOp.Foreign (t : PageTable) (cache : Nat) : PageOp → Prop
  | .alloc _ c _ => c ≠ cache
  | .steal _ c _ => c ≠ cache
  | .change p => (t.pages p).cache ≠ some cache
  | .clean p => (t.pages p).cache ≠ some cache
  | .free p => (t.pages p).cache ≠ some cache
  | .destroy _ => False
  | _ => True

/-- One step of others. They write to the pages of their own caches, where `map` has a bit for each
    of the eight sectors. -/
inductive OtherStep (hash : HashCode) (managed : List Nat) (cache : Nat) :
    PageTable → PageTable → Prop
  | op {t : PageTable} (op : PageOp) : t.Allowed hash managed op → op.Foreign t cache →
      OtherStep hash managed cache t (t.run hash op)
  | write {t : PageTable} (p : Nat) (filled : Bool) (map : Nat) (data : Nat → UInt8) :
      map < 2 ^ 8 → t.Held managed p → (t.pages p).cache ≠ some cache →
      OtherStep hash managed cache t
        (t.updPage p fun page => { page with filled := filled, map := map, data := data })

/-- What others do between two points of a run of a cache. -/
structure Interference (hash : HashCode) (managed : List Nat) (cache : Nat) where
  run : PageTable → PageTable
  steps : ∀ t, Relation.ReflTransGen (OtherStep hash managed cache) t (run t)

/-- Others do nothing. -/
def Interference.idle {hash : HashCode} {managed : List Nat} {cache : Nat} :
    Interference hash managed cache :=
  ⟨fun t => t, fun _ => .refl⟩

namespace CacheState

variable {hash : HashCode} {managed : List Nat} {cache : Nat}

/-- The state after others have been at work. -/
def interfere (s : CacheState) (w : Interference hash managed cache) : CacheState :=
  { s with table := w.run s.table }

/-- `Cache::getPage` (`os/kernel/port/cache.cpp:30-69`). A page is `none` when the offset is behind
    the end. What others do in each `PageTable::wait` is taken off `waits`; the whole is `none` when
    the cache is still waiting after these. -/
def getPage (offset : Int) :
    List (Interference hash managed cache) → CacheState →
      Option (CacheState × Option Nat × List (Interference hash managed cache))
  | waits, s =>
      if s.size ≤ pageTrunc offset then some (s, none, waits)
      else
        match s.tryPage hash (pageTrunc offset) with
        | (s, some p) => some (s, some p, waits)
        | (s, none) =>
            match waits with
            | [] => none
            | w :: waits => getPage offset waits (s.flush.interfere w)

/-- The loop of `Cache::read`, with the bytes that are still to be read. -/
def readLoop : Nat → Nat → Int → List (Interference hash managed cache) → CacheState →
    Option (CacheState × List UInt8 × List (Interference hash managed cache))
  | 0, _, _, waits, s => some (s, [], waits)
  | fuel + 1, count, offset, waits, s =>
      if count = 0 ∨ s.size ≤ offset then some (s, [], waits)
      else
        match s.getPage offset waits with
        | none => none
        | some (s, none, waits) => some (s, [], waits)
        | some (s, some p, waits) =>
            let start := (offset % 4096).toNat
            let n := min (min (4096 - start) count) (s.size - offset).toNat
            let s := s.updPage p fun page => (page.fill s.backingStore).1
            let bytes := (s.table.pages p).read n start
            match readLoop fuel (count - n) (offset + n) waits (s.release p) with
            | none => none
            | some (s, rest, waits) => some (s, bytes ++ rest, waits)

/-- `Cache::read` (`os/kernel/port/cache.cpp:181-213`). Each turn reads a byte at least. -/
def read (s : CacheState) (count : Nat) (offset : Int)
    (waits : List (Interference hash managed cache)) :
    Option (CacheState × List UInt8 × List (Interference hash managed cache)) :=
  s.readLoop count count offset waits

/-- The loop of `Cache::setSize`: pages from `offset` on are freed. -/
def freeLoop (hash : HashCode) : Nat → Int → CacheState → CacheState
  | 0, _, s => s
  | fuel + 1, offset, s =>
      if s.size ≤ offset then s
      else
        match s.table.lookup hash s.number offset with
        | (t, none) => freeLoop hash fuel (offset + 4096) { s with table := t }
        | (t, some p) =>
            freeLoop hash fuel (offset + 4096) (({ s with table := t } : CacheState).freePage hash p)

/-- `Cache::setSize` behind the check of its argument. -/
def resize (hash : HashCode) (s : CacheState) (newSize : Int) (fresh : Int → UInt8) : CacheState :=
  let s := { s with backingStore := s.backingStore.setSize newSize fresh }
  let s := s.freeLoop hash s.size.toNat (pageTrunc (newSize + 4095))
  { s with size := newSize }

/-- `Cache::setSize` (`os/kernel/port/cache.cpp:266-295`); `none` is `EINVAL`. -/
def setSize (hash : HashCode) (s : CacheState) (newSize : Int) (fresh : Int → UInt8) :
    Option CacheState :=
  if newSize < 0 then none else some (s.resize hash newSize fresh)

/-- The loop of `Cache::write`, with the bytes that are still to be written; it returns how many
    have been. -/
def writeLoop : Nat → List UInt8 → Int → List (Interference hash managed cache) → CacheState →
    Option (CacheState × Nat × List (Interference hash managed cache))
  | 0, _, _, waits, s => some (s, 0, waits)
  | fuel + 1, src, offset, waits, s =>
      if src.length = 0 ∨ s.size ≤ offset then some (s, 0, waits)
      else
        match s.getPage offset waits with
        | none => none
        | some (s, none, waits) => some (s, 0, waits)
        | some (s, some p, waits) =>
            let start := (offset % 4096).toNat
            let n := min (min (4096 - start) src.length) (s.size - offset).toNat
            let s := if n < 4096 then s.updPage p fun page => (page.fill s.backingStore).1 else s
            let s := s.updPage p fun page =>
              { page.write (src.take n) start with filled := true }
            match writeLoop fuel (src.drop n) (offset + n) waits ((s.change p).release p) with
            | none => none
            | some (s, len, waits) => some (s, n + len, waits)

/-- `Cache::write` (`os/kernel/port/cache.cpp:215-258`). Each turn writes a byte at least. A size
    that is set here is not negative. -/
def write (s : CacheState) (src : List UInt8) (offset : Int) (fresh : Int → UInt8)
    (waits : List (Interference hash managed cache)) :
    Option (CacheState × Nat × List (Interference hash managed cache)) :=
  let s := if s.size < offset + src.length then s.resize hash (offset + src.length) fresh else s
  s.writeLoop src.length src offset waits

end CacheState

/-- A page of the sets that the cache asks can be had: it is on one of their lists, or it is a changed
    page of the cache that nobody else refers to. -/
def CacheState.Obtainable (s : CacheState) : Prop :=
  ∃ m ∈ s.table.above (s.pageSet + 1) s.pageSet,
    (s.table.sets m).freeList ≠ [] ∨ (s.table.sets m).standbyList ≠ [] ∨
      ∃ p ∈ s.changedList, (s.table.pages p).pageSet = m ∧ (s.table.pages p).ref = 1

/-- What a cache stands for: a size, and the bytes below it that are defined. -/
structure File where
  size : Int
  content : Int → Option UInt8

namespace File

/-- The bytes of `src` from `offset` on, and the old ones elsewhere. -/
def overwrite (content : Int → Option UInt8) (src : List UInt8) (offset : Int) :
    Int → Option UInt8 :=
  fun x => if offset ≤ x ∧ x < offset + src.length then src[(x - offset).toNat]? else content x

/-- The bytes below `newSize`. -/
def cut (content : Int → Option UInt8) (newSize : Int) : Int → Option UInt8 :=
  fun x => if x < newSize then content x else none

def write (file : File) (src : List UInt8) (offset : Int) : File where
  size := max file.size (offset + src.length)
  content := overwrite file.content src offset

def setSize (file : File) (newSize : Int) : File where
  size := newSize
  content := cut file.content newSize

/-- The bytes of a stream. -/
def ofStore (store : Store) : File where
  size := store.size
  content := fun x => if 0 ≤ x ∧ x < store.size then some (store.data x) else none

end File

/-- The steps of a cache: its operations, the writing back of one stale page (`Cache::clean`), and
    what others do between them. -/
inductive CacheOp (hash : HashCode) (managed : List Nat) (cache : Nat)
  | read (count : Nat) (offset : Int) (waits : List (Interference hash managed cache))
  | write (src : List UInt8) (offset : Int) (fresh : Int → UInt8)
      (waits : List (Interference hash managed cache))
  | setSize (newSize : Int) (fresh : Int → UInt8)
  | flush
  | clean (page : Nat)
  | others (w : Interference hash managed cache)

/-- A step of a cache, with what becomes of the file it stands for. -/
def CacheState.step {hash : HashCode} {managed : List Nat} {cache : Nat} :
    CacheState × File → CacheOp hash managed cache → Option (CacheState × File)
  | (s, file), .read count offset waits =>
      (s.read count offset waits).map fun result => (result.1, file)
  | (s, file), .write src offset fresh waits =>
      (s.write src offset fresh waits).map fun result => (result.1, file.write src offset)
  | (s, file), .setSize newSize fresh =>
      match s.setSize hash newSize fresh with
      | none => some (s, file)
      | some s => some (s, file.setSize newSize)
  | (s, file), .flush => some (s.flush, file)
  | (s, file), .clean page =>
      if page ∈ s.changedList then some (s.syncPage page, file) else none
  | (s, file), .others w => some (s.interfere w, file)

/-- The runs of cache number `cache`, from its creation over any stream, when the page table is as
    the page sets may have left it and no page belongs to the cache. -/
def cacheSystem (hash : HashCode) (managed : List Nat) (cache : Nat) :
    System (CacheState × File) (CacheOp hash managed cache) :=
  .ofStep (fun s => ∃ t store pageSet sectorSize,
      (pageSystem hash managed).RunWith (fun t op => op.LeavesNone t) t ∧
      (t.sets pageSet).alive = true ∧ (∀ p, (t.pages p).cache ≠ some cache) ∧
      512 ≤ sectorSize ∧ sectorSize ≤ 4096 ∧ sectorSize ∣ 4096 ∧
      s = (.create t cache store pageSet sectorSize, .ofStore store))
    CacheState.step

end EsOs.Kernel
