import EsOs.Lib.System
import Mathlib.Data.List.Basic
import Mathlib.Logic.Function.Basic

/-!
# Pages, page sets and the page table

The pages of memory that hold the contents of caches: `Page` (`os/kernel/port/page.cpp`), the free
and standby lists of `PageSet` (`os/kernel/port/pageSet.cpp`) and the hash table `PageTable`
(`os/kernel/port/pageTable.cpp`).

Pages, page sets and caches are numbered. The hash function is a parameter, since it is made from
the address of the cache. The counts that caches keep of their pages are left out.

The runs of the page sets are at the end: what each holder of pages may ask for, and the state
behind it.
-/

namespace EsOs.Kernel

open EsOs.Lib

/-- `Page` (`os/kernel/include/cache.h:40-74`); the flags `Changed` and `Free` are kept apart, and
    `data` is what `pointer` points to. -/
structure Page where
  ref : Int
  cache : Option Nat
  offset : Int
  changed : Bool
  free : Bool
  pageSet : Nat
  map : Nat
  filled : Bool
  data : Nat → UInt8

/-- `PageSet` (`os/kernel/include/cache.h:257-266`); `alive` is cleared when it is destroyed. -/
structure PageSet where
  alive : Bool
  parent : Option Nat
  freeList : List Nat
  standbyList : List Nat
  freeCount : Int
  standbyCount : Int
  deriving DecidableEq, Repr

/-- The pages, the chains of the page table and the page sets created so far. -/
structure PageTable where
  pages : Nat → Page
  hashTable : Nat → List Nat
  sets : Nat → PageSet
  setCount : Nat

/-- `Page::hashCode` modulo the number of chains. -/
abbrev HashCode := Option Nat → Int → Nat

/-- `List::addLast` of an element that may be linked already (`include/es/list.h:352-368`): its link
    to the next element is cut. -/
def addLast (l : List Nat) (x : Nat) : List Nat :=
  l.takeWhile (· ≠ x) ++ [x]

/-- `offset & ~(Page::SIZE - 1)`. -/
def pageTrunc (offset : Int) : Int :=
  offset - offset % 4096

/-- The operations on pages. -/
inductive PageOp
  | alloc (set cache : Nat) (offset : Int)
  | steal (set cache : Nat) (offset : Int)
  | lookup (cache : Nat) (offset : Int)
  | addRef (page : Nat)
  | release (page : Nat)
  | change (page : Nat)
  | clean (page : Nat)
  | free (page : Nat)
  | reserve (set count : Nat)
  | fork (set : Nat)
  | destroy (set : Nat)

namespace PageTable

/-- Changes one page. -/
def updPage (t : PageTable) (p : Nat) (f : Page → Page) : PageTable :=
  { t with pages := Function.update t.pages p (f (t.pages p)) }

/-- Changes one page set. -/
def updSet (t : PageTable) (n : Nat) (f : PageSet → PageSet) : PageTable :=
  { t with sets := Function.update t.sets n (f (t.sets n)) }

/-- The chain that a page is kept in. -/
def chainOf (hash : HashCode) (t : PageTable) (p : Nat) : Nat :=
  hash (t.pages p).cache (t.pages p).offset

/-- `PageTable::add` (`os/kernel/port/pageTable.cpp:88-95`). -/
def add (hash : HashCode) (t : PageTable) (p : Nat) : PageTable :=
  let chain := chainOf hash t p
  { t with hashTable := Function.update t.hashTable chain (p :: t.hashTable chain) }

/-- `PageTable::remove` (`os/kernel/port/pageTable.cpp:97-104`). -/
def remove (hash : HashCode) (t : PageTable) (p : Nat) : PageTable :=
  let chain := chainOf hash t p
  { t with hashTable := Function.update t.hashTable chain ((t.hashTable chain).erase p) }

/-- `Page::set` (`os/kernel/port/page.cpp:36-45`); `map` stays as it is. -/
def set (hash : HashCode) (t : PageTable) (p cache : Nat) (offset : Int) : PageTable :=
  (t.updPage p fun page => { page with
    cache := some cache, offset := offset, changed := false, free := false
    filled := false }).add hash p

/-- `PageSet::alloc` (`os/kernel/port/pageSet.cpp:102-114`); `none` is a null page. -/
def allocFrom (t : PageTable) (n : Nat) : PageTable × Option Nat :=
  match (t.sets n).freeList with
  | [] => (t, none)
  | p :: rest =>
      ((t.updSet n fun set => { set with freeList := rest, freeCount := set.freeCount - 1 }).updPage
        p fun page => { page with ref := page.ref + 1 }, some p)

/-- `PageSet::use` (`os/kernel/port/pageSet.cpp:190-198`). -/
def use (t : PageTable) (n p : Nat) : PageTable :=
  t.updSet n fun set =>
    { set with standbyCount := set.standbyCount - 1, standbyList := set.standbyList.erase p }

/-- `PageSet::free` (`os/kernel/port/pageSet.cpp:200-226`). -/
def free (t : PageTable) (n p : Nat) : PageTable :=
  (t.updPage p fun page =>
    { page with cache := none, offset := 0, changed := false, free := false }).updSet n fun set =>
      { set with freeList := addLast set.freeList p, freeCount := set.freeCount + 1 }

/-- `PageSet::standby` (`os/kernel/port/pageSet.cpp:228-245`). -/
def standby (t : PageTable) (n p : Nat) : PageTable :=
  t.updSet n fun set =>
    { set with standbyList := addLast set.standbyList p, standbyCount := set.standbyCount + 1 }

/-- `Page::addRef` (`os/kernel/port/page.cpp:198-202`). -/
def addRef (t : PageTable) (p : Nat) : PageTable :=
  t.updPage p fun page => { page with ref := page.ref + 1 }

/-- `Page::release` (`os/kernel/port/page.cpp:204-221`). -/
def release (t : PageTable) (p : Nat) : PageTable :=
  let t := t.updPage p fun page => { page with ref := page.ref - 1 }
  if (t.pages p).ref = 0 then
    if (t.pages p).free then t.free (t.pages p).pageSet p else t.standby (t.pages p).pageSet p
  else t

/-- `PageTable::steal` (`os/kernel/port/pageTable.cpp:106-120`). -/
def stealPage (hash : HashCode) (t : PageTable) (p : Nat) : PageTable × Bool :=
  let t := t.addRef p
  if 1 < (t.pages p).ref then (t.release p, false) else (t.remove hash p, true)

/-- The loop of `PageSet::steal` over the rest of the standby list. -/
def stealLoop (hash : HashCode) (n : Nat) : List Nat → PageTable → PageTable × Option Nat
  | [], t => (t, none)
  | p :: rest, t =>
      match t.stealPage hash p with
      | (t, false) => stealLoop hash n rest t
      | (t, true) =>
          ((t.use n p).updPage p fun page => { page with cache := none }, some p)

/-- `PageSet::steal` (`os/kernel/port/pageSet.cpp:116-143`). -/
def stealFrom (hash : HashCode) (t : PageTable) (n : Nat) : PageTable × Option Nat :=
  stealLoop hash n (t.sets n).standbyList t

/-- `PageSet::alloc` for a cache (`os/kernel/port/pageSet.cpp:154-170`); the first argument bounds
    the number of sets visited. -/
def allocUp (hash : HashCode) (cache : Nat) (offset : Int) :
    Nat → Nat → PageTable → PageTable × Option Nat
  | 0, _, t => (t, none)
  | fuel + 1, n, t =>
      match t.allocFrom n with
      | (t, some p) => (t.set hash p cache offset, some p)
      | (t, none) =>
          match (t.sets n).parent with
          | none => (t, none)
          | some parent => allocUp hash cache offset fuel parent t

/-- `PageSet::steal` for a cache (`os/kernel/port/pageSet.cpp:172-188`). -/
def stealUp (hash : HashCode) (cache : Nat) (offset : Int) :
    Nat → Nat → PageTable → PageTable × Option Nat
  | 0, _, t => (t, none)
  | fuel + 1, n, t =>
      match t.stealFrom hash n with
      | (t, some p) => (t.set hash p cache offset, some p)
      | (t, none) =>
          match (t.sets n).parent with
          | none => (t, none)
          | some parent => stealUp hash cache offset fuel parent t

/-- `PageSet::alloc` for a cache: a set is numbered above its parent, so that the sets above set `n`
    are at most `n + 1`. -/
def alloc (hash : HashCode) (t : PageTable) (n cache : Nat) (offset : Int) :
    PageTable × Option Nat :=
  t.allocUp hash cache (pageTrunc offset) (n + 1) n

/-- `PageSet::steal` for a cache. -/
def steal (hash : HashCode) (t : PageTable) (n cache : Nat) (offset : Int) :
    PageTable × Option Nat :=
  t.stealUp hash cache (pageTrunc offset) (n + 1) n

/-- The loop of `PageTable::lookup` over the rest of a chain. A page of another cache or offset is
    taken off the standby list and put back at its end. -/
def lookupLoop (cache : Nat) (offset : Int) : List Nat → PageTable → PageTable × Option Nat
  | [], t => (t, none)
  | p :: rest, t =>
      let t := t.addRef p
      let t := if (t.pages p).ref = 1 then t.use (t.pages p).pageSet p else t
      if (t.pages p).cache = some cache ∧ (t.pages p).offset = offset then (t, some p)
      else lookupLoop cache offset rest (t.release p)

/-- `PageTable::lookup` (`os/kernel/port/pageTable.cpp:122-151`). -/
def lookup (hash : HashCode) (t : PageTable) (cache : Nat) (offset : Int) :
    PageTable × Option Nat :=
  lookupLoop cache (pageTrunc offset) (t.hashTable (hash (some cache) (pageTrunc offset))) t

/-- The part of `Cache::change` that concerns the page (`os/kernel/port/cache.cpp:119-148`). -/
def change (t : PageTable) (p : Nat) : PageTable × Bool :=
  if (t.pages p).changed ∨ (t.pages p).free then (t, false)
  else ((t.addRef p).updPage p fun page => { page with changed := true }, true)

/-- The part of `Cache::clean` that concerns the page (`os/kernel/port/cache.cpp:150-176`). -/
def clean (t : PageTable) (p : Nat) : PageTable × Bool :=
  if (t.pages p).changed then
    ((t.updPage p fun page => { page with changed := false }).release p, true)
  else (t, false)

/-- `Page::free` (`os/kernel/port/page.cpp:151-163`). -/
def freePage (hash : HashCode) (t : PageTable) (p : Nat) : PageTable :=
  let t := (t.updPage p fun page => { page with free := true }).remove hash p
  (t.clean p).1.release p

/-- One turn of `PageSet::reserve` (`os/kernel/port/pageSet.cpp:72-86`). -/
def reserveOne (hash : HashCode) (t : PageTable) (n parent : Nat) : PageTable :=
  let found := match t.allocFrom parent with
    | (t, some p) => (t, some p)
    | (t, none) => t.stealFrom hash parent
  match found with
  | (t, none) => t
  | (t, some p) => (t.updPage p fun page => { page with pageSet := n, free := true }).release p

/-- `PageSet::reserve` (`os/kernel/port/pageSet.cpp:63-88`); a set without a parent throws. -/
def reserve (hash : HashCode) (t : PageTable) (n count : Nat) : PageTable :=
  match (t.sets n).parent with
  | none => t
  | some parent => (List.range count).foldl (fun t _ => t.reserveOne hash n parent) t

/-- `PageSet::fork` (`os/kernel/port/pageSet.cpp:247-256`), which makes set number `setCount`. -/
def fork (t : PageTable) (n : Nat) : PageTable :=
  { t.updSet t.setCount fun _ => ⟨true, some n, [], [], 0, 0⟩ with setCount := t.setCount + 1 }

/-- One turn of the loop of `~PageSet` (`os/kernel/port/pageSet.cpp:46-58`): the page goes to the
    parent when it is released, and is put on the parent's list and counted once more. -/
def giveBack (t : PageTable) (n parent : Nat) : PageTable :=
  match t.allocFrom n with
  | (t, none) => t
  | (t, some p) =>
      let t := (t.updPage p fun page => { page with pageSet := parent, free := true }).release p
      t.updSet parent fun set =>
        { set with freeList := addLast set.freeList p, freeCount := set.freeCount + 1 }

/-- `~PageSet` (`os/kernel/port/pageSet.cpp:36-61`); the root set has no parent. -/
def destroy (t : PageTable) (n : Nat) : PageTable :=
  match (t.sets n).parent with
  | none => t
  | some parent =>
      let t := (List.range (t.sets n).freeCount.toNat).foldl (fun t _ => t.giveBack n parent) t
      t.updSet n fun set => { set with alive := false }

/-- `PageTable::init` (`os/kernel/port/pageTable.cpp:33-86`): set 0 gets all the pages behind the
    table itself. -/
def init (pages : List Nat) (data : Nat → Nat → UInt8) : PageTable where
  pages := fun p => ⟨0, none, 0, false, false, 0, 0, false, data p⟩
  hashTable := fun _ => []
  sets := fun n =>
    if n = 0 then ⟨true, none, pages, [], pages.length, 0⟩ else ⟨false, none, [], [], 0, 0⟩
  setCount := 1

/-- The sets that are asked for a page: the set and those above it. -/
def above (t : PageTable) : Nat → Nat → List Nat
  | 0, _ => []
  | fuel + 1, n => n :: match (t.sets n).parent with
    | none => []
    | some parent => above t fuel parent

/-- A page that the page table finds. -/
def Registered (hash : HashCode) (t : PageTable) (p : Nat) : Prop :=
  p ∈ t.hashTable (t.chainOf hash p)

/-- No page of the page table stands for this place. -/
def Vacant (hash : HashCode) (t : PageTable) (cache : Nat) (offset : Int) : Prop :=
  ∀ q, t.Registered hash q → ¬((t.pages q).cache = some cache ∧ (t.pages q).offset = offset)

/-- Nothing refers to a set any more: no living set was made from it, and its pages are all free.
    Each set and each cache made from a set holds a reference to it, and a page in use keeps its
    cache alive. -/
structure Unused (managed : List Nat) (t : PageTable) (n : Nat) : Prop where
  alive : (t.sets n).alive = true
  child : ∀ m, (t.sets m).alive = true → (t.sets m).parent ≠ some n
  standby : (t.sets n).standbyList = []
  ref : ∀ p ∈ managed, (t.pages p).pageSet = n → (t.pages p).ref = 0

/-- Someone holds a reference to the page, apart from the list of changed pages. -/
def Held (managed : List Nat) (t : PageTable) (p : Nat) : Prop :=
  p ∈ managed ∧ (if (t.pages p).changed then 1 else 0) < (t.pages p).ref

/-- What the callers of an operation see to. A page is requested for a cache when a lookup has found
    none (`os/kernel/port/pageSet.cpp:153`), references are given back by those who hold them, and
    a set is destroyed when nothing refers to it. -/
def Allowed (hash : HashCode) (managed : List Nat) (t : PageTable) : PageOp → Prop
  | .alloc n cache offset => (t.sets n).alive = true ∧ t.Vacant hash cache (pageTrunc offset)
  | .steal n cache offset => (t.sets n).alive = true ∧ t.Vacant hash cache (pageTrunc offset)
  | .lookup _ _ => True
  | .addRef p => t.Held managed p
  | .release p => t.Held managed p
  | .change p => t.Held managed p
  | .clean p => t.Held managed p
  | .free p => t.Held managed p
  | .reserve n _ => (t.sets n).alive = true
  | .fork n => (t.sets n).alive = true
  | .destroy n => t.Unused managed n ∧ (t.sets n).parent ≠ none

/-- The state behind an operation. -/
def run (hash : HashCode) (t : PageTable) : PageOp → PageTable
  | .alloc n cache offset => (t.alloc hash n cache offset).1
  | .steal n cache offset => (t.steal hash n cache offset).1
  | .lookup cache offset => (t.lookup hash cache offset).1
  | .addRef p => t.addRef p
  | .release p => t.release p
  | .change p => (t.change p).1
  | .clean p => (t.clean p).1
  | .free p => t.freePage hash p
  | .reserve n count => t.reserve hash n count
  | .fork n => t.fork n
  | .destroy n => t.destroy n

end PageTable

/-- The runs of the page sets, from the table with the pages `managed` in its first set. -/
def pageSystem (hash : HashCode) (managed : List Nat) : System PageTable PageOp where
  init t := managed.Nodup ∧ ∃ data, t = .init managed data
  step t op t' := t.Allowed hash managed op ∧ t' = t.run hash op

/-- The condition on a step: a set that is destroyed has no free pages. -/
def PageOp.LeavesNone (t : PageTable) : PageOp → Prop
  | .destroy n => (t.sets n).freeList = []
  | _ => True

end EsOs.Kernel
