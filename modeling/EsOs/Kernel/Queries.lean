import EsOs.Kernel.Cache

/-!
# The queries of a cache

`getSize`, `getSectorSize` and `getPageCount` of `Cache` (`os/kernel/port/cache.cpp`), and runs of a
cache with the results of its calls, into which further queries are inserted.
-/

namespace EsOs.Kernel

/-- The functions that ask a cache for a number. -/
inductive CacheQuery where
  | getSize
  | getSectorSize
  | getPageCount
deriving DecidableEq, Repr

/-- What a call returns; `einval` is the exception of `setSize`. -/
inductive CacheOutput where
  | bytes (data : List UInt8)
  | count (len : Nat)
  | number (n : Int)
  | done
  | einval
deriving DecidableEq, Repr

/-- The calls of a cache, and what others do between them. -/
inductive CacheCall (hash : HashCode) (managed : List Nat) (cache : Nat)
  | op (op : CacheOp hash managed cache)
  | query (q : CacheQuery)

/-- A run with inserted queries: the calls of the run itself, and the queries in between. -/
inductive CacheInsertion (hash : HashCode) (managed : List Nat) (cache : Nat)
  | call (c : CacheCall hash managed cache)
  | inserted (q : CacheQuery)

namespace CacheState

variable {hash : HashCode} {managed : List Nat} {cache : Nat}

/-- `Cache::getSize` (`os/kernel/port/cache.cpp:260-264`). -/
def getSize (s : CacheState) : CacheState × Int :=
  (s, s.size)

/-- `Cache::getSectorSize` (`os/kernel/port/cache.cpp:297-302`), which has no variable of its own for
    the result. -/
def getSectorSize (s : CacheState) : CacheState × Int :=
  let s := { s with size := s.sectorSize }
  (s, s.size)

/-- `Cache::getPageCount` (`os/kernel/port/cache.cpp:447-451`): a page is counted while its `cache` is
    this one. -/
def getPageCount (managed : List Nat) (s : CacheState) : CacheState × Int :=
  (s, managed.countP fun p => (s.table.pages p).cache = some s.number)

def query (managed : List Nat) (s : CacheState) : CacheQuery → CacheState × Int
  | .getSize => s.getSize
  | .getSectorSize => s.getSectorSize
  | .getPageCount => s.getPageCount managed

/-- A step of a cache with its result. -/
def perform (s : CacheState) : CacheOp hash managed cache → Option (CacheState × CacheOutput)
  | .read count offset waits =>
      (s.read count offset waits).map fun result => (result.1, .bytes result.2.1)
  | .write src offset fresh waits =>
      (s.write src offset fresh waits).map fun result => (result.1, .count result.2.1)
  | .setSize newSize fresh =>
      match s.setSize hash newSize fresh with
      | none => some (s, .einval)
      | some s => some (s, .done)
  | .flush => some (s.flush, .done)
  | .clean page => if page ∈ s.changedList then some (s.syncPage page, .done) else none
  | .others w => some (s.interfere w, .done)

def call (s : CacheState) : CacheCall hash managed cache → Option (CacheState × CacheOutput)
  | .op op => s.perform op
  | .query q => some ((s.query managed q).1, .number (s.query managed q).2)

/-- A run from a state: the state behind it and the results of its calls. -/
def run : CacheState → List (CacheCall hash managed cache) →
    Option (CacheState × List CacheOutput)
  | s, [] => some (s, [])
  | s, c :: calls =>
      match s.call c with
      | none => none
      | some (s, output) => (run s calls).map fun result => (result.1, output :: result.2)

/-- A run with inserted queries, with the results of its own calls only. -/
def runInserted : CacheState → List (CacheInsertion hash managed cache) →
    Option (CacheState × List CacheOutput)
  | s, [] => some (s, [])
  | s, .inserted q :: steps => runInserted (s.query managed q).1 steps
  | s, .call c :: steps =>
      match s.call c with
      | none => none
      | some (s, output) => (runInserted s steps).map fun result => (result.1, output :: result.2)

/-- The calls of the run itself. -/
def ownCalls : List (CacheInsertion hash managed cache) → List (CacheCall hash managed cache)
  | [] => []
  | .inserted _ :: steps => ownCalls steps
  | .call c :: steps => c :: ownCalls steps

/-- The sector size is only asked for while it is the size of the stream. -/
def SizeKept : CacheState → List (CacheInsertion hash managed cache) → Prop
  | _, [] => True
  | s, .inserted q :: steps =>
      (q = .getSectorSize → s.size = s.sectorSize) ∧ SizeKept (s.query managed q).1 steps
  | s, .call c :: steps => ∀ s' output, s.call c = some (s', output) → SizeKept s' steps

end CacheState

end EsOs.Kernel

/-!
## Which queries of a cache are pure

`getSize` and `getPageCount` leave a cache as it is. `getSectorSize` sets its size, so that it is pure
only where the size is the sector size already.
-/

namespace EsOs.Kernel

namespace CacheState

variable {hash : HashCode} {managed : List Nat} {cache : Nat}

/-- A query leaves everything but the size as it is. -/
theorem query_eq (s : CacheState) (q : CacheQuery) :
    (s.query managed q).1 = if q = .getSectorSize then { s with size := s.sectorSize } else s := by
  cases q <;> rfl

theorem query_of_size {s : CacheState} {q : CacheQuery}
    (h : q = .getSectorSize → s.size = s.sectorSize) : (s.query managed q).1 = s := by
  rw [query_eq]
  split
  · rename_i hq
    rw [← h hq]
  · rfl

/-- Inserted queries that find the size equal to the sector size change neither the state nor the
    result of any call. -/
theorem runInserted_eq {s : CacheState} {steps : List (CacheInsertion hash managed cache)}
    (h : s.SizeKept steps) : s.runInserted steps = s.run (ownCalls steps) := by
  induction steps generalizing s with
  | nil => rfl
  | cons step steps ih =>
    cases step with
    | inserted q =>
      obtain ⟨hsize, hrest⟩ := h
      rw [query_of_size hsize] at hrest
      rw [runInserted, ownCalls, query_of_size hsize]
      exact ih hrest
    | call c =>
      rw [runInserted, ownCalls, run]
      cases hcall : s.call c with
      | none => rfl
      | some result =>
        obtain ⟨s', output⟩ := result
        simp only
        rw [ih (h s' output hcall)]

/-- The condition is needed at each place: where the size is another one, the next `getSize` tells. -/
theorem size_eq_of_pure {s : CacheState} {q : CacheQuery}
    (h : ∀ calls : List (CacheCall hash managed cache),
      s.runInserted (.inserted q :: calls.map .call) = s.run calls) (hq : q = .getSectorSize) :
    s.size = s.sectorSize := by
  have hsize := h [.query .getSize]
  subst hq
  simp only [runInserted, run, call, query, getSize, getSectorSize, List.map_cons, List.map_nil,
    Option.map_some, Option.some.injEq, Prod.mk.injEq, List.cons.injEq, CacheOutput.number.injEq,
    and_true] at hsize
  exact hsize.2.symm

/-- Queries may be inserted anywhere into a run where every `getSectorSize` finds the size equal to the
    sector size; and a query can be inserted before every run exactly then. -/
theorem queries_pure {s : CacheState} :
    (∀ steps : List (CacheInsertion hash managed cache), s.SizeKept steps →
      s.runInserted steps = s.run (ownCalls steps)) ∧
    ∀ q, (∀ calls : List (CacheCall hash managed cache),
      s.runInserted (.inserted q :: calls.map .call) = s.run calls) ↔
        (q = .getSectorSize → s.size = s.sectorSize) := by
  have hown : ∀ calls : List (CacheCall hash managed cache), ownCalls (calls.map .call) = calls := by
    intro calls
    induction calls with
    | nil => rfl
    | cons c calls ih => rw [List.map_cons, ownCalls, ih]
  have hkept : ∀ (calls : List (CacheCall hash managed cache)) (s : CacheState),
      s.SizeKept (calls.map .call) := by
    intro calls
    induction calls with
    | nil => exact fun _ => trivial
    | cons c calls ih => exact fun _ s' _ _ => ih s'
  refine ⟨fun steps => runInserted_eq, fun q => ⟨fun h => size_eq_of_pure h, fun hq calls => ?_⟩⟩
  have hcalls : s.SizeKept (.inserted q :: calls.map .call) := ⟨hq, hkept calls _⟩
  have hrun := runInserted_eq hcalls
  rwa [ownCalls, hown] at hrun

end CacheState

/-- A cache without pages over a stream of 8192 bytes, written back in sectors of 512 bytes. -/
def bareCache : CacheState :=
  .create (.init [] fun _ _ => 0) 0 ⟨8192, fun _ => 0, 4096, by decide⟩ 0 512

theorem getSectorSize_not_pure :
    ¬ ∀ (s : CacheState) (steps : List (CacheInsertion (fun _ _ => 0) [] 0)),
      s.runInserted steps = s.run (CacheState.ownCalls steps) := by
  intro h
  have hsize := h bareCache [.inserted .getSectorSize, .call (.query .getSize)]
  exact absurd (congrArg (Option.map Prod.snd) hsize) (by decide)

end EsOs.Kernel
