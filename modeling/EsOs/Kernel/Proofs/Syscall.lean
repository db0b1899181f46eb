import EsOs.Lib.System
import EsOs.Kernel.Syscall
import Mathlib.Data.List.Perm.Subperm
import Mathlib.Tactic.Common

/-!
# References held by the system call proxy table

`Ledger` says what the table is for: it replays the events of a process and keeps for each slot the
object whose reference the slot holds. A method may be invoked only on that object, a reference is
released only where it is held and taken over only where none is held.

The counters of a slot implement this as long as no call is made on a free slot whose use count is
not negative: the handle of the call itself has raised the reference count before it is tested, so
that the test lets such a call pass.
-/

namespace EsOs.Kernel

open EsOs.Lib

variable {Obj Iid : Type _}

/-! ## The ledger -/

/-- The object whose reference each slot holds. -/
abbrev Ledger (Obj : Type _) := Nat → Option Obj

namespace Ledger

variable [DecidableEq Obj]

/-- An event that is in order, and the ledger behind it. -/
def step (held : Ledger Obj) : SyscallEvent Obj → Option (Ledger Obj)
  | .set n object => if held n = none then some (Function.update held n (some object)) else none
  | .accept n => if (held n).isSome then some held else none
  | .refuse _ => some held
  | .invoke n object => if object.isSome ∧ held n = object then some held else none
  | .release n object => if held n = some object then some (Function.update held n none) else none

/-- The ledger behind a trace, `none` when an event is out of order. -/
def run (held : Ledger Obj) (trace : List (SyscallEvent Obj)) : Option (Ledger Obj) :=
  trace.foldlM step held

theorem run_append (held : Ledger Obj) (trace more : List (SyscallEvent Obj)) :
    run held (trace ++ more) = (run held trace).bind fun held => run held more := by
  simp only [run, List.foldlM_append]
  rfl

@[simp] theorem run_nil (held : Ledger Obj) : run held [] = some held := rfl

@[simp] theorem run_singleton (held : Ledger Obj) (event : SyscallEvent Obj) :
    run held [event] = step held event := by
  simp [run]

/-- What is out of order stays out of order. -/
theorem run_of_prefix {held held' : Ledger Obj} {trace trace' : List (SyscallEvent Obj)}
    (hextend : trace <+: trace') (h : run held trace' = some held') :
    (run held trace).isSome := by
  obtain ⟨more, rfl⟩ := hextend
  rw [run_append, Option.bind_eq_some_iff] at h
  obtain ⟨mid, hmid, -⟩ := h
  rw [hmid]
  rfl

/-- The release of whatever a slot holds. -/
theorem run_release (held : Ledger Obj) (n : Nat) :
    run held ((held n).toList.map (.release n)) = some (Function.update held n none) := by
  cases ho : held n with
  | none =>
    rw [← ho, Function.update_eq_self, ho]
    rfl
  | some object => simp [step, ho]

/-- The number of references that a slot has taken over. -/
def sets (n : Nat) (trace : List (SyscallEvent Obj)) : Nat :=
  trace.countP fun
    | .set m _ => m = n
    | _ => false

/-- The number of references that a slot has released. -/
def releases (n : Nat) (trace : List (SyscallEvent Obj)) : Nat :=
  trace.countP fun
    | .release m _ => m = n
    | _ => false

/-- Whether a slot holds a reference, as a number. -/
def holds (held : Ledger Obj) (n : Nat) : Nat :=
  if (held n).isSome then 1 else 0

/-- One event moves the counts and the ledger alike. -/
theorem step_counts {held held' : Ledger Obj} {event : SyscallEvent Obj}
    (h : step held event = some held') (n : Nat) :
    holds held n + sets n [event] = releases n [event] + holds held' n := by
  cases event with
  | set m object =>
    simp only [step, Option.ite_none_right_eq_some, Option.some.injEq] at h
    obtain ⟨hfree, rfl⟩ := h
    by_cases hmn : n = m
    · subst hmn
      simp [sets, releases, holds, hfree]
    · simp [sets, releases, holds, hmn, Ne.symm hmn]
  | accept m =>
    simp only [step, Option.ite_none_right_eq_some, Option.some.injEq] at h
    obtain ⟨-, rfl⟩ := h
    simp [sets, releases]
  | refuse m =>
    cases h
    simp [sets, releases]
  | invoke m object =>
    simp only [step, Option.ite_none_right_eq_some, Option.some.injEq] at h
    obtain ⟨-, rfl⟩ := h
    simp [sets, releases]
  | release m object =>
    simp only [step, Option.ite_none_right_eq_some, Option.some.injEq] at h
    obtain ⟨hheld, rfl⟩ := h
    by_cases hmn : n = m
    · subst hmn
      simp [sets, releases, holds, hheld]
    · simp [sets, releases, holds, hmn, Ne.symm hmn]

/-- In an orderly trace every reference taken over is released once, but for the one that the slot
    still holds. -/
theorem run_counts {held held' : Ledger Obj} {trace : List (SyscallEvent Obj)}
    (h : run held trace = some held') (n : Nat) :
    holds held n + sets n trace = releases n trace + holds held' n := by
  induction trace generalizing held with
  | nil =>
    cases h
    simp [sets, releases]
  | cons event trace ih =>
    simp only [run, List.foldlM_cons, Option.bind_eq_bind, Option.bind_eq_some_iff] at h
    obtain ⟨mid, hstep, hrest⟩ := h
    have h1 := step_counts hstep n
    have h2 := ih hrest
    simp only [sets, releases, List.countP_cons, List.countP_nil] at *
    omega

end Ledger

/-! ## One slot -/

theorem toLong_eq (n : Int) : toLong n = (n + 2147483648) % 4294967296 - 2147483648 := by
  simp only [toLong, Int.bmod_def]
  split <;> omega

/-- The use count stands for a reference while it is positive, and goes on doing so when it has
    wrapped: with `calls` active calls on the slot it cannot have come down that far. -/
def SyscallProxy.HoldsUse (p : SyscallProxy Obj Iid) (calls : Nat) : Prop :=
  0 < p.use ∨ p.use < (calls : Int) - 2147483648

/-- What holds of a slot with these numbers of active calls on it, of parameters of upcalls that
    were set up in it, and of other handles. -/
structure SlotInv (calls params handles : Nat) (p : SyscallProxy Obj Iid) : Prop where
  owners : ((calls + params + handles : Nat) : Int) ≤ p.ref
  user : p.HoldsUse calls → ((calls + params + handles : Nat) : Int) < p.ref
  free : p.object = none → p.use ≤ 0
  live : p.object ≠ none → 0 < p.ref
  use_ge : -2147483648 ≤ p.use
  use_lt : p.use < 2147483648
  room : calls ≤ 2147483648

/-- `~Process` releases the object of a slot once, whatever its reference count. -/
theorem SyscallProxy.releaseLoop_spec {fuel : Nat} {p : SyscallProxy Obj Iid} (hpos : 0 < p.ref)
    (hfuel : p.ref ≤ fuel) :
    p.releaseLoop fuel = ({ p with ref := 0, object := none }, p.object.toList) := by
  induction fuel generalizing p with
  | zero => omega
  | succ fuel ih =>
    by_cases hlast : p.ref - 1 = 0
    · have hrelease : p.release = ({ p with ref := 0, object := none }, p.object) := by
        simp [SyscallProxy.release, hlast]
      simp [SyscallProxy.releaseLoop, hrelease]
    · have hrelease : p.release = ({ p with ref := p.ref - 1 }, none) := by
        simp [SyscallProxy.release, hlast]
      have hrest : SyscallProxy.releaseLoop fuel { p with ref := p.ref - 1 } =
          ({ p with ref := 0, object := none }, p.object.toList) :=
        ih (by simp only; omega) (by simp only; omega)
      simp only [SyscallProxy.releaseLoop, hrelease, hrest]
      rw [if_pos (by omega)]
      rfl

theorem SyscallProxy.drain_spec {p : SyscallProxy Obj Iid} (hnonneg : 0 ≤ p.ref) :
    p.drain = ({ p with ref := 0, object := none }, p.object.toList) := by
  simp only [SyscallProxy.drain]
  rw [SyscallProxy.releaseLoop_spec]
  · rfl
  · simp only [SyscallProxy.addRef]
    omega
  · simp only [SyscallProxy.addRef]
    omega

theorem SyscallProxy.isValid_iff (p : SyscallProxy Obj Iid) :
    p.isValid = true ↔ 0 < p.ref ∧ 0 ≤ p.use := by
  simp [isValid]

namespace SlotInv

variable {calls params handles : Nat} {p : SyscallProxy Obj Iid}

theorem empty : SlotInv 0 0 0 (.empty : SyscallProxy Obj Iid) := by
  constructor <;> simp [SyscallProxy.empty, SyscallProxy.HoldsUse]

theorem addRef (h : SlotInv calls params handles p) :
    SlotInv calls params (handles + 1) p.addRef := by
  obtain ⟨howners, huser, hfree, hlive, hge, hlt, hroom⟩ := h
  simp only [SyscallProxy.HoldsUse, SyscallProxy.addRef] at *
  refine ⟨?_, fun hu => ?_, hfree, fun ho => ?_, hge, hlt, hroom⟩
  · simp only
    omega
  · have := huser hu
    simp only
    omega
  · have := hlive ho
    simp only
    omega

/-- A handle that is not the last owner goes without a trace. -/
theorem release_of_owned (h : SlotInv calls params (handles + 1) p) (hown : calls + params ≠ 0) :
    p.release = ({ p with ref := p.ref - 1 }, none) := by
  have := h.owners
  simp only [SyscallProxy.release]
  rw [if_neg (by omega)]

theorem release (h : SlotInv calls params (handles + 1) p) :
    SlotInv calls params handles p.release.1 := by
  obtain ⟨howners, huser, hfree, hlive, hge, hlt, hroom⟩ := h
  simp only [SyscallProxy.release, SyscallProxy.HoldsUse] at *
  split
  · refine ⟨?_, fun hu => ?_, fun _ => ?_, by simp, hge, hlt, hroom⟩
    · simp only
      omega
    · have := huser hu
      simp only
      omega
    · show p.use ≤ 0
      by_contra hpos
      have := huser (.inl (by omega))
      omega
  · refine ⟨?_, fun hu => ?_, hfree, fun ho => ?_, hge, hlt, hroom⟩
    · simp only
      omega
    · have := huser hu
      simp only
      omega
    · have := hlive ho
      simp only
      omega

/-- A fresh slot is owned by its use count or by the parameter it was set up for. -/
theorem set {object : Obj} {iid : Iid} {used : Bool} {p' : SyscallProxy Obj Iid}
    (h : SlotInv calls params handles p) (hset : p.set object iid used = some p') :
    calls = 0 ∧ params = 0 ∧ handles = 0 ∧ p.object = none ∧ p'.object = some object ∧
      SlotInv 0 (if used then 0 else 1) 0 p' := by
  simp only [SyscallProxy.set, Option.ite_none_left_eq_some, Option.some.injEq] at hset
  obtain ⟨hzero, rfl⟩ := hset
  have howners := h.owners
  have hnone : p.object = none := by
    by_contra ho
    have := h.live ho
    omega
  refine ⟨by omega, by omega, by omega, hnone, rfl, ?_⟩
  cases used <;> constructor <;> simp [SyscallProxy.HoldsUse] <;> omega

theorem addUser (h : SlotInv (calls + 1) params handles p) (ho : p.object ≠ none) :
    SlotInv (calls + 1) params handles p.addUser.1 ∧ p.addUser.1.object = p.object := by
  obtain ⟨howners, huser, -, hlive, hge, hlt, hroom⟩ := h
  have hpos := hlive ho
  simp only [SyscallProxy.addUser, toLong_eq, SyscallProxy.HoldsUse, SyscallProxy.addRef] at *
  split
  · refine ⟨⟨?_, fun hu => ?_, fun hn => absurd hn ho, fun _ => ?_, ?_, ?_, hroom⟩, rfl⟩ <;>
      simp only [SyscallProxy.HoldsUse] at * <;> omega
  · refine ⟨⟨?_, fun hu => ?_, fun hn => absurd hn ho, fun _ => hpos, ?_, ?_, hroom⟩, rfl⟩ <;>
      simp only [SyscallProxy.HoldsUse] at * <;> omega

/-- The call that gives back a use goes on as a plain handle, so that the slot stays. -/
theorem releaseUser (h : SlotInv (calls + 1) params handles p) (ho : p.object ≠ none) :
    SlotInv calls params (handles + 1) p.releaseUser.1 ∧
      p.releaseUser.1.object = p.object ∧ p.releaseUser.2.1 = none := by
  obtain ⟨howners, huser, -, hlive, hge, hlt, hroom⟩ := h
  have hpos := hlive ho
  simp only [SyscallProxy.releaseUser, toLong_eq, SyscallProxy.HoldsUse, SyscallProxy.release] at *
  split
  · -- the last use, which has a reference of its own
    have hone : p.use = 1 := by omega
    have := huser (.inl (by omega))
    rw [if_neg (by omega)]
    refine ⟨⟨?_, fun hu => ?_, fun hn => absurd hn ho, fun _ => ?_, ?_, ?_, by omega⟩, rfl, rfl⟩ <;>
      simp only [SyscallProxy.HoldsUse] at * <;> omega
  · refine ⟨⟨?_, fun hu => ?_, fun hn => absurd hn ho, fun _ => hpos, ?_, ?_, by omega⟩, rfl, rfl⟩ <;>
      simp only [SyscallProxy.HoldsUse] at * <;> omega

/-- A handle that passed the validity check becomes an active call. -/
theorem accept (h : SlotInv calls params (handles + 1) p) (huse : 0 ≤ p.use)
    (hroom : calls < 2147483648) : SlotInv (calls + 1) params handles p := by
  obtain ⟨howners, huser, hfree, hlive, hge, hlt, -⟩ := h
  simp only [SyscallProxy.HoldsUse] at *
  refine ⟨by omega, fun hu => ?_, hfree, hlive, hge, hlt, by omega⟩
  simp only [SyscallProxy.HoldsUse] at hu
  omega

/-- An active call is a handle. -/
theorem call_as_handle (h : SlotInv (calls + 1) params handles p) :
    SlotInv calls params (handles + 1) p := by
  obtain ⟨howners, huser, hfree, hlive, hge, hlt, hroom⟩ := h
  simp only [SyscallProxy.HoldsUse] at *
  refine ⟨by omega, fun hu => ?_, hfree, hlive, hge, hlt, by omega⟩
  simp only [SyscallProxy.HoldsUse] at hu
  omega

/-- Fewer owners than references do no harm. -/
theorem mono {params' handles' : Nat} (h : SlotInv calls params handles p)
    (hle : params' + handles' ≤ params + handles) : SlotInv calls params' handles' p := by
  obtain ⟨howners, huser, hfree, hlive, hge, hlt, hroom⟩ := h
  exact ⟨by omega, fun hu => by have := huser hu; omega, hfree, hlive, hge, hlt, hroom⟩

end SlotInv

/-! ## The table -/

/-- The number of entries for a slot. -/
def owners (n : Nat) (l : List (Nat × Option Obj)) : Nat :=
  l.countP fun x => x.1 = n

@[simp] theorem owners_nil (n : Nat) : owners n ([] : List (Nat × Option Obj)) = 0 := rfl

theorem owners_cons (n : Nat) (x : Nat × Option Obj) (l : List (Nat × Option Obj)) :
    owners n (x :: l) = owners n l + if x.1 = n then 1 else 0 := by
  simp [owners, List.countP_cons]

@[simp] theorem owners_cons_self (n : Nat) (o : Option Obj) (l : List (Nat × Option Obj)) :
    owners n ((n, o) :: l) = owners n l + 1 := by
  simp [owners_cons]

theorem owners_append (n : Nat) (l l' : List (Nat × Option Obj)) :
    owners n (l ++ l') = owners n l + owners n l' := by
  simp [owners, List.countP_append]

theorem owners_ne_zero_of_mem {x : Nat × Option Obj} {l : List (Nat × Option Obj)} (h : x ∈ l) :
    owners x.1 l ≠ 0 := by
  have : 0 < owners x.1 l := List.countP_pos_iff.mpr ⟨x, h, by simp⟩
  omega

theorem owners_le_length (n : Nat) (l : List (Nat × Option Obj)) : owners n l ≤ l.length :=
  List.countP_le_length

/-! ### What a call adds to the trace -/

namespace SyscallTable

theorem put_extends (t : SyscallTable Obj Iid) (n : Nat) (p : SyscallProxy Obj Iid)
    (events : List (SyscallEvent Obj)) : t.trace <+: (t.put n p events).trace :=
  List.prefix_append _ _

theorem releaseAll_extends (t : SyscallTable Obj Iid) (handles : List Nat) :
    t.trace <+: (t.releaseAll handles).trace := by
  induction handles generalizing t with
  | nil => exact List.prefix_refl _
  | cons n handles ih => exact (put_extends t n _ _).trans (ih (t.release n))

theorem takeArgs_extends (base : Nat) (args : List Arg) (taken : List Nat)
    (t : SyscallTable Obj Iid) : t.trace <+: (takeArgs base args taken t).1.trace := by
  induction args generalizing taken t with
  | nil => exact List.prefix_refl _
  | cons arg args ih =>
    cases arg with
    | fault => exact List.prefix_refl _
    | object ip =>
      simp only [takeArgs]
      split
      · exact ih taken t
      · rename_i n _
        split
        · exact (put_extends t n _ _).trans (ih _ _)
        · exact (put_extends t n _ _).trans (put_extends _ n _ _)

/-- A valid handle is enough for the call to be accepted, whatever comes after. -/
theorem enter_accepts {reflect : Option Iid → Nat → Bool → MethodKind} {t : SyscallTable Obj Iid}
    {base n methodNumber : Nat} {variant : Bool} {args : List Arg}
    (hvalid : ((t.addRef n).slots n).isValid = true) :
    t.trace ++ [.accept n] <+: (t.enter reflect base n variant methodNumber args).1.trace := by
  have haccept : t.trace ++ [.accept n] = ((t.addRef n).note (.accept n)).trace := by
    simp [note, addRef, put]
  rw [haccept]
  simp only [enter, hvalid, if_true]
  split
  · exact put_extends _ n _ _
  · exact (put_extends _ n _ _).trans (put_extends _ n _ _)
  · exact (put_extends _ n _ _).trans (put_extends _ n _ _)
  · generalize htaken : takeArgs base args [] ((t.addRef n).note (.accept n)) = taken
    have hextend := takeArgs_extends base args [] ((t.addRef n).note (.accept n))
    rw [htaken] at hextend
    obtain ⟨t', handles, passed⟩ := taken
    cases passed with
    | false => exact (hextend.trans (releaseAll_extends t' handles)).trans (put_extends _ n _ _)
    | true => exact hextend.trans (List.prefix_append _ _)

end SyscallTable

/-! ### The invariant -/

/-- The slots set up for the parameters of an upcall. -/
def paramSlots (params : List (UpcallParam Obj)) : List (Nat × Option Obj) :=
  params.filterMap fun param => param.slot.map fun (n, object) => (n, some object)

variable [DecidableEq Obj]

/-- What holds of the table while these are the active calls and the parameters of upcalls, each
    with the object of its slot, and these the slots of the other handles. -/
structure TableInv (calls params : List (Nat × Option Obj)) (handles : List Nat)
    (t : SyscallTable Obj Iid) : Prop where
  slots : ∀ n, SlotInv (owners n calls) (owners n params) (handles.count n) (t.slots n)
  owned : ∀ x ∈ calls ++ params, x.2.isSome ∧ (t.slots x.1).object = x.2
  ledger : Ledger.run (fun _ => none) t.trace = some fun n => (t.slots n).object

namespace TableInv

variable {calls params : List (Nat × Option Obj)} {handles : List Nat} {t : SyscallTable Obj Iid}
  {n : Nat} {o : Option Obj}

omit [DecidableEq Obj] in
theorem object_put (t : SyscallTable Obj Iid) (n : Nat) (p : SyscallProxy Obj Iid)
    (events : List (SyscallEvent Obj)) :
    (fun m => ((t.put n p events).slots m).object) =
      Function.update (fun m => (t.slots m).object) n p.object := by
  funext m
  by_cases h : m = n <;> simp [SyscallTable.put, Function.update, h]

theorem ledger_put (h : TableInv calls params handles t) {p : SyscallProxy Obj Iid}
    {events : List (SyscallEvent Obj)}
    (hevents : Ledger.run (fun m => (t.slots m).object) events =
      some (Function.update (fun m => (t.slots m).object) n p.object)) :
    Ledger.run (fun _ => none) (t.put n p events).trace =
      some fun m => ((t.put n p events).slots m).object := by
  rw [object_put, ← hevents]
  simp only [SyscallTable.put, Ledger.run_append, h.ledger, Option.bind_some]

/-- A change of one slot that leaves the object of an owned slot in place. -/
theorem put (h : TableInv calls params handles t) {calls' : List (Nat × Option Obj)}
    {handles' : List Nat} {p : SyscallProxy Obj Iid} {events : List (SyscallEvent Obj)}
    (hcalls : calls' ⊆ calls)
    (hother : ∀ m, m ≠ n →
      owners m calls' = owners m calls ∧ handles'.count m = handles.count m)
    (hslot : SlotInv (owners n calls') (owners n params) (handles'.count n) p)
    (hobject : owners n calls' + owners n params ≠ 0 → p.object = (t.slots n).object)
    (hevents : Ledger.run (fun m => (t.slots m).object) events =
      some (Function.update (fun m => (t.slots m).object) n p.object)) :
    TableInv calls' params handles' (t.put n p events) := by
  refine ⟨fun m => ?_, fun x hx => ?_, h.ledger_put hevents⟩
  · by_cases hm : m = n
    · subst hm
      simpa [SyscallTable.put] using hslot
    · obtain ⟨hc, hh⟩ := hother m hm
      simpa [SyscallTable.put, hm, hc, hh] using h.slots m
  · have hold := h.owned x (by
      rcases List.mem_append.mp hx with hx | hx
      · exact List.mem_append_left _ (hcalls hx)
      · exact List.mem_append_right _ hx)
    by_cases hm : x.1 = n
    · have hne := owners_ne_zero_of_mem hx
      rw [owners_append, hm] at hne
      refine ⟨hold.1, ?_⟩
      simp only [SyscallTable.put, hm, Function.update_self, hobject hne]
      rw [← hm]
      exact hold.2
    · simpa [SyscallTable.put, hm] using hold

theorem addRef (h : TableInv calls params handles t) (n : Nat) :
    TableInv calls params (n :: handles) (t.addRef n) := by
  refine h.put (List.Subset.refl _) (fun m hm => ⟨rfl, ?_⟩) ?_ (fun _ => rfl) ?_
  · exact List.count_cons_of_ne (Ne.symm hm)
  · rw [List.count_cons_self]
    exact (h.slots n).addRef
  · simp [SyscallProxy.addRef]

theorem release (h : TableInv calls params (n :: handles) t) :
    TableInv calls params handles (t.release n) := by
  have hslot := h.slots n
  rw [List.count_cons_self] at hslot
  refine h.put (List.Subset.refl _) (fun m hm => ⟨rfl, ?_⟩) hslot.release (fun hown => ?_) ?_
  · exact (List.count_cons_of_ne (Ne.symm hm)).symm
  · rw [hslot.release_of_owned hown]
  · -- an object is released exactly when its slot becomes free
    simp only [SyscallProxy.release]
    split
    · exact Ledger.run_release (fun m => (t.slots m).object) n
    · simp

theorem addUser (h : TableInv ((n, o) :: calls) params handles t) :
    TableInv ((n, o) :: calls) params handles (t.addUser n) := by
  obtain ⟨hsome, hobject⟩ := h.owned (n, o) (by simp)
  have hslot := h.slots n
  rw [owners_cons_self] at hslot
  obtain ⟨hslot', hobject'⟩ :=
    hslot.addUser (by rw [hobject]; exact Option.ne_none_iff_isSome.mpr hsome)
  refine h.put (List.Subset.refl _) (fun _ _ => ⟨rfl, rfl⟩) ?_ (fun _ => hobject') ?_
  · rwa [owners_cons_self]
  · simp [hobject']

theorem releaseUser (h : TableInv ((n, o) :: calls) params handles t) :
    TableInv calls params (n :: handles) (t.releaseUser n) := by
  obtain ⟨hsome, hobject⟩ := h.owned (n, o) (by simp)
  have hslot := h.slots n
  rw [owners_cons_self] at hslot
  obtain ⟨hslot', hobject', hgone⟩ :=
    hslot.releaseUser (by rw [hobject]; exact Option.ne_none_iff_isSome.mpr hsome)
  refine h.put (List.subset_cons_self _ _) (fun m hm => ⟨?_, ?_⟩) ?_ (fun _ => hobject') ?_
  · rw [owners_cons, if_neg (Ne.symm hm), Nat.add_zero]
  · exact List.count_cons_of_ne (Ne.symm hm)
  · rwa [List.count_cons_self]
  · simp [hobject', hgone]

/-- The handle of a call on a slot that holds an object passes for an active call. -/
theorem accept (h : TableInv calls params (n :: handles) t) (hsome : o.isSome)
    (hobject : (t.slots n).object = o) (huse : 0 ≤ (t.slots n).use)
    (hroom : calls.length < 2147483648) : TableInv ((n, o) :: calls) params handles t := by
  refine ⟨fun m => ?_, fun x hx => ?_, h.ledger⟩
  · have hslot := h.slots m
    by_cases hm : m = n
    · subst hm
      rw [List.count_cons_self] at hslot
      rw [owners_cons_self]
      exact hslot.accept huse (Nat.lt_of_le_of_lt (owners_le_length m calls) hroom)
    · rw [List.count_cons_of_ne (Ne.symm hm)] at hslot
      rwa [owners_cons, if_neg (Ne.symm hm), Nat.add_zero]
  · rcases List.mem_cons.mp hx with rfl | hx
    · exact ⟨hsome, hobject⟩
    · exact h.owned x hx

/-- An active call that ends goes on as a plain handle. -/
theorem call_as_handle (h : TableInv ((n, o) :: calls) params handles t) :
    TableInv calls params (n :: handles) t := by
  refine ⟨fun m => ?_, fun x hx => h.owned x (List.mem_cons_of_mem _ hx), h.ledger⟩
  have hslot := h.slots m
  by_cases hm : m = n
  · subst hm
    rw [owners_cons_self] at hslot
    rw [List.count_cons_self]
    exact hslot.call_as_handle
  · rw [owners_cons, if_neg (Ne.symm hm), Nat.add_zero] at hslot
    rwa [List.count_cons_of_ne (Ne.symm hm)]

/-- A parameter of an upcall whose slot is to be released goes on as a plain handle. -/
theorem params_as_handles {released : List (Nat × Option Obj)}
    (h : TableInv calls (released ++ params) handles t) {slots : List Nat}
    (hslots : slots.Subperm (released.map Prod.fst)) :
    TableInv calls params (slots ++ handles) t := by
  refine ⟨fun m => (h.slots m).mono ?_, fun x hx => h.owned x ?_, h.ledger⟩
  · have hle := hslots.count_le m
    have hcount : (released.map Prod.fst).count m = owners m released := by
      simp only [owners, List.count, List.countP_map]
      rfl
    rw [List.count_append, owners_append]
    omega
  · simp only [List.mem_append] at hx ⊢
    rcases hx with hx | hx
    · exact .inl hx
    · exact .inr (.inr hx)

theorem set_put (h : TableInv calls params handles t) {object : Obj} {iid : Iid} {used : Bool}
    {p : SyscallProxy Obj Iid} (hset : (t.slots n).set object iid used = some p) :
    TableInv calls (if used then params else (n, some object) :: params) handles
      (t.put n p [.set n object]) := by
  obtain ⟨hcalls, hparams, hhandles, hnone, hsome, hslot⟩ := (h.slots n).set hset
  have hfree : ∀ x ∈ calls ++ params, x.1 ≠ n := by
    rintro x hx rfl
    have hne := owners_ne_zero_of_mem hx
    rw [owners_append] at hne
    omega
  have hold : ∀ x ∈ calls ++ params,
      x.2.isSome ∧ ((t.put n p [.set n object]).slots x.1).object = x.2 := by
    intro x hx
    simpa [SyscallTable.put, hfree x hx] using h.owned x hx
  refine ⟨fun m => ?_, fun x hx => ?_, h.ledger_put ?_⟩
  · by_cases hm : m = n
    · subst hm
      cases used <;> simpa [SyscallTable.put, hcalls, hparams, hhandles, owners_cons] using hslot
    · have := h.slots m
      cases used <;> simpa [SyscallTable.put, hm, owners_cons, Ne.symm hm] using this
  · cases used with
    | true => exact hold x hx
    | false =>
      have hx' : x = (n, some object) ∨ x ∈ calls ++ params := by
        simpa [or_left_comm] using hx
      rcases hx' with rfl | hx'
      · simp [SyscallTable.put, hsome]
      · exact hold x hx'
  · simp [Ledger.step, hnone, hsome]

theorem setIn (h : TableInv calls params handles t) {object : Obj} {iid : Iid} {used : Bool}
    {slots : List Nat} {t' : SyscallTable Obj Iid}
    (hset : t.setIn object iid used slots = some (n, t')) :
    TableInv calls (if used then params else (n, some object) :: params) handles t' := by
  induction slots with
  | nil => simp [SyscallTable.setIn] at hset
  | cons m slots ih =>
    simp only [SyscallTable.setIn] at hset
    split at hset
    · rename_i p hp
      cases hset
      exact h.set_put hp
    · exact ih hset

theorem perm {calls' params' : List (Nat × Option Obj)} {handles' : List Nat}
    (h : TableInv calls params handles t) (hc : calls.Perm calls') (hp : params.Perm params')
    (hh : handles.Perm handles') : TableInv calls' params' handles' t := by
  refine ⟨fun m => ?_, fun x hx => ?_, h.ledger⟩
  · have := h.slots m
    rwa [owners, owners, hc.countP_eq, hp.countP_eq, hh.count_eq] at this
  · refine h.owned x ?_
    simpa [hc.mem_iff, hp.mem_iff] using hx

theorem note (h : TableInv calls params handles t) {event : SyscallEvent Obj}
    (hevent : Ledger.step (fun m => (t.slots m).object) event =
      some fun m => (t.slots m).object) : TableInv calls params handles (t.note event) := by
  refine ⟨h.slots, h.owned, ?_⟩
  simp only [SyscallTable.note, Ledger.run_append, h.ledger, Option.bind_some,
    Ledger.run_singleton, hevent]

theorem releaseAll {released : List Nat} (h : TableInv calls params (released ++ handles) t) :
    TableInv calls params handles (t.releaseAll released) := by
  induction released generalizing t with
  | nil => exact h
  | cons n released ih => exact ih h.release

/-! ### System calls -/

theorem takeArgs {base : Nat} {args : List Arg} {taken taken' : List Nat}
    {t' : SyscallTable Obj Iid} {passed : Bool} (h : TableInv calls params (taken ++ handles) t)
    (htake : SyscallTable.takeArgs base args taken t = (t', taken', passed)) :
    TableInv calls params (taken' ++ handles) t' := by
  induction args generalizing taken t with
  | nil =>
    cases htake
    exact h
  | cons arg args ih =>
    cases arg with
    | fault =>
      cases htake
      exact h
    | object ip =>
      simp only [SyscallTable.takeArgs] at htake
      split at htake
      · exact ih h htake
      · rename_i n _
        split at htake
        · exact ih (h.addRef n) htake
        · cases htake
          exact (h.addRef n).release

/-- A call keeps the invariant when its slot holds an object or is refused for its use count. -/
theorem enter {reflect : Option Iid → Nat → Bool → MethodKind} {base methodNumber : Nat}
    {variant : Bool} {args : List Arg} {t' : SyscallTable Obj Iid}
    {active : Option (ActiveCall Obj)} (h : TableInv calls params handles t)
    (hroom : calls.length < 2147483648)
    (hheld : (t.slots n).object ≠ none ∨ (t.slots n).use < 0)
    (henter : t.enter reflect base n variant methodNumber args = (t', active)) :
    TableInv (active.toList.map (fun c => (c.slot, c.object)) ++ calls) params
      (active.toList.flatMap ActiveCall.inputProxies ++ handles) t' := by
  have hslot : (t.addRef n).slots n = (t.slots n).addRef := by
    simp [SyscallTable.addRef, SyscallTable.put]
  simp only [SyscallTable.enter] at henter
  split at henter
  · rename_i hvalid
    have huse : 0 ≤ (t.slots n).use := by
      rw [hslot, SyscallProxy.isValid_iff] at hvalid
      exact hvalid.2
    obtain ⟨object, hobject⟩ : ∃ object, (t.slots n).object = some object :=
      Option.ne_none_iff_exists'.mp (hheld.resolve_right (by omega))
    have hobject' : ((t.addRef n).slots n).object = some object := by rw [hslot]; exact hobject
    have hcall : TableInv ((n, some object) :: calls) params handles
        ((t.addRef n).note (.accept n)) := by
      refine ((h.addRef n).note ?_).accept rfl hobject' ?_ hroom
      · simp [Ledger.step, hobject']
      · rw [SyscallTable.note, hslot]
        exact huse
    split at henter
    · cases henter
      exact hcall.call_as_handle.release
    · cases henter
      exact hcall.addUser.call_as_handle.release
    · cases henter
      exact hcall.releaseUser.release
    · rename_i monitor _
      split at henter
      · rename_i t₁ taken htake
        cases henter
        exact ((hcall.takeArgs htake).releaseAll).call_as_handle.release
      · rename_i t₁ taken htake
        cases henter
        have hinv := hcall.takeArgs htake
        have hnow := (hinv.owned (n, some object) (by simp)).2
        have hread : (((t.addRef n).note (.accept n)).slots n).object = some object := hobject'
        rw [hread]
        simp only [Option.toList_some, List.map_cons, List.map_nil, List.flatMap_cons,
          List.flatMap_nil, List.append_nil, List.cons_append, List.nil_append]
        exact hinv.note (by simpa [Ledger.step] using hnow)
  · cases henter
    exact ((h.addRef n).note rfl).release

theorem monitor {c : ActiveCall Obj} {truth : Bool}
    (h : TableInv ((c.slot, c.object) :: calls) params handles t) :
    TableInv calls params (c.slot :: handles) (t.monitor c truth) := by
  simp only [SyscallTable.monitor]
  split
  · exact h.call_as_handle
  · exact h.addUser.call_as_handle
  · split
    · exact h.addUser.call_as_handle
    · exact h.call_as_handle
  · exact h.releaseUser

theorem leave {c : ActiveCall Obj} {answer : Answer Obj Iid}
    (h : TableInv ((c.slot, c.object) :: calls) params (c.inputProxies ++ handles) t) :
    TableInv calls params handles (t.leave c answer) := by
  have hperm : (c.slot :: (c.inputProxies ++ handles)).Perm
      (c.inputProxies ++ [c.slot] ++ handles) := by
    rw [List.append_assoc]
    exact List.perm_middle.symm
  have hdone : ∀ {t : SyscallTable Obj Iid},
      TableInv calls params (c.slot :: (c.inputProxies ++ handles)) t →
        TableInv calls params handles (t.releaseAll (c.inputProxies ++ [c.slot])) :=
    fun ht => (ht.perm (.refl _) (.refl _) hperm).releaseAll
  simp only [SyscallTable.leave]
  split
  · exact hdone h.call_as_handle
  · exact hdone h.monitor
  · split
    · exact hdone h.call_as_handle
    · rename_i n t' hset
      have hset' := h.setIn hset
      exact hdone hset'.monitor

/-! ### Upcalls -/

theorem copyIn (h : TableInv calls params handles t) (ipt : Nat)
    (args : List (UpcallArg Obj Iid)) :
    TableInv calls (paramSlots (t.copyIn ipt args).1 ++ params) handles (t.copyIn ipt args).2 := by
  induction args generalizing params t with
  | nil => exact h
  | cons arg args ih =>
    cases arg with
    | own ip => exact ih h
    | foreign object iid =>
      simp only [SyscallTable.copyIn]
      split
      · exact ih h
      · rename_i n t' hset
        exact (ih (h.setIn hset)).perm (.refl _) List.perm_middle (.refl _)

/-- `~Process` empties the slots it visits. -/
theorem drain (visited : List Nat)
    (hledger : Ledger.run (fun _ => none) t.trace = some fun n => (t.slots n).object)
    (hnonneg : ∀ n, 0 ≤ (t.slots n).ref) :
    let t' := visited.foldl SyscallTable.drain t
    Ledger.run (fun _ => none) t'.trace = some (fun n => (t'.slots n).object) ∧
      (∀ n, (t.slots n).object = none → (t'.slots n).object = none) ∧
      ∀ n ∈ visited, (t'.slots n).object = none := by
  induction visited generalizing t with
  | nil => exact ⟨hledger, fun _ h => h, by simp⟩
  | cons m visited ih =>
    have hdrain := SyscallProxy.drain_spec (hnonneg m)
    have hslots : ∀ n, (t.drain m).slots n =
        if n = m then { t.slots m with ref := 0, object := none } else t.slots n := by
      intro n
      by_cases hn : n = m <;> simp [SyscallTable.drain, SyscallTable.put, hdrain, hn]
    have hledger' : Ledger.run (fun _ => none) (t.drain m).trace =
        some fun n => ((t.drain m).slots n).object := by
      rw [SyscallTable.drain, object_put, hdrain]
      simp only [SyscallTable.put, Ledger.run_append, hledger, Option.bind_some]
      exact Ledger.run_release (fun n => (t.slots n).object) m
    have hnonneg' : ∀ n, 0 ≤ ((t.drain m).slots n).ref := by
      intro n
      rw [hslots]
      split
      · exact Int.le_refl 0
      · exact hnonneg n
    obtain ⟨hrun, hkeep, hvisited⟩ := ih hledger' hnonneg'
    refine ⟨hrun, fun n hn => hkeep n ?_, fun n hn => ?_⟩
    · rw [hslots]
      split
      · rfl
      · exact hn
    · rcases List.mem_cons.mp hn with rfl | hn
      · exact hkeep n (by rw [hslots, if_pos rfl])
      · exact hvisited n hn

end TableInv

/-! ## Runs -/

/-- The runs of a process from its constructor, which leaves `ipt` as it finds it. -/
def syscalls (reflect : Option Iid → Nat → Bool → MethodKind) :
    System (Syscalls Obj Iid) (SyscallStep Obj Iid) :=
  .ofStep (fun s => ∃ process iid ipt, s = ⟨.create process iid, ipt, [], [], true⟩)
    (Syscalls.step reflect)

/-- The events of a process are in order: a method is invoked only on the object that its slot
    holds, a call on a free slot is refused, and a reference taken over by a slot is released once,
    at the end of the process at the latest. -/
def Syscalls.Lawful (s : Syscalls Obj Iid) : Prop :=
  ∃ held, Ledger.run (fun _ => none) s.table.trace = some held ∧
    (∀ n, Ledger.sets n s.table.trace =
      Ledger.releases n s.table.trace + Ledger.holds held n) ∧
    (s.alive = false → ∀ n < INTERFACE_POINTER_MAX, held n = none)

/-- The condition on a step. A call names a slot that holds an object or has a negative use count.
    An upcall releases at its end only slots that its beginning has set, each of them once. -/
def SyscallStep.KeepsTable (s : Syscalls Obj Iid) : SyscallStep Obj Iid → Prop
  | .call base self second _ _ => ∀ n variant, callTarget base self second = some (n, variant) →
      (s.table.slots n).object ≠ none ∨ (s.table.slots n).use < 0
  | .upcallEnd params =>
      (copyOutSlots s.ipt params).Subperm ((paramSlots params).map Prod.fst)
  | _ => True

/-- The invariant of a process. -/
structure Syscalls.Inv (s : Syscalls Obj Iid) : Prop where
  table : s.alive = true → TableInv (s.calls.map fun c => (c.slot, c.object))
    (s.upcalls.flatMap paramSlots) (s.calls.flatMap ActiveCall.inputProxies) s.table
  ledger : Ledger.run (fun _ => none) s.table.trace = some fun n => (s.table.slots n).object
  dead : s.alive = false → ∀ n < INTERFACE_POINTER_MAX, (s.table.slots n).object = none

namespace Syscalls

variable {s s' : Syscalls Obj Iid} {l : SyscallStep Obj Iid}
  {reflect : Option Iid → Nat → Bool → MethodKind}

theorem Inv.lawful (h : s.Inv) : s.Lawful := by
  refine ⟨_, h.ledger, fun n => ?_, h.dead⟩
  simpa [Ledger.holds] using Ledger.run_counts h.ledger n

theorem Inv.of_alive (halive : s.alive = true)
    (h : TableInv (s.calls.map fun c => (c.slot, c.object)) (s.upcalls.flatMap paramSlots)
      (s.calls.flatMap ActiveCall.inputProxies) s.table) : s.Inv :=
  ⟨fun _ => h, h.ledger, fun hdead => by simp [halive] at hdead⟩

theorem create_inv (process : Obj) (iid : Iid) (ipt : Nat) :
    (⟨.create process iid, ipt, [], [], true⟩ : Syscalls Obj Iid).Inv := by
  refine .of_alive rfl ⟨fun n => ?_, by simp, ?_⟩
  · by_cases hn : n = 0
    · subst hn
      constructor <;> simp [SyscallTable.create, SyscallProxy.HoldsUse]
    · simpa [SyscallTable.create, hn] using SlotInv.empty
  · simp only [SyscallTable.create, Ledger.run_singleton, Ledger.step, if_pos]
    congr 1
    funext n
    by_cases hn : n = 0 <;> simp [hn, Function.update, SyscallProxy.empty]

theorem call_inv {base self methodNumber : Nat} {second : Option Nat} {args : List Arg}
    (hinv : s.Inv) (halive : s.alive = true) (hroom : s.calls.length < 2147483648)
    (hheld : (SyscallStep.call base self second methodNumber args).KeepsTable s) :
    (s.call reflect base self second methodNumber args).Inv := by
  have hipt : ∃ ipt, (if base ≠ 0 ∧ base % 4 = 0 then { s with ipt := base } else s) =
      { s with ipt := ipt } := by
    split
    · exact ⟨base, rfl⟩
    · exact ⟨s.ipt, rfl⟩
  obtain ⟨ipt, hipt⟩ := hipt
  have ht := hinv.table halive
  simp only [call, hipt]
  split
  · exact .of_alive halive ht
  · rename_i n variant htarget
    have henter := ht.enter (by simpa using hroom) (hheld n variant htarget)
      (Prod.eta (s.table.enter reflect base n variant methodNumber args)).symm
    refine .of_alive halive ?_
    simpa only [List.map_append, List.flatMap_append] using henter

/-- Every step that meets the condition keeps the invariant. -/
theorem step_inv (hinv : s.Inv) (hok : l.KeepsTable s)
    (h : s.step reflect l = some s') : s'.Inv := by
  simp only [step] at h
  split at h
  case isFalse => cases h
  rename_i halive
  have ht := hinv.table halive
  cases l with
  | call base self second methodNumber args =>
    simp only [Option.ite_none_right_eq_some, Option.some.injEq] at h
    obtain ⟨hroom, rfl⟩ := h
    exact call_inv hinv halive hroom hok
  | ret c answer =>
    simp only [Option.ite_none_right_eq_some, Option.some.injEq] at h
    obtain ⟨hc, rfl⟩ := h
    have hperm := List.perm_cons_erase hc
    refine .of_alive halive (TableInv.leave (c := c) ?_)
    exact ht.perm (hperm.map _) (.refl _) (hperm.flatMap_right _)
  | upcall args =>
    cases h
    exact .of_alive halive (ht.copyIn s.ipt args)
  | upcallEnd params =>
    simp only [Option.ite_none_right_eq_some, Option.some.injEq] at h
    obtain ⟨hparams, rfl⟩ := h
    have hperm := (List.perm_cons_erase hparams).flatMap_right paramSlots
    exact .of_alive halive ((ht.perm (.refl _) hperm (.refl _)).params_as_handles hok).releaseAll
  | upcallResult ip =>
    simp only at h
    split at h
    · cases h
      exact hinv
    · rename_i n _
      cases h
      exact .of_alive halive (ht.addRef n).release
  | start thread iid =>
    simp only at h
    split at h
    · cases h
      exact hinv
    · rename_i p hset
      cases h
      exact .of_alive halive (ht.set_put hset)
  | destroy =>
    simp only [Option.ite_none_right_eq_some, Option.some.injEq] at h
    obtain ⟨-, rfl⟩ := h
    obtain ⟨hrun, -, hempty⟩ := TableInv.drain (List.range INTERFACE_POINTER_MAX)
      hinv.ledger fun n => by have := (ht.slots n).owners; omega
    exact ⟨fun hdead => by simp at hdead, hrun,
      fun _ n hn => hempty n (List.mem_range.mpr hn)⟩

end Syscalls

/-! ### The calls that go wrong -/

/-- A call on a free slot whose use count is not negative is not refused. -/
theorem Syscalls.call_not_lawful {s : Syscalls Obj Iid}
    {reflect : Option Iid → Nat → Bool → MethodKind} {base self methodNumber : Nat}
    {second : Option Nat} {args : List Arg} (hinv : s.Inv) (halive : s.alive = true)
    (hfree : ¬(SyscallStep.call base self second methodNumber args).KeepsTable s) :
    ¬(s.call reflect base self second methodNumber args).Lawful := by
  simp only [SyscallStep.KeepsTable, not_forall, not_or, not_not] at hfree
  obtain ⟨n, variant, htarget, hobject, huse⟩ := hfree
  have hvalid : ((s.table.addRef n).slots n).isValid = true := by
    have := ((hinv.table halive).slots n).owners
    simp only [SyscallTable.addRef, SyscallTable.put, Function.update_self,
      SyscallProxy.isValid_iff, SyscallProxy.addRef]
    omega
  rintro ⟨held, hrun, -⟩
  have hextend : s.table.trace ++ [.accept n] <+:
      (s.call reflect base self second methodNumber args).table.trace := by
    have haccepts : s.table.trace ++ [.accept n] <+:
        (s.table.enter reflect base n variant methodNumber args).1.trace :=
      SyscallTable.enter_accepts hvalid
    simp only [Syscalls.call, htarget]
    split <;> exact haccepts
  have hbad := Ledger.run_of_prefix hextend hrun
  simp [Ledger.run_append, hinv.ledger, Ledger.step, hobject] at hbad

/-- Along every run whose calls name slots that hold an object or are refused for their use count,
    and whose upcalls release what they have set, the events of the process are in order. A call
    in a state of such a run keeps them in order exactly when it names such a slot. -/
theorem syscalls_lawful (reflect : Option Iid → Nat → Bool → MethodKind) :
    (∀ s : Syscalls Obj Iid,
      (syscalls reflect).RunWith (fun s l => l.KeepsTable s) s → s.Lawful) ∧
    ∀ (s s' : Syscalls Obj Iid) (base self : Nat) (second : Option Nat) (methodNumber : Nat)
      (args : List Arg), (syscalls reflect).RunWith (fun s l => l.KeepsTable s) s →
      s.step reflect (.call base self second methodNumber args) = some s' →
      (s'.Lawful ↔ (SyscallStep.call base self second methodNumber args).KeepsTable s) := by
  have hruns : ∀ s : Syscalls Obj Iid,
      (syscalls reflect).RunWith (fun s l => l.KeepsTable s) s → s.Inv := by
    intro s hrun
    refine hrun.invariant Syscalls.Inv ?_ fun s l s' hinv hok h => Syscalls.step_inv hinv hok h
    rintro s ⟨process, iid, ipt, rfl⟩
    exact Syscalls.create_inv process iid ipt
  refine ⟨fun s hrun => (hruns s hrun).lawful, fun s s' base self second m args hrun h => ?_⟩
  refine ⟨fun hlawful => ?_, fun hok => (Syscalls.step_inv (hruns s hrun) hok h).lawful⟩
  by_contra hfree
  simp only [Syscalls.step, Option.ite_none_right_eq_some, Option.some.injEq] at h
  obtain ⟨halive, -, rfl⟩ := h
  exact Syscalls.call_not_lawful (hruns s hrun) halive hfree hlawful

/-- A process that calls a method of its first thread. -/
theorem syscalls_lawful_thread :
    let reflect : Option Unit → Nat → Bool → MethodKind := fun _ _ _ => .invoke .none
    let s : Syscalls Nat Unit := ⟨(SyscallTable.create 0 ()).put 1 ⟨1, 1, some 1, some ()⟩
      [.set 1 1], 0, [], [], true⟩
    (s.call reflect 0 4 none 3 []).Lawful := by
  intro reflect s
  refine (syscalls_lawful reflect).1 _ (.next (l := .call 0 4 none 3 []) (s := s)
    (.next (l := .start 1 ()) (.start ⟨0, (), 0, rfl⟩) trivial rfl) ?_ rfl)
  intro n variant htarget
  cases (show some (1, false) = some (n, variant) from htarget)
  exact .inl (by decide)

/-- A process releases the slot of its first thread and calls a method on it again: the call passes
    the validity check, and the method is invoked on a null pointer. -/
theorem syscalls_lawful_freed :
    ∃ s : Syscalls Nat Unit,
      (syscalls fun _ m _ => if m = 2 then .release else .invoke .none).Reachable s ∧
      SyscallEvent.invoke 1 none ∈ s.table.trace ∧ ¬s.Lawful := by
  let reflect : Option Unit → Nat → Bool → MethodKind :=
    fun _ m _ => if m = 2 then .release else .invoke .none
  let fresh : Syscalls Nat Unit := ⟨.create 0 (), 0, [], [], true⟩
  let steps : List (SyscallStep Nat Unit) :=
    [.start 1 (), .call 0 4 none 2 [], .call 0 4 none 3 []]
  let trace : List (SyscallEvent Nat) :=
    [.set 0 0, .set 1 1, .accept 1, .release 1 1, .accept 1, .invoke 1 none]
  obtain ⟨s, hsteps, htrace⟩ : ∃ s, steps.foldlM (Syscalls.step reflect) fresh = some s ∧
      s.table.trace = trace := ⟨_, rfl, rfl⟩
  refine ⟨s, System.reachable_of_foldlM (.start ⟨0, (), 0, rfl⟩) hsteps, ?_, ?_⟩
  · rw [htrace]
    decide
  · rintro ⟨held, hrun, -⟩
    have hbad : (Ledger.run (fun _ => none) trace).isNone = true := by decide
    rw [← htrace, hrun] at hbad
    cases hbad

end EsOs.Kernel
