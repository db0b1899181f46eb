import EsOs.Kernel.Mmu
import Mathlib.Data.List.Basic
import Mathlib.Logic.Function.Basic

/-!
# The system call proxy table

The slots through which a process names the objects of the kernel: `SyscallProxy` and the parts of
`Process::systemCall` (`os/kernel/port/syscall.cpp`), `Process::set`, `Process::start` and
`~Process` (`os/kernel/port/process.cpp`), and `copyIn` and `copyOut` (`os/kernel/port/upcall.cpp`)
that move the two counters of a slot.

A call is two steps, up to the invocation of the method and from its return, so that other calls
and upcalls of the same process may run between them. What a method returns, what the reflection
database says about it and which arguments fault are inputs.
-/

namespace EsOs.Kernel

/-- `Process::INTERFACE_POINTER_MAX` (`os/kernel/include/process.h:216`). -/
def INTERFACE_POINTER_MAX : Nat := 100

/-- `SyscallProxy` (`os/kernel/include/process.h:38-83`). `ref` counts handles that exist at one
    time; `use` counts calls of the process and wraps. -/
structure SyscallProxy (Obj Iid : Type _) where
  ref : Int
  use : Int
  object : Option Obj
  iid : Option Iid
  deriving DecidableEq, Repr

variable {Obj Iid : Type _}

namespace SyscallProxy

/-- The constructor of `SyscallProxy`. -/
def empty : SyscallProxy Obj Iid where
  ref := 0
  use := 0
  object := none
  iid := none

/-- `SyscallProxy::set` (`os/kernel/port/syscall.cpp:41-52`); `none` is `false`. -/
def set (p : SyscallProxy Obj Iid) (object : Obj) (iid : Iid) (used : Bool) :
    Option (SyscallProxy Obj Iid) :=
  if p.ref + 1 ≠ 1 then none
  else some ⟨p.ref + 1, if used then 1 else 0, some object, some iid⟩

/-- `SyscallProxy::isValid` (`os/kernel/include/process.h:65-68`). -/
def isValid (p : SyscallProxy Obj Iid) : Bool :=
  decide (0 < p.ref ∧ 0 ≤ p.use)

/-- `SyscallProxy::addRef` (`os/kernel/port/syscall.cpp:54-57`). -/
def addRef (p : SyscallProxy Obj Iid) : SyscallProxy Obj Iid :=
  { p with ref := p.ref + 1 }

/-- `SyscallProxy::release` (`os/kernel/port/syscall.cpp:59-76`) and the object it releases. -/
def release (p : SyscallProxy Obj Iid) : SyscallProxy Obj Iid × Option Obj :=
  if p.ref - 1 = 0 then ({ p with ref := p.ref - 1, object := none }, p.object)
  else ({ p with ref := p.ref - 1 }, none)

/-- `SyscallProxy::addUser` (`os/kernel/port/syscall.cpp:78-86`) and the count it returns. -/
def addUser (p : SyscallProxy Obj Iid) : SyscallProxy Obj Iid × Int :=
  let count := toLong (p.use + 1)
  if count = 1 then (({ p with use := count }).addRef, count)
  else ({ p with use := count }, count)

/-- `SyscallProxy::releaseUser` (`os/kernel/port/syscall.cpp:88-96`): the slot, the object it
    releases and the count it returns. -/
def releaseUser (p : SyscallProxy Obj Iid) : SyscallProxy Obj Iid × Option Obj × Int :=
  let count := toLong (p.use - 1)
  if count = 0 then
    let (p, gone) := ({ p with use := count }).release
    (p, gone, count)
  else ({ p with use := count }, none, count)

/-- `while (0 < proxy->release());` with the objects it releases; the first argument bounds the
    number of turns. -/
def releaseLoop : Nat → SyscallProxy Obj Iid → SyscallProxy Obj Iid × List Obj
  | 0, p => (p, [])
  | fuel + 1, p =>
      let (p, gone) := p.release
      if 0 < p.ref then
        let (p, more) := releaseLoop fuel p
        (p, gone.toList ++ more)
      else (p, gone.toList)

/-- What `~Process` does to a slot (`os/kernel/port/process.cpp:553-560`). -/
def drain (p : SyscallProxy Obj Iid) : SyscallProxy Obj Iid × List Obj :=
  releaseLoop (p.ref.toNat + 1) p.addRef

end SyscallProxy

/-- What happens to a slot, in the order in which it happens. -/
inductive SyscallEvent (Obj : Type _)
  /-- The slot takes over a reference to the object. -/
  | set (slot : Nat) (object : Obj)
  /-- A call on the slot passes the validity check. -/
  | accept (slot : Nat)
  /-- A call on the slot fails the validity check and is refused with `EBADF`. -/
  | refuse (slot : Nat)
  /-- The method of a call on the slot is invoked on this object, `none` for a null pointer. -/
  | invoke (slot : Nat) (object : Option Obj)
  /-- The reference of the slot to the object is released. -/
  | release (slot : Nat) (object : Obj)
  deriving DecidableEq, Repr

/-- The methods of `es::Monitor` that move the counter of their slot when they return. -/
inductive MonitorMethod
  | none | lock | tryLock | unlock
  deriving DecidableEq, Repr

/-- What the reflection database makes of a method number: an exception (`ENOSYS` for a number out
    of range, `EBADF` for a call that passes a variant where none is returned or the reverse), one
    of the two methods handled locally, or a method to invoke. -/
inductive MethodKind
  | refused | addRef | release | invoke (monitor : MonitorMethod)
  deriving DecidableEq, Repr

/-- An argument that matters to the table: an interface pointer, or one whose check throws. -/
inductive Arg
  | object (ip : Nat)
  | fault
  deriving DecidableEq, Repr

/-- The handles and variables of a call of `systemCall` that is inside the invoked method. The
    last input proxy comes first. -/
structure ActiveCall (Obj : Type _) where
  slot : Nat
  object : Option Obj
  inputProxies : List Nat
  monitor : MonitorMethod
  deriving DecidableEq, Repr

/-- How an invoked method ends: it throws, or returns an interface pointer with its interface, and
    a `bool` for `tryLock`. -/
inductive Answer (Obj Iid : Type _)
  | threw
  | returned (ip : Option (Obj × Iid)) (truth : Bool)

/-- An interface pointer passed to the process in an upcall: one of its own objects, or an object
    of the kernel. -/
inductive UpcallArg (Obj Iid : Type _)
  | own (ip : Nat)
  | foreign (object : Obj) (iid : Iid)

/-- The pointer that `copyIn` leaves in the parameters of an upcall. The slot it has set for it is
    kept for reference only; `copyOut` finds it by the pointer. -/
structure UpcallParam (Obj : Type _) where
  ip : Nat
  slot : Option (Nat × Obj)
  deriving DecidableEq, Repr

/-- The slots of a process and what happened to them so far. -/
structure SyscallTable (Obj Iid : Type _) where
  slots : Nat → SyscallProxy Obj Iid
  trace : List (SyscallEvent Obj)

/-- A process: its table, the address of its interface pointers, and its calls and upcalls under
    way. -/
structure Syscalls (Obj Iid : Type _) where
  table : SyscallTable Obj Iid
  ipt : Nat
  calls : List (ActiveCall Obj)
  upcalls : List (List (UpcallParam Obj))
  alive : Bool

/-- The slot number of `self - base`, an `unsigned` made from a pointer difference. -/
def interfaceNumber (base self : Nat) : Nat :=
  (toLong ((self : Int) - base) / 4 % 4294967296).toNat

/-- The slot that an interface pointer lies in, for a table at `base`. -/
def slotAt (base ip : Nat) : Option Nat :=
  if ip ≠ 0 ∧ base ≤ ip ∧ ip < addPtr base (4 * INTERFACE_POINTER_MAX) then some ((ip - base) / 4)
  else none

/-- The slot of a call and whether `self` pointed to a variant
    (`os/kernel/port/syscall.cpp:108-145`); `none` is `EBADF`. `second` is the pointer in the first
    parameter, `none` when the variant or the parameter is not readable. -/
def callTarget (base self : Nat) (second : Option Nat) : Option (Nat × Bool) :=
  if base % 4 ≠ 0 ∨ self % 4 ≠ 0 then none
  else if interfaceNumber base self < INTERFACE_POINTER_MAX then
    some (interfaceNumber base self, false)
  else match second with
    | none => none
    | some self' =>
        if interfaceNumber base self' < INTERFACE_POINTER_MAX then
          some (interfaceNumber base self', true)
        else none

namespace SyscallTable

/-- The table after the constructor of `Process` (`os/kernel/port/process.cpp:529`). -/
def create (process : Obj) (iid : Iid) : SyscallTable Obj Iid where
  slots := Function.update (fun _ => .empty) 0 ⟨1, 1, some process, some iid⟩
  trace := [.set 0 process]

/-- Stores a slot and adds to the trace. -/
def put (t : SyscallTable Obj Iid) (n : Nat) (p : SyscallProxy Obj Iid)
    (events : List (SyscallEvent Obj)) : SyscallTable Obj Iid where
  slots := Function.update t.slots n p
  trace := t.trace ++ events

/-- Adds to the trace. -/
def note (t : SyscallTable Obj Iid) (event : SyscallEvent Obj) : SyscallTable Obj Iid :=
  { t with trace := t.trace ++ [event] }

def addRef (t : SyscallTable Obj Iid) (n : Nat) : SyscallTable Obj Iid :=
  t.put n (t.slots n).addRef []

def release (t : SyscallTable Obj Iid) (n : Nat) : SyscallTable Obj Iid :=
  t.put n (t.slots n).release.1 ((t.slots n).release.2.toList.map (.release n))

def addUser (t : SyscallTable Obj Iid) (n : Nat) : SyscallTable Obj Iid :=
  t.put n (t.slots n).addUser.1 []

def releaseUser (t : SyscallTable Obj Iid) (n : Nat) : SyscallTable Obj Iid :=
  t.put n (t.slots n).releaseUser.1 ((t.slots n).releaseUser.2.1.toList.map (.release n))

def drain (t : SyscallTable Obj Iid) (n : Nat) : SyscallTable Obj Iid :=
  t.put n (t.slots n).drain.1 ((t.slots n).drain.2.map (.release n))

/-- The destructors of a list of handles. -/
def releaseAll (t : SyscallTable Obj Iid) (handles : List Nat) : SyscallTable Obj Iid :=
  handles.foldl release t

/-- `Process::set` over the slots given (`os/kernel/port/process.cpp:592-612`): the slot taken and
    the table; `none` is `-1`. -/
def setIn (t : SyscallTable Obj Iid) (object : Obj) (iid : Iid) (used : Bool) :
    List Nat → Option (Nat × SyscallTable Obj Iid)
  | [] => none
  | n :: ns =>
      match (t.slots n).set object iid used with
      | some p => some (n, t.put n p [.set n object])
      | none => setIn t object iid used ns

/-- `Process::set`. -/
def set (t : SyscallTable Obj Iid) (object : Obj) (iid : Iid) (used : Bool) :
    Option (Nat × SyscallTable Obj Iid) :=
  t.setIn object iid used (List.range INTERFACE_POINTER_MAX)

/-- The interface pointers among the arguments (`os/kernel/port/syscall.cpp:352-380, 455-487`): the
    handles taken, and `false` when an argument throws. A pointer outside the table goes to the
    upcall table, which is shared by all processes. -/
def takeArgs (base : Nat) :
    List Arg → List Nat → SyscallTable Obj Iid → SyscallTable Obj Iid × List Nat × Bool
  | [], taken, t => (t, taken, true)
  | .fault :: _, taken, t => (t, taken, false)
  | .object ip :: args, taken, t =>
      match slotAt base ip with
      | none => takeArgs base args taken t
      | some n =>
          if ((t.addRef n).slots n).isValid then takeArgs base args (n :: taken) (t.addRef n)
          else ((t.addRef n).release n, taken, false)

/-- The part of `Process::systemCall` from the handle on the slot up to the invocation of the
    method (`os/kernel/port/syscall.cpp:146-510`), with the call that is then active, if any. -/
def enter (reflect : Option Iid → Nat → Bool → MethodKind) (t : SyscallTable Obj Iid)
    (base n : Nat) (variant : Bool) (methodNumber : Nat) (args : List Arg) :
    SyscallTable Obj Iid × Option (ActiveCall Obj) :=
  let t := t.addRef n
  if (t.slots n).isValid then
    let t := t.note (.accept n)
    match reflect (t.slots n).iid methodNumber variant with
    | .refused => (t.release n, none)
    | .addRef => ((t.addUser n).release n, none)
    | .release => ((t.releaseUser n).release n, none)
    | .invoke monitor =>
        let object := (t.slots n).object
        match takeArgs base args [] t with
        | (t, taken, false) => ((t.releaseAll taken).release n, none)
        | (t, taken, true) => (t.note (.invoke n object), some ⟨n, object, taken, monitor⟩)
  else ((t.note (.refuse n)).release n, none)

/-- The counter of the slot after a method of `es::Monitor`
    (`os/kernel/port/syscall.cpp:589-608`). -/
def monitor (t : SyscallTable Obj Iid) (c : ActiveCall Obj) (truth : Bool) : SyscallTable Obj Iid :=
  match c.monitor with
  | .none => t
  | .lock => t.addUser c.slot
  | .tryLock => if truth then t.addUser c.slot else t
  | .unlock => t.releaseUser c.slot

/-- `Process::systemCall` from the return of the method
    (`os/kernel/port/syscall.cpp:571-611`). -/
def leave (t : SyscallTable Obj Iid) (c : ActiveCall Obj) (answer : Answer Obj Iid) :
    SyscallTable Obj Iid :=
  let handles := c.inputProxies ++ [c.slot]
  match answer with
  | .threw => t.releaseAll handles
  | .returned none truth => (t.monitor c truth).releaseAll handles
  | .returned (some (object, iid)) truth =>
      match t.set object iid true with
      -- the returned object itself is released and `EMFILE` is thrown
      | none => t.releaseAll handles
      | some (_, t) => (t.monitor c truth).releaseAll handles

/-- `copyInObject` for each parameter of an upcall (`os/kernel/port/upcall.cpp:483-515`). -/
def copyIn (ipt : Nat) :
    List (UpcallArg Obj Iid) → SyscallTable Obj Iid →
      List (UpcallParam Obj) × SyscallTable Obj Iid
  | [], t => ([], t)
  | .own ip :: args, t =>
      let (params, t) := copyIn ipt args t
      (⟨ip, none⟩ :: params, t)
  | .foreign object iid :: args, t =>
      match t.set object iid false with
      | none =>
          let (params, t) := copyIn ipt args t
          (⟨0, none⟩ :: params, t)
      | some (n, t) =>
          let (params, t) := copyIn ipt args t
          (⟨addPtr ipt (4 * n), some (n, object)⟩ :: params, t)

end SyscallTable

/-- The slots that `copyOut` releases (`os/kernel/port/upcall.cpp:871-876`). -/
def copyOutSlots (ipt : Nat) (params : List (UpcallParam Obj)) : List Nat :=
  params.filterMap fun param => slotAt ipt param.ip

/-- The steps of a process. -/
inductive SyscallStep (Obj Iid : Type _)
  /-- A system call up to the invocation of its method. -/
  | call (base self : Nat) (second : Option Nat) (methodNumber : Nat) (args : List Arg)
  /-- The method of an active call ends. -/
  | ret (c : ActiveCall Obj) (answer : Answer Obj Iid)
  /-- An upcall into the process begins. When `copyIn` fails, its end never comes. -/
  | upcall (args : List (UpcallArg Obj Iid))
  /-- An upcall ends, up to `copyOut`. -/
  | upcallEnd (params : List (UpcallParam Obj))
  /-- The interface pointer returned by an upcall is looked up
      (`os/kernel/port/upcall.cpp:301-316`). -/
  | upcallResult (ip : Nat)
  /-- `Process::start` sets slot 1 to the first thread (`os/kernel/port/process.cpp:774`). -/
  | start (thread : Obj) (iid : Iid)
  /-- `~Process` (`os/kernel/port/process.cpp:553-560`), when no call is under way. -/
  | destroy

namespace Syscalls

/-- `Process::systemCall` up to the invocation of the method
    (`os/kernel/port/syscall.cpp:98-510`). -/
def call (reflect : Option Iid → Nat → Bool → MethodKind) (s : Syscalls Obj Iid)
    (base self : Nat) (second : Option Nat) (methodNumber : Nat) (args : List Arg) :
    Syscalls Obj Iid :=
  -- a base of zero comes from the C runtime and leaves `ipt` alone
  let s := if base ≠ 0 ∧ base % 4 = 0 then { s with ipt := base } else s
  match callTarget base self second with
  | none => s
  | some (n, variant) =>
      let (t, active) := s.table.enter reflect base n variant methodNumber args
      { s with table := t, calls := active.toList ++ s.calls }

/-- One step; `none` when the step is not possible. The kernel stacks of `2^31` calls do not fit
    into the address space. -/
def step [DecidableEq Obj] (reflect : Option Iid → Nat → Bool → MethodKind)
    (s : Syscalls Obj Iid) (l : SyscallStep Obj Iid) : Option (Syscalls Obj Iid) :=
  if s.alive then
    match l with
    | .call base self second methodNumber args =>
        if s.calls.length < 2147483648 then some (s.call reflect base self second methodNumber args)
        else none
    | .ret c answer =>
        if c ∈ s.calls then
          some { s with table := s.table.leave c answer, calls := s.calls.erase c }
        else none
    | .upcall args =>
        let (params, t) := s.table.copyIn s.ipt args
        some { s with table := t, upcalls := params :: s.upcalls }
    | .upcallEnd params =>
        if params ∈ s.upcalls then
          some { s with
            table := s.table.releaseAll (copyOutSlots s.ipt params)
            upcalls := s.upcalls.erase params }
        else none
    | .upcallResult ip =>
        match slotAt s.ipt ip with
        | none => some s
        | some n => some { s with table := (s.table.addRef n).release n }
    | .start thread iid =>
        match (s.table.slots 1).set thread iid true with
        | none => some s
        | some p => some { s with table := s.table.put 1 p [.set 1 thread] }
    | .destroy =>
        if s.calls = [] then
          some { s with
            table := (List.range INTERFACE_POINTER_MAX).foldl SyscallTable.drain s.table
            alive := false }
        else none
  else none

end Syscalls

end EsOs.Kernel
