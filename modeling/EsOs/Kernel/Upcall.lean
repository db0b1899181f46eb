import EsOs.Lib.System
import EsOs.Kernel.Syscall

/-!
# The upcall table

The proxies through which the kernel holds objects of other processes: `UpcallProxy` and those
parts of `Process::set`, `Process::upcall` (`os/kernel/port/upcall.cpp`) and `Process::systemCall`
(`os/kernel/port/syscall.cpp`) that move its reference count and its use flag.

Beside each proxy stands what it is to be compared with: the references that the kernel holds
through it, and the `addRef` and `release` calls that reached the object in the server. How an upcall
goes is an input; the arguments and results of other methods are left out.
-/

namespace EsOs.Kernel

variable {Obj Iid Proc : Type _}

/-- `UpcallProxy` (`os/kernel/include/process.h:85-119`). -/
structure UpcallProxy (Obj Iid Proc : Type _) where
  ref : Int
  use : Int
  object : Option Obj
  iid : Option Iid
  process : Option Proc
  deriving DecidableEq, Repr

namespace UpcallProxy

/-- The constructor of `UpcallProxy` (`os/kernel/include/process.h:94-100`). -/
def empty : UpcallProxy Obj Iid Proc where
  ref := 0
  use := 0
  object := none
  iid := none
  process := none

/-- `UpcallProxy::set` (`os/kernel/port/upcall.cpp:39-51`); `none` is `false`. -/
def set (p : UpcallProxy Obj Iid Proc) (process : Proc) (object : Obj) (iid : Iid) (used : Bool) :
    Option (UpcallProxy Obj Iid Proc) :=
  if p.ref + 1 ≠ 1 then none
  else some {
    ref := p.ref + 1
    use := if used then 1 else 0
    object := some object
    iid := some iid
    process := some process }

/-- `UpcallProxy::addRef` (`os/kernel/port/upcall.cpp:53-56`). -/
def addRef (p : UpcallProxy Obj Iid Proc) : UpcallProxy Obj Iid Proc :=
  { p with ref := p.ref + 1 }

/-- `UpcallProxy::release` (`os/kernel/port/upcall.cpp:58-61`). -/
def release (p : UpcallProxy Obj Iid Proc) : UpcallProxy Obj Iid Proc :=
  { p with ref := p.ref - 1 }

/-- `UpcallProxy::isUsed` (`os/kernel/port/upcall.cpp:63-66`). -/
def isUsed (p : UpcallProxy Obj Iid Proc) : Bool × UpcallProxy Obj Iid Proc :=
  if p.use = 0 then (decide (p.use + 1 ≠ 1), { p with use := p.use + 1 }) else (true, p)

end UpcallProxy

/-- How the upcall that forwards an `addRef` or `release` goes: there is no upcall record, the
    parameters cannot be copied to the stack of the server, or the method is invoked and returns
    or fails. -/
inductive Delivery
  | noRecord | copyInFailed | served (ok : Bool)
  deriving DecidableEq, Repr

/-- What a call of `addRef` or `release` through the broker comes to. -/
structure Upcalled (Obj Iid Proc : Type _) where
  proxy : UpcallProxy Obj Iid Proc
  /-- the method of the object in the server was invoked -/
  forwarded : Bool
  /-- the call returned and did not throw -/
  returned : Bool

namespace Process

/-- `Process::upcall` of `addRef` (`os/kernel/port/upcall.cpp:140-160`, and its ends at `177-181`
    and `345-368`). -/
def upcallAddRef (p : UpcallProxy Obj Iid Proc) (d : Delivery) : Upcalled Obj Iid Proc :=
  let (used, p) := p.addRef.isUsed
  if used then { proxy := p, forwarded := false, returned := true }
  else match d with
    | .noRecord => { proxy := p, forwarded := false, returned := false }
    | .copyInFailed => { proxy := p, forwarded := false, returned := false }
    | .served ok => { proxy := p, forwarded := true, returned := ok }

/-- `Process::upcall` of `release` (`os/kernel/port/upcall.cpp:161-172`, and its ends at `177-181`
    and `345-368`). -/
def upcallRelease (p : UpcallProxy Obj Iid Proc) (d : Delivery) : Upcalled Obj Iid Proc :=
  if 1 < p.ref ∨ p.use = 0 then { proxy := p.release, forwarded := false, returned := true }
  else match d with
    | .noRecord => { proxy := p, forwarded := false, returned := false }
    | .copyInFailed => { proxy := p.release, forwarded := false, returned := false }
    | .served ok => { proxy := p.release, forwarded := true, returned := ok }

end Process

/-- A proxy and, since it was set, who holds it and what reached the object. -/
structure UpcallSlot (Obj Iid Proc : Type _) where
  proxy : UpcallProxy Obj Iid Proc
  /-- it was set with `used = true` -/
  used : Bool
  /-- the system call that set it still has its handle -/
  handle : Bool
  /-- the references that others in the kernel hold -/
  holders : Nat
  /-- the `addRef` calls that reached the object -/
  addRefs : Nat
  /-- the `release` calls that reached the object -/
  releases : Nat

namespace UpcallSlot

/-- A slot that was never set. -/
def empty : UpcallSlot Obj Iid Proc where
  proxy := .empty
  used := false
  handle := false
  holders := 0
  addRefs := 0
  releases := 0

/-- A proxy that has just been set: a system call keeps a handle to it
    (`os/kernel/port/syscall.cpp:377-380, 479-482`); an upcall returns it, so that its caller
    holds it (`os/kernel/port/upcall.cpp:319-323`). -/
def opened (p : UpcallProxy Obj Iid Proc) (used : Bool) : UpcallSlot Obj Iid Proc where
  proxy := p
  used := used
  handle := !used
  holders := if used then 1 else 0
  addRefs := 0
  releases := 0

/-- A holder calls `addRef`; the new reference is its own when the call returns. -/
def addRef (s : UpcallSlot Obj Iid Proc) (d : Delivery) : UpcallSlot Obj Iid Proc :=
  let r := Process.upcallAddRef s.proxy d
  { s with
    proxy := r.proxy
    holders := if r.returned then s.holders + 1 else s.holders
    addRefs := if r.forwarded then s.addRefs + 1 else s.addRefs }

/-- A holder calls `release`; without an upcall record the call does nothing and throws. -/
def release (s : UpcallSlot Obj Iid Proc) (d : Delivery) : UpcallSlot Obj Iid Proc :=
  let r := Process.upcallRelease s.proxy d
  { s with
    proxy := r.proxy
    holders := if r.proxy.ref < s.proxy.ref then s.holders - 1 else s.holders
    releases := if r.forwarded then s.releases + 1 else s.releases }

/-- The system call ends and `~Handle` of its `upcallProxies` releases the proxy itself. -/
def endCall (s : UpcallSlot Obj Iid Proc) : UpcallSlot Obj Iid Proc :=
  { s with proxy := s.proxy.release, handle := false }

end UpcallSlot

/-- `Process::upcallTable`. -/
abbrev UpcallTable (Obj Iid Proc : Type _) :=
  Nat → UpcallSlot Obj Iid Proc

/-- The steps that move the counts of the table. -/
inductive UpcallStep (Obj Iid Proc : Type _)
  /-- `Process::set`, by a system call or with `used = true` by an upcall that returns -/
  | set (process : Proc) (object : Obj) (iid : Iid) (used : Bool)
  | addRef (n : Nat) (d : Delivery)
  | release (n : Nat) (d : Delivery)
  | endCall (n : Nat)

namespace UpcallTable

/-- `Process::set` over the slots given (`os/kernel/port/upcall.cpp:68-85`); a full table is left
    as it is and `-1` is returned. -/
def setIn (t : UpcallTable Obj Iid Proc) (process : Proc) (object : Obj) (iid : Iid)
    (used : Bool) : List Nat → UpcallTable Obj Iid Proc
  | [] => t
  | n :: ns =>
    match (t n).proxy.set process object iid used with
    | some p => Function.update t n (.opened p used)
    | none => setIn t process object iid used ns

/-- One step; `none` when the caller does not hold what it uses. -/
def step (t : UpcallTable Obj Iid Proc) :
    UpcallStep Obj Iid Proc → Option (UpcallTable Obj Iid Proc)
  | .set process object iid used =>
    some (t.setIn process object iid used (List.range INTERFACE_POINTER_MAX))
  | .addRef n d =>
    if 0 < (t n).holders ∨ (t n).handle = true then some (Function.update t n ((t n).addRef d))
    else none
  | .release n d =>
    if 0 < (t n).holders then some (Function.update t n ((t n).release d)) else none
  | .endCall n =>
    if (t n).handle = true then some (Function.update t n (t n).endCall) else none

end UpcallTable

/-- The runs of the table from its constructors. -/
def upcallSystem (Obj Iid Proc : Type _) :
    Lib.System (UpcallTable Obj Iid Proc) (UpcallStep Obj Iid Proc) :=
  Lib.System.ofStep (fun t => t = fun _ => .empty) UpcallTable.step

end EsOs.Kernel
