import Mathlib.Logic.Function.Basic
import EsOs.Lib.System

/-!
# Threads

Threads, monitors and the run queues of one core (`os/kernel/port/sched.cpp`, `rendezvous.cpp`,
`monitor.cpp`, `thread.cpp`, and `reschedule` of `os/kernel/pc/pc_thread.cpp` and `pc_core.cpp`). What
runs with interrupts masked is one step, up to the next switch of threads. All threads and monitors
are there from the start; a thread that has not been created is a new one. Cancellation is deferred,
no thread is in an upcall, and what `ASSERT` demands is not tested.
-/

namespace EsOs.Kernel

open EsOs.Lib

/-- `Lowest`, `Highest` (`IThread.idl:39-47`). -/
def lowest : Nat := 1
def highest : Nat := 31

inductive ThreadState where
  | new
  | runnable
  | running
  | waiting
  | terminated
deriving DecidableEq, Repr

/-- The rendezvous of a monitor, and those of a thread. -/
inductive Rendezvous (T M : Type*) where
  | lock (m : M)
  | cv (m : M)
  | joinPoint (t : T)
  | sleepPoint (t : T)
deriving DecidableEq, Repr

/-- Where a thread goes on when it runs again: in the loop of `Rendezvous::sleep` that it has called, or
    behind `reschedule`. `Monitor::wait` keeps the lock count. -/
inductive Call (T M : Type*) where
  | returns
  | lock (m : M) (realCount : Option Nat)
  | wait (m : M) (realCount : Nat)
  | join (t : T)
  | sleep
deriving DecidableEq, Repr

/-- `Thread` (`thread.h:151-300`). -/
structure ThreadRecord (T M : Type*) where
  state : ThreadState
  priority : Nat
  base : Nat
  cancelRequested : Bool
  rendezvous : Option (Rendezvous T M)
  monitor : Option M
  monitorList : List M
  call : Call T M

/-- `Monitor` (`thread.h:211-216`). -/
structure MonitorRecord (T : Type*) where
  owner : Option T
  lockCount : Nat

/-- The threads, the monitors, and `Sched` (`thread.h:400-402`) of the core. -/
structure Core (T M : Type*) where
  thread : T → ThreadRecord T M
  monitor : M → MonitorRecord T
  queue : Rendezvous T M → List T
  runQueue : Nat → List T
  runQueueBits : BitVec 32
  runQueueHint : Bool
  current : Option T

namespace Core

variable {T M : Type*} [DecidableEq T] [DecidableEq M]

/-- A thread takes new values. -/
def put (s : Core T M) (t : T) (v : ThreadRecord T M) : Core T M :=
  { s with thread := Function.update s.thread t v }

/-- A monitor takes new values. -/
def putMonitor (s : Core T M) (m : M) (v : MonitorRecord T) : Core T M :=
  { s with monitor := Function.update s.monitor m v }

/-- Another list in the queue of a rendezvous. -/
def setQueue (s : Core T M) (r : Rendezvous T M) (l : List T) : Core T M :=
  { s with queue := Function.update s.queue r l }

/-! ## Run queues -/

/-- `Sched::setRun` (`sched.cpp:33-43`). -/
def setRun (s : Core T M) (t : T) : Core T M :=
  let s := s.put t { s.thread t with state := .runnable }
  let priority := (s.thread t).priority
  { s with
    runQueue := Function.update s.runQueue priority (s.runQueue priority ++ [t])
    runQueueBits := s.runQueueBits ||| 0x80000000#32 >>> priority
    runQueueHint := true }

/-- `Sched::unsetRun` (`sched.cpp:45-57`). -/
def unsetRun (s : Core T M) (t : T) : Core T M :=
  let priority := (s.thread t).priority
  let queue := (s.runQueue priority).erase t
  { s with
    runQueue := Function.update s.runQueue priority queue
    runQueueBits :=
      if queue = [] then s.runQueueBits &&& ~~~(0x80000000#32 >>> priority) else s.runQueueBits }

/-- The index of the least bit that is set, from 1 on, or 0. -/
def ffs (bits : BitVec 32) : Nat :=
  match (List.range 32).find? fun i => bits.getLsbD i with
  | some i => i + 1
  | none => 0

/-- `Sched::selectThread` (`sched.cpp:59-110`): nothing while it waits. -/
def selectThread (s : Core T M) : Option (T × Core T M) :=
  if s.runQueueBits = 0 then none
  else
    let priority := highest + 1 - ffs s.runQueueBits
    if priority ≤ highest ∧ lowest ≤ priority then
      match s.runQueue priority with
      | [] => none
      | next :: queue =>
        let s := s.put next { s.thread next with state := .running }
        some (next, { s with
          runQueue := Function.update s.runQueue priority queue
          runQueueBits :=
            if queue = [] then s.runQueueBits &&& ~~~(0x80000000#32 >>> priority)
            else s.runQueueBits
          current := some next })
    else none

/-- `Thread::reschedule` (`pc_thread.cpp:38-72`), and what `Core::reschedule` does with the current
    thread (`pc_core.cpp:627-666`). -/
def reschedule (s : Core T M) : Core T M :=
  match s.current with
  | none => s
  | some t =>
    match (s.thread t).state with
    | .running => if s.runQueueHint then { s.setRun t with current := none } else s
    | _ => { s with current := none }

/-! ## Rendezvous -/

/-- `Queue::addPrio` (`thread.h:178-191`). -/
def addPrio (priority : T → Nat) (t : T) : List T → List T
  | [] => [t]
  | u :: l => if priority u < priority t then t :: u :: l else u :: addPrio priority t l

/-- The current thread is put to the queue (`rendezvous.cpp:40-50`). `call` is the loop that it is
    in. -/
def enqueue (s : Core T M) (r : Rendezvous T M) (t : T) (call : Call T M) : Core T M :=
  let s := s.setQueue r (addPrio (fun u => (s.thread u).priority) t (s.queue r))
  { s.put t { s.thread t with state := .waiting, rendezvous := some r, call := call } with
    current := none }

/-- One turn of the loop of `Rendezvous::wakeup` (`rendezvous.cpp:76-79`). -/
def wake (s : Core T M) (r : Rendezvous T M) (t : T) : Core T M :=
  let s := s.setQueue r ((s.queue r).erase t)
  (s.put t { s.thread t with rendezvous := none }).setRun t

/-- `Rendezvous::wakeup` (`rendezvous.cpp:56-96`) behind the delegate, from the first thread to the
    last. -/
def wakeup (s : Core T M) (r : Rendezvous T M) : Core T M :=
  (s.queue r).foldl (fun s t => s.wake r t) s

/-- `Rendezvous::remove` (`rendezvous.cpp:98-109`). -/
def remove (s : Core T M) (r : Rendezvous T M) (t : T) : Core T M :=
  if (s.thread t).rendezvous = some r then
    let s := s.setQueue r ((s.queue r).erase t)
    s.put t { s.thread t with rendezvous := none }
  else s

/-- `Rendezvous::update` (`rendezvous.cpp:111-127`). -/
def update (s : Core T M) (r : Rendezvous T M) (t : T) (effective : Nat) : Core T M :=
  if (s.thread t).rendezvous = some r then
    let queue := (s.queue r).erase t
    let s := s.put t { s.thread t with priority := effective }
    s.setQueue r (addPrio (fun u => (s.thread u).priority) t queue)
  else s.put t { s.thread t with priority := effective }

/-- `Rendezvous::getPriority` (`rendezvous.cpp:129-134`). -/
def getPriority (s : Core T M) (r : Rendezvous T M) : Nat :=
  match s.queue r with
  | [] => lowest
  | blocked :: _ => (s.thread blocked).priority

/-! ## Priorities -/

/-- `Thread::setEffectivePriority` (`thread.cpp:101-130`). A thread that waits has a rendezvous. -/
def setEffectivePriority (s : Core T M) (t : T) (effective : Nat) : Core T M × Option T :=
  match (s.thread t).state with
  | .runnable =>
    let s := s.unsetRun t
    ((s.put t { s.thread t with priority := effective }).setRun t, none)
  | .waiting =>
    let owner := (s.thread t).monitor.bind fun m => (s.monitor m).owner
    match (s.thread t).rendezvous with
    | some r => (s.update r t effective, owner)
    | none => (s, owner)
  | .running =>
    ({ s.put t { s.thread t with priority := effective } with runQueueHint := true }, none)
  | _ => (s, none)

/-- The base priority and those of the monitors that are held (`thread.cpp:139-154`). -/
def effective (s : Core T M) (t : T) : Nat :=
  (s.thread t).monitorList.foldl (fun effective m => max effective (s.getPriority (.lock m)))
    (s.thread t).base

/-- `Thread::resetPriority` (`thread.cpp:135-168`). -/
def resetPriority (s : Core T M) (t : T) : Core T M × Option T :=
  if (s.thread t).priority ≠ s.effective t then s.setEffectivePriority t (s.effective t)
  else (s, none)

/-- `Thread::updatePriority` (`thread.cpp:172-184`), in so many turns. -/
def updatePriority : Nat → Core T M → T → Option (Core T M)
  | 0, _, _ => none
  | fuel + 1, s, t =>
    match s.resetPriority t with
    | (s, some next) => updatePriority fuel s next
    | (s, none) => some s

/-! ## Monitors -/

/-- `Monitor::update` (`monitor.cpp:45-62`). -/
def updateMonitor (fuel : Nat) (s : Core T M) (m : M) : Option (Core T M) :=
  match (s.monitor m).owner with
  | some t => updatePriority fuel s t
  | none => some s

/-- A monitor that is free is taken (`monitor.cpp:72-79`). -/
def take (s : Core T M) (t : T) (m : M) : Core T M :=
  let s := s.putMonitor m ⟨some t, (s.monitor m).lockCount + 1⟩
  s.put t { s.thread t with monitorList := (s.thread t).monitorList ++ [m] }

/-- The owner of a monitor takes over the priority of a thread that is to wait for it, and so do those
    that it waits for itself (`monitor.cpp:98-139`). The lock of the owner is free. -/
def lend (fuel : Nat) (s : Core T M) (owner current : T) (m : M) : Option (Core T M) :=
  let effective := max (s.getPriority (.lock m)) (s.thread current).priority
  let (s, next) :=
    if (s.thread owner).priority < effective then s.setEffectivePriority owner effective
    else (s, none)
  let s := s.put current { s.thread current with monitor := some m }
  match next with
  | some next => updatePriority fuel s next
  | none => some s

/-- `Monitor::condLock` (`monitor.cpp:64-141`). -/
def condLock (fuel : Nat) (s : Core T M) (current : T) (m : M) : Option (Core T M × Bool) :=
  let s := s.put current { s.thread current with monitor := none }
  match (s.monitor m).owner with
  | none => some (s.take current m, true)
  | some owner =>
    if owner = current then
      some (s.putMonitor m ⟨some owner, (s.monitor m).lockCount + 1⟩, true)
    else (lend fuel s owner current m).map fun s => (s, false)

/-- A turn of `Rendezvous::sleep` in `Monitor::lock` (`monitor.cpp:143-148`); behind it `Monitor::wait`
    sets the lock count (`monitor.cpp:284-285`). -/
def lockTurn (fuel : Nat) (s : Core T M) (current : T) (m : M) (realCount : Option Nat) :
    Option (Core T M) := do
  let (s, locked) ← condLock fuel s current m
  if locked then
    let s := s.put current { s.thread current with call := .returns }
    match realCount with
    | some count => some (s.putMonitor m { s.monitor m with lockCount := count })
    | none => some s
  else some (s.enqueue (.lock m) current (.lock m realCount))

/-- `Monitor::tryLock` with `condTryLock` (`monitor.cpp:150-184`). -/
def tryLock (s : Core T M) (current : T) (m : M) : Core T M :=
  match (s.monitor m).owner with
  | none => s.take current m
  | some owner =>
    if owner = current then s.putMonitor m ⟨some owner, (s.monitor m).lockCount + 1⟩ else s

/-- The monitor leaves its owner. -/
def free (s : Core T M) (t : T) (m : M) : Core T M :=
  let s := s.putMonitor m ⟨none, 0⟩
  s.put t { s.thread t with monitorList := (s.thread t).monitorList.erase m }

/-- `Monitor::condUnlock` (`monitor.cpp:186-228`). -/
def condUnlock (fuel : Nat) (s : Core T M) (m : M) : Option (Core T M × Bool) :=
  match (s.monitor m).owner with
  | none => some (s, false)
  | some owner =>
    if (s.thread owner).state = .terminated then some (s.free owner m, true)
    else if s.current = some owner then
      if 1 < (s.monitor m).lockCount then
        some (s.putMonitor m ⟨some owner, (s.monitor m).lockCount - 1⟩, false)
      else (updatePriority fuel (s.free owner m) owner).map fun s => (s, true)
    else some (s, false)

/-- `Monitor::unlock` (`monitor.cpp:230-241`) without the switch of threads. -/
def unlock (fuel : Nat) (s : Core T M) (m : M) : Option (Core T M) := do
  let (s, free) ← condUnlock fuel s m
  some (if free then s.wakeup (.lock m) else s)

/-- `Monitor::condWait` (`monitor.cpp:243-262`). -/
def condWait (s : Core T M) (current : T) (m : M) : Core T M × Bool :=
  if (s.monitor m).owner = some current then
    (((s.free current m).resetPriority current).1.wakeup (.lock m), false)
  else (s, true)

/-- A turn of `Rendezvous::sleep` in `Monitor::wait` (`monitor.cpp:264-291`). -/
def waitTurn (fuel : Nat) (s : Core T M) (current : T) (m : M) (realCount : Nat) :
    Option (Core T M) :=
  match s.condWait current m with
  | (s, true) => lockTurn fuel s current m (some realCount)
  | (s, false) => some (s.enqueue (.cv m) current (.wait m realCount))

/-! ## Threads -/

/-- A turn of `Rendezvous::sleep` in `Thread::join` (`thread.cpp:256-273`). -/
def joinTurn (s : Core T M) (current t : T) : Core T M :=
  if (s.thread t).state = .terminated then
    s.put current { s.thread current with call := .returns }
  else s.enqueue (.joinPoint t) current (.join t)

/-- A turn of `Rendezvous::sleep` in `Thread::sleep` (`thread.cpp:411-434`); `expired` is what
    `condSleep` says. -/
def sleepTurn (s : Core T M) (current : T) (expired : Bool) : Core T M :=
  if expired then s.put current { s.thread current with call := .returns }
  else s.enqueue (.sleepPoint current) current .sleep

/-- The selected thread goes on until it returns from its call or waits again. -/
def resume (fuel : Nat) (s : Core T M) (current : T) (expired : Bool) : Option (Core T M) :=
  match (s.thread current).call with
  | .returns => some s
  | .lock m realCount => lockTurn fuel s current m realCount
  | .wait m realCount => waitTurn fuel s current m realCount
  | .join t => some (s.joinTurn current t)
  | .sleep => some (s.sleepTurn current expired)

/-- `Thread::unlockAllMonitors` (`thread.cpp:189-198`), in so many turns. -/
def unlockAllMonitors : Nat → Core T M → T → Option (Core T M)
  | 0, _, _ => none
  | fuel + 1, s, t =>
    match (s.thread t).monitorList with
    | [] => some s
    | m :: _ => (unlock fuel s m).bind fun s => unlockAllMonitors fuel s t

/-- `Thread::exit` (`thread.cpp:221-254`). -/
def exit (fuel : Nat) (s : Core T M) (current : T) : Option (Core T M) :=
  let s := s.put current { s.thread current with state := .terminated }
  (unlockAllMonitors fuel s current).map fun s => (s.wakeup (.joinPoint current)).reschedule

/-- `Thread::start` (`thread.cpp:404-418`). -/
def start (s : Core T M) (t : T) : Core T M :=
  (if (s.thread t).state = .new then s.setRun t else s).reschedule

/-- `Thread::setPriority` (`thread.cpp:76-93`). -/
def setPriority (fuel : Nat) (s : Core T M) (t : T) (priority : Nat) : Option (Core T M) :=
  if priority < lowest ∨ highest < priority then some s
  else if (s.thread t).base ≠ priority then
    (updatePriority fuel (s.put t { s.thread t with base := priority }) t).map reschedule
  else some s.reschedule

/-- `Thread::cancel` (`thread.cpp:331-362`). -/
def cancel (fuel : Nat) (s : Core T M) (t : T) : Option (Core T M) :=
  let s := s.put t { s.thread t with cancelRequested := true }
  match (s.thread t).state, (s.thread t).rendezvous with
  | .waiting, some r =>
    let s := (s.remove r t).setRun t
    match (s.thread t).monitor with
    | some m => (updateMonitor fuel s m).map fun s => s.put t { s.thread t with monitor := none }
    | none => some s
  | _, _ => some s

/-! ## Runs -/

/-- A thread is selected, the current thread calls a routine, or an interrupt wakes a rendezvous up.
    `expired` is what `condSleep` says if it is asked. -/
inductive Event (T M : Type*) where
  | select (expired : Bool)
  | start (t : T)
  | setPriority (t : T) (priority : Nat)
  | lock (m : M)
  | tryLock (m : M)
  | unlock (m : M)
  | wait (m : M)
  | notify (m : M)
  | join (t : T)
  | sleep (expired : Bool)
  | cancel (t : T)
  | testCancel
  | exit
  | yield
  | interrupt (r : Rendezvous T M)

/-- What the current thread calls. -/
def routine (fuel : Nat) (s : Core T M) (current : T) : Event T M → Option (Core T M)
  | .select _ => none
  | .start t => some (s.start t)
  | .setPriority t priority => setPriority fuel s t priority
  | .lock m => lockTurn fuel s current m none
  | .tryLock m => some (s.tryLock current m)
  | .unlock m => (unlock fuel s m).map reschedule
  | .wait m =>
    if (s.monitor m).owner = some current then
      waitTurn fuel s current m (s.monitor m).lockCount
    else some s
  | .notify m => some (s.wakeup (.cv m)).reschedule
  | .join t => some (s.joinTurn current t)
  | .sleep expired => some (s.sleepTurn current expired)
  | .cancel t => cancel fuel s t
  | .testCancel => if (s.thread current).cancelRequested then exit fuel s current else some s
  | .exit => exit fuel s current
  | .yield => some s.reschedule
  | .interrupt _ => none

/-- One step. The interrupt of an alarm wakes a sleeper or notifies a monitor up (`thread.cpp:404-409`,
    `monitor.cpp:293-298`); behind it the current thread may be put back (`pc_core.cpp:924-939`). -/
def step (fuel : Nat) (s : Core T M) (event : Event T M) : Option (Core T M) :=
  match event, s.current with
  | .select expired, none => s.selectThread.bind fun (t, s) => resume fuel s t expired
  | .interrupt (.sleepPoint t), _ => some (s.wakeup (.sleepPoint t)).reschedule
  | .interrupt (.cv m), _ => some (s.wakeup (.cv m)).reschedule
  | event, some current => routine fuel s current event
  | _, none => none

/-- The first thread runs, and the others are new, each with a priority. -/
def started (boot : T) (priority : T → Fin 31) : Core T M where
  thread t :=
    ⟨if t = boot then .running else .new, lowest + priority t, lowest + priority t, false, none, none,
      [], .returns⟩
  monitor _ := ⟨none, 0⟩
  queue _ := []
  runQueue _ := []
  runQueueBits := 0
  runQueueHint := false
  current := some boot

/-- The runs of the kernel. -/
def system (T M : Type*) [DecidableEq T] [DecidableEq M] : System (Core T M) (Event T M) where
  init s := ∃ boot priority, s = started boot priority
  step s event s' := ∃ fuel, step fuel s event = some s'

end Core

end EsOs.Kernel
