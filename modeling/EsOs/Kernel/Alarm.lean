import Mathlib.Logic.Function.Basic
import EsOs.Lib.System

/-!
# Alarms

The alarms of `os/kernel/port/alarm.cpp` and the two queues that they wait in. What runs under the
lock is one step: a call that changes an alarm, or the turn of `Queue::process` that takes the first
alarm out of its queue. A call reads the clock where the source does; ticks are `long long` without
their overflow.
-/

namespace EsOs.Kernel

/-- `queues[0]` of the alarms with a start time and `queues[1]` of those without
    (`alarm.h:56`). -/
inductive AlarmQueue where
  | absolute
  | relative
deriving DecidableEq, Repr

/-- The fields of `Alarm` (`alarm.h:48-53`) after its constructor (`alarm.cpp:29-38`). -/
structure Alarm where
  enabled : Bool := true
  periodic : Bool := false
  interval : Int := 0
  start : Int := 0
  nextTick : Int := 0
  current : Option AlarmQueue := none
deriving DecidableEq, Repr

/-- The alarms, the queues, and the last reading of the clock. -/
structure AlarmState (Id : Type*) where
  alarms : Id → Alarm
  queues : AlarmQueue → List Id
  clock : Int

namespace Alarm

/-- `Alarm::isExpired` (`alarm.cpp:69-73`). -/
def isExpired (a : Alarm) (now : Int) : Bool :=
  !(now - a.nextTick < 0)

/-- The next tick that `Queue::add` begins with (`alarm.cpp:309-322`). -/
def epoch (a : Alarm) (now : Int) : Int :=
  if a.start ≤ 0 then if a.nextTick = 0 then now + a.interval else a.nextTick
  else a.start + a.interval

/-- `Calculate the next expiration tick` (`alarm.cpp:307-330`). -/
def expiration (a : Alarm) (now : Int) : Int :=
  let nextTick := a.epoch now
  if a.periodic ∧ 0 ≤ now - nextTick then
    nextTick + a.interval * ((now - nextTick) / a.interval + 1)
  else nextTick

end Alarm

namespace AlarmState

variable {Id : Type*} [DecidableEq Id]

/-- An alarm takes new values. -/
def put (s : AlarmState Id) (a : Id) (v : Alarm) : AlarmState Id :=
  { s with alarms := Function.update s.alarms a v }

/-- Another list in a queue. -/
def setQueue (s : AlarmState Id) (q : AlarmQueue) (l : List Id) : AlarmState Id :=
  { s with queues := Function.update s.queues q l }

/-- The loop of `Queue::add` over the queue (`alarm.cpp:332-342`): an alarm is put before the first
    one that is later. -/
def insert (nextTick : Id → Int) (a : Id) : List Id → List Id
  | [] => [a]
  | next :: l =>
    if nextTick next ≤ nextTick a then next :: insert nextTick a l else a :: next :: l

/-- `Queue::add` (`alarm.cpp:294-348`). -/
def add (s : AlarmState Id) (q : AlarmQueue) (a : Id) (now : Int) : AlarmState Id :=
  let alarm := s.alarms a
  if !alarm.enabled ∨ alarm.interval ≤ 0 then s
  else
    let s := s.put a { alarm with current := some q, nextTick := alarm.expiration now }
    s.setQueue q (insert (fun b => (s.alarms b).nextTick) a (s.queues q))

/-- `Alarm::set` (`alarm.cpp:202-216`). -/
def set (s : AlarmState Id) (a : Id) (now : Int) : AlarmState Id :=
  if 0 < (s.alarms a).start then s.add .absolute a now else s.add .relative a now

/-- `Alarm::cancel` (`alarm.cpp:157-166`). -/
def cancel (s : AlarmState Id) (a : Id) : AlarmState Id :=
  let alarm := s.alarms a
  let s := match alarm.current with
    | some q => s.setQueue q ((s.queues q).erase a)
    | none => s
  s.put a { alarm with current := none, nextTick := 0 }

/-- `Alarm::setPeriodic` (`alarm.cpp:96-102`). -/
def setPeriodic (s : AlarmState Id) (a : Id) (periodic : Bool) : AlarmState Id :=
  s.put a { s.alarms a with periodic := periodic }

/-- `Alarm::setEnabled` (`alarm.cpp:104-121`). -/
def setEnabled (s : AlarmState Id) (a : Id) (enabled : Bool) (now : Int) : AlarmState Id :=
  if enabled then
    let s := s.cancel a
    (s.put a { s.alarms a with enabled := true }).set a now
  else (s.put a { s.alarms a with enabled := false }).cancel a

/-- `Alarm::setInterval` (`alarm.cpp:128-139`). -/
def setInterval (s : AlarmState Id) (a : Id) (interval now : Int) : AlarmState Id :=
  if 0 ≤ interval then
    let s := s.cancel a
    (s.put a { s.alarms a with interval := interval }).set a now
  else s

/-- `Alarm::setStartTime` (`alarm.cpp:147-155`). -/
def setStartTime (s : AlarmState Id) (a : Id) (time now : Int) : AlarmState Id :=
  let s := s.cancel a
  (s.put a { s.alarms a with start := time }).set a now

/-- What `Queue::process` does under the lock in a turn of its loop (`alarm.cpp:256-278`): the first
    alarm of the queue, if it is expired, and the state once it is taken out. -/
def take (s : AlarmState Id) (q : AlarmQueue) (ticks now : Int) : Option (Id × AlarmState Id) :=
  match s.queues q with
  | [] => none
  | a :: l =>
    let alarm := s.alarms a
    if !alarm.isExpired ticks then none
    else
      let s := (s.setQueue q l).put a { alarm with current := none }
      some (a, if alarm.periodic ∧ 0 < alarm.interval then s.add q a now
        else s.put a { s.alarms a with nextTick := 0 })

end AlarmState

/-- The steps on the alarms. Each of them comes with the reading of the clock that it takes. -/
inductive AlarmCall (Id : Type*) where
  | setPeriodic (a : Id) (periodic : Bool)
  | setEnabled (a : Id) (enabled : Bool)
  | setInterval (a : Id) (interval : Int)
  | setStartTime (a : Id) (time : Int)
  /-- A turn of the loop of `Queue::process(ticks)` for a queue. -/
  | take (q : AlarmQueue) (ticks : Int)

namespace AlarmState

variable {Id : Type*} [DecidableEq Id]

/-- The state after a step at `now`, and the alarm that it is about. A turn of the loop of `process`
    has been given a reading of the clock. -/
def step (s : AlarmState Id) (now : Int) : AlarmCall Id → Option (Id × AlarmState Id)
  | .setPeriodic a periodic => some (a, s.setPeriodic a periodic)
  | .setEnabled a enabled => some (a, s.setEnabled a enabled now)
  | .setInterval a interval => some (a, s.setInterval a interval now)
  | .setStartTime a time => some (a, s.setStartTime a time now)
  | .take q ticks => if ticks ≤ now then s.take q ticks now else none

/-- Steps one after the other, with a clock that does not go back and the alarms that they are
    about. -/
inductive Calls : AlarmState Id → List Id → AlarmState Id → Prop
  | nil {s : AlarmState Id} : Calls s [] s
  | cons {s s₁ s₂ : AlarmState Id} {now : Int} {call : AlarmCall Id} {a : Id} {as : List Id} :
      s.clock ≤ now → s.step now call = some (a, s₁) → Calls { s₁ with clock := now } as s₂ →
      Calls s (a :: as) s₂

/-- A run of `Queue::process(ticks)` (`alarm.cpp:249-292`), with the alarms that it fires, each with
    the reading of the clock at which it is taken out and the alarms that the calls after it are
    about: those that its callback makes, calls of `process` among them, and those of others that
    get the lock before the next turn. -/
inductive Process (q : AlarmQueue) (ticks : Int) :
    AlarmState Id → List (Id × Int × List Id) → AlarmState Id → Prop
  | done {s : AlarmState Id} {now : Int} :
      s.take q ticks now = none → Process q ticks s [] s
  | fire {s s₁ s₂ s₃ : AlarmState Id} {now : Int} {a : Id} {as : List Id}
      {fired : List (Id × Int × List Id)} :
      s.clock ≤ now → s.take q ticks now = some (a, s₁) →
      Calls { s₁ with clock := now } as s₂ → Process q ticks s₂ fired s₃ →
      Process q ticks s ((a, now, as) :: fired) s₃

/-- New alarms. -/
def Fresh (s : AlarmState Id) : Prop :=
  (∀ a, s.alarms a = {}) ∧ (∀ q, s.queues q = []) ∧ 0 ≤ s.clock

/-- The alarms with the calls on them at readings of the clock. -/
def system : EsOs.Lib.System (AlarmState Id) (Int × AlarmCall Id) where
  init := Fresh
  step s l s' := s.clock ≤ l.1 ∧ ∃ a s₁, s.step l.1 l.2 = some (a, s₁) ∧
    s' = { s₁ with clock := l.1 }

end AlarmState

end EsOs.Kernel
