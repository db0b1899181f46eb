import EsOs.Lib.System
import EsOs.Net.Dhcp

/-!
# The life of a DHCP lease

`DHCPControl::run` from its first DHCPREQUEST on (`os/net/src/dhcp.cpp:587-781`), between the calls of
`read`. A time is a number of ticks, and no time passes outside `read`. Beside the variables of `run`
a state has the requests that were sent, and the last answer that has arrived with the request it
answers; the run does not use them.
-/

namespace EsOs.Net.DHCPControl

open EsOs.Lib

def TICKS_PER_SECOND : Int := 10000000

/-- `TimeSpan(0, 0, seconds)` (`timeSpan.h:70-78`), which takes an `int`. -/
def span (seconds : Nat) : Int := Int.bmod seconds 0x100000000 * TICKS_PER_SECOND

/-- `MinWait`, `MaxRxmit` -/
def minWait : Nat := 4
def maxRxmit : Nat := 4

/-- The calls of `read` of `run`, and its end. -/
inductive Phase
  /-- For the answer to a DHCPREQUEST (`dhcp.cpp:597`), which has been sent so often. -/
  | requesting (rxmitCount : Nat)
  /-- For the address to be settled (`dhcp.cpp:629`). -/
  | settling (till : Int)
  /-- For the time of renewal (`dhcp.cpp:682`). -/
  | bound
  /-- For an answer to a request of Renewing (`dhcp.cpp:699`). -/
  | renewing
  /-- For the time of rebinding (`dhcp.cpp:720`). -/
  | expecting
  /-- For an answer to a request of Rebinding (`dhcp.cpp:737`). -/
  | rebinding
  /-- Behind the release of the address (`dhcp.cpp:765`). -/
  | releasing (till : Int)
  | stopped
deriving DecidableEq, Repr

/-- An answer and when the request that it answers was sent. -/
structure Answer where
  info : DHCPInfo
  answered : Int
deriving DecidableEq, Repr

structure Client where
  phase : Phase
  /-- When `read` is called, and its timeout. -/
  clock : Int
  timeout : Int
  now : Int
  epoch : Int
  info : DHCPInfo
  requests : List Int
  broadcasts : List Int
  acked : Option Answer
  naked : Bool
deriving DecidableEq, Repr

/-- What `read` brings and `reply` makes of it. An acknowledgement says what the options are, and which
    request it answers. -/
inductive Reply
  | nothing
  | offer
  | ack (info : DHCPInfo) (answered : Int)
  | nak

/-- A call of `read` returns, or `stop` is called. -/
inductive Event
  | read (time : Int) (reply : Reply)
  | stop

namespace Client

/-- `read` is called with a timeout. -/
def reads (s : Client) (phase : Phase) (timeout : Int) : Client :=
  { s with phase := phase, timeout := timeout }

/-- The address is removed. -/
def stops (s : Client) : Client := { s with phase := .stopped }

/-- The release of the address (`dhcp.cpp:759-766`). -/
def release (s : Client) : Client :=
  s.reads (.releasing (s.clock + TICKS_PER_SECOND)) TICKS_PER_SECOND

/-- The loop of Rebinding (`dhcp.cpp:725-756`), whose bound is the time of rebinding. -/
def rebind (s : Client) : Client :=
  let s := { s with now := s.clock }
  if s.now < s.epoch + span s.info.rebinding then
    let s := { s with
      requests := s.requests ++ [s.now]
      broadcasts := s.broadcasts ++ [s.now] }
    let wait := (s.epoch + span s.info.lease - s.now).tdiv 2
    if wait < 60 * TICKS_PER_SECOND then s.release else s.reads .rebinding wait
  else s.release

/-- The wait for the time of rebinding (`dhcp.cpp:719-723`). -/
def expect (s : Client) : Client :=
  let till := s.epoch + span s.info.rebinding
  if s.clock < till then s.reads .expecting (till - s.clock) else s.rebind

/-- The loop of Renewing (`dhcp.cpp:687-705`). -/
def renew (s : Client) : Client :=
  let s := { s with now := s.clock }
  if s.now < s.epoch + span s.info.rebinding then
    let s := { s with requests := s.requests ++ [s.now] }
    let wait := (s.epoch + span s.info.rebinding - s.now).tdiv 2
    if wait < 60 * TICKS_PER_SECOND then s.expect else s.reads .renewing wait
  else s.expect

/-- The head of the outer loop (`dhcp.cpp:678-685`). -/
def bind (s : Client) : Client :=
  let s := { s with epoch := s.now }
  let till := s.epoch + span s.info.renewal
  if s.clock < till then s.reads .bound (till - s.clock) else s.renew

/-- `sleep` goes on to wait until `till`, or returns. -/
def sleeps (s : Client) (till : Int) (behind : Client → Client) : Client :=
  if s.clock < till then { s with timeout := till - s.clock } else behind s

/-- The answer that has arrived last. -/
def hears (s : Client) : Reply → Client
  | .ack info answered =>
    { s with acked := some ⟨timers info, answered⟩, naked := false, broadcasts := [] }
  | .nak => { s with naked := true }
  | _ => s

/-- `run` goes on behind `read`. -/
def resume (s : Client) (reply : Reply) : Client :=
  match s.phase with
  | .requesting count =>
    match reply with
    | .offer => s
    | .ack info _ =>
      if info.lease = 0 then s.stops
      else { s with info := timers info }.reads (.settling (s.clock + 9 * TICKS_PER_SECOND))
        (9 * TICKS_PER_SECOND)
    | .nak => s.stops
    | .nothing =>
      if count + 1 < maxRxmit then
        { s with requests := s.requests ++ [s.clock] }.reads (.requesting (count + 1))
          (minWait <<< (count + 1) * TICKS_PER_SECOND)
      else s.stops
  | .settling till => s.sleeps till bind
  | .bound => s.sleeps (s.epoch + span s.info.renewal) renew
  | .renewing =>
    match reply with
    | .ack _ _ => s.bind
    | .nak => s.stops
    | _ => s.renew
  | .expecting => s.sleeps (s.epoch + span s.info.rebinding) rebind
  | .rebinding =>
    match reply with
    | .ack _ _ => s.bind
    | .nak => s.stops
    | _ => s.rebind
  | .releasing till => s.sleeps till stops
  | .stopped => s

/-- `read` returns before its timeout is over, and an acknowledgement answers a request; a lease is a
    `u32`. -/
def Returns (s : Client) (time : Int) (reply : Reply) : Prop :=
  s.phase ≠ .stopped ∧ s.clock ≤ time ∧ time ≤ s.clock + s.timeout ∧
    match reply with
    | .ack info answered => answered ∈ s.requests ∧ info.lease < 0x100000000
    | _ => True

instance (s : Client) (time : Int) (reply : Reply) : Decidable (s.Returns time reply) := by
  unfold Returns
  cases reply <;> infer_instance

/-- One event. -/
def step (s : Client) : Event → Option Client
  | .read time reply =>
    if s.Returns time reply then some (({ s with clock := time }.hears reply).resume reply) else none
  | .stop => some s.stops

/-- The first request has been sent (`dhcp.cpp:588-595`). -/
def start (now : Int) (info : DHCPInfo) : Client :=
  ⟨.requesting 0, now, minWait * TICKS_PER_SECOND, now, now, info, [now], [], none, false⟩

/-- The runs of the client. -/
def system : System Client Event :=
  .ofStep (fun s => ∃ now info, s = start now info) step

/-! ## What a lease asks for -/

/-- The client uses the address. -/
def Uses (s : Client) : Prop :=
  match s.phase with
  | .requesting _ => False
  | .stopped => False
  | _ => True

instance (s : Client) : Decidable s.Uses := by
  unfold Uses
  cases s.phase <;> infer_instance

/-- From when on the timers count. -/
def base (s : Client) : Int :=
  match s.phase with
  | .settling _ => s.now
  | _ => s.epoch

/-- The timers are those of the last acknowledgement; Rebinding begins at its time, and a client that
    gives up has sent a broadcast by then, before the lease ends; and the address is not used after the
    end of the lease, nor after a refusal. -/
structure KeepsLease (s : Client) : Prop where
  timers : s.Uses → ∃ a, s.acked = some a ∧ s.info.renewal = a.info.renewal ∧
    s.info.rebinding = a.info.rebinding ∧ s.info.lease = a.info.lease ∧ s.base = a.answered
  expects : s.phase = .expecting → ∀ a, s.acked = some a →
    s.clock + s.timeout = a.answered + a.info.rebinding * TICKS_PER_SECOND
  rebinds : ∀ till, s.phase = .releasing till → ∀ a, s.acked = some a → ∃ b ∈ s.broadcasts,
    a.answered + a.info.rebinding * TICKS_PER_SECOND ≤ b ∧
      b < a.answered + a.info.lease * TICKS_PER_SECOND
  ends : s.Uses → ∀ a, s.acked = some a →
    s.clock + s.timeout ≤ a.answered + a.info.lease * TICKS_PER_SECOND
  refusal : s.naked → ¬ s.Uses

/-- Renewing, when it begins by this time, begins before the time of rebinding. -/
def RenewsInTime (s : Client) (epoch time : Int) : Prop :=
  epoch + span s.info.renewal ≤ time → time < epoch + span s.info.rebinding

instance (s : Client) (epoch time : Int) : Decidable (s.RenewsInTime epoch time) := by
  unfold RenewsInTime
  infer_instance

/-- Nothing has come that is for the client. -/
def Quiet : Reply → Prop
  | .nothing => True
  | .offer => True
  | _ => False

instance (reply : Reply) : Decidable (Quiet reply) := by
  unfold Quiet
  cases reply <;> infer_instance

/-- The events that the client is made for. The first acknowledgement answers the first request, and
    its lease lasts until the address is settled. The acknowledgement that renews the lease answers the
    last request and repeats the times. An answer comes while it is waited for, and before the time of
    rebinding. -/
def Expected (s : Client) : Event → Prop
  | .stop => True
  | .read time reply =>
    match s.phase, reply with
    | .requesting _, .ack info answered => info.lease = 0 ∨
      answered = s.now ∧ time + 9 * TICKS_PER_SECOND ≤ answered + info.lease * TICKS_PER_SECOND
    | .settling till, reply => Quiet reply ∧ (till ≤ time → s.RenewsInTime s.now time)
    | .bound, reply => Quiet reply ∧ s.RenewsInTime s.epoch time
    | .renewing, .ack info answered =>
      answered = s.now ∧ (timers info).renewal = s.info.renewal ∧
        (timers info).rebinding = s.info.rebinding ∧ info.lease = s.info.lease ∧
        s.RenewsInTime s.now time
    | .renewing, .nak => True
    | .renewing, _ => time < s.epoch + span s.info.rebinding
    | .expecting, reply => Quiet reply ∧ time < s.epoch + span s.info.rebinding
    | _, _ => True

instance (s : Client) (event : Event) : Decidable (s.Expected event) := by
  unfold Expected
  split <;> [infer_instance; split <;> infer_instance]

end Client

end EsOs.Net.DHCPControl
