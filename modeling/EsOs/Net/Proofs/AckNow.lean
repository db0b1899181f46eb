import EsOs.Net.Congestion
import EsOs.Net.Proofs.Close
import EsOs.Net.Proofs.Congestion
import EsOs.Net.Proofs.SendFrame
import EsOs.Net.Proofs.TrimRange

/-! # Which segments are acknowledged at once

`trim` asks for an acknowledgement only when it reports that nothing is left. A segment that ends
right before `recvNext`, and one that brings `recvNext` to a closed window, leave it accepted. -/

namespace EsOs.Net

namespace StreamReceiver

variable {s : StreamReceiver} {g : Segment} {flag : Flags}

/-! ## An output that is asked for -/

/-- A connection that nobody reads: its ring is full and its window closed. -/
def unread : StreamReceiver := { expecting 0 with recvRing := ⟨fun _ => 0, 100, 0, 100⟩ }

end StreamReceiver

end EsOs.Net

/-! # No round trip is ever timed

`raiseSendMax` takes the time of a new segment only while `rttTiming` is not zero, and nothing else
makes it different from zero. -/

namespace EsOs.Net

open EsOs.Lib StreamReceiver

variable {s t : StreamReceiver}

/-- Nothing is being measured, and the estimator is that of a new connection. -/
structure Untimed (s : StreamReceiver) : Prop where
  timing : s.rttTiming = 0
  srtt : s.srtt = 0
  rttDe : s.rttDe = 7500000

theorem Untimed.same (h : Untimed s) (hsame : t.congestion = s.congestion) : Untimed t :=
  ⟨(congrArg Congestion.rttTiming hsame).trans h.timing,
    (congrArg Congestion.srtt hsame).trans h.srtt, (congrArg Congestion.rttDe hsame).trans h.rttDe⟩

/-- Every sample changes such an estimator. -/
theorem Untimed.sample (h : Untimed s) (rtt : Int) : (s.updateRto rtt).estimator ≠ s.estimator := by
  intro hsame
  unfold updateRto estimator at hsame
  rw [h.srtt, h.rttDe] at hsame
  simp only [ne_eq, not_true_eq_false, if_false, Prod.mk.injEq] at hsame
  obtain ⟨hrtt, hdev⟩ := hsame
  rw [hrtt] at hdev
  exact absurd hdev (by decide)

/-! ## Arriving segments -/

theorem Untimed.updateScoreboard (h : Untimed s) (ack : TCPSeq) (blocks : List (TCPSeq × TCPSeq)) :
    Untimed (s.updateScoreboard ack blocks) := by
  have hblock : ∀ {t : StreamReceiver} (start fin : TCPSeq), Untimed t →
      Untimed (t.updateBlock ack start fin) := by
    intro t start fin ht
    unfold updateBlock
    simp only
    repeat' split
    all_goals exact ⟨ht.timing, ht.srtt, ht.rttDe⟩
  have hblocks : ∀ t, Untimed t →
      Untimed (blocks.foldl (fun s b => s.updateBlock ack b.1 b.2) t) := by
    induction blocks with
    | nil => exact fun t ht => ht
    | cons b blocks ih => exact fun t ht => ih _ (hblock b.1 b.2 ht)
  have hall := hblocks s h
  unfold StreamReceiver.updateScoreboard
  split
  · exact h
  · exact ⟨hall.timing, hall.srtt, hall.rttDe⟩

theorem Untimed.option (h : Untimed s) (hdr : TCPHdr) : Untimed (s.option hdr).2 := by
  have hloop : Untimed (optionLoop hdr (hdr.hdrSize + 1) (hdr.hdrSize - 20) hdr.opt s.getDefaultMSS
      s).2.2 :=
    optionLoop_keeps (P := Untimed) (fun t ht => ⟨ht.timing, ht.srtt, ht.rttDe⟩)
      (fun t ack blocks ht => ht.updateScoreboard ack blocks) hdr _ _ _ _ h
  unfold StreamReceiver.option
  simp only
  repeat' split
  all_goals exact ⟨hloop.timing, hloop.srtt, hloop.rttDe⟩

theorem Untimed.openWindow (h : Untimed s) (ack : TCPSeq) : Untimed (s.openWindow ack) := by
  unfold StreamReceiver.openWindow
  simp only
  repeat' split
  all_goals exact ⟨h.timing, h.srtt, h.rttDe⟩

theorem Untimed.newAck (h : Untimed s) (ack : TCPSeq) : Untimed (s.newAck ack) := by
  unfold StreamReceiver.newAck
  simp only
  repeat' split
  all_goals
    first
      | exact ⟨rfl, h.srtt, h.rttDe⟩
      | refine Untimed.openWindow ?_ ack
        first
          | exact ⟨rfl, h.srtt, h.rttDe⟩
          | exact ⟨h.timing, h.srtt, h.rttDe⟩

theorem Untimed.ack (h : Untimed s) (seq n : TCPSeq) (win sent len : Int) :
    Untimed (s.ack seq n win sent len).2 := by
  by_cases hnew : seqLe n s.sendUna
  · unfold StreamReceiver.ack
    rw [if_pos hnew]
    split
    · exact ⟨h.timing, h.srtt, h.rttDe⟩
    split
    · exact h
    unfold duplicateAck
    simp only
    repeat' split
    all_goals
      first
        | exact ⟨rfl, h.srtt, h.rttDe⟩
        | exact ⟨h.timing, h.srtt, h.rttDe⟩
  · refine ack_new_keeps (P := Untimed) hnew (h.newAck n) (fun hu => ?_)
      (fun _ hu => ⟨hu.timing, hu.srtt, hu.rttDe⟩) (fun _ htiming hu => absurd hu.timing htiming)
      (fun hu => ?_) (fun hu => ?_) sent len
    · unfold advanceUna
      simp only
      split <;> exact ⟨hu.timing, hu.srtt, hu.rttDe⟩
    · unfold updateSendWin
      split <;> exact ⟨hu.timing, hu.srtt, hu.rttDe⟩
    · unfold checkPersist
      simp only
      repeat' split
      all_goals exact ⟨hu.timing, hu.srtt, hu.rttDe⟩

theorem Untimed.answered (h : Untimed s) (hdr : TCPHdr) : Untimed (s.answered hdr) := by
  have hnone : ¬ (s.rttTiming ≠ 0 ∧ seqLt s.rttSeq hdr.ack) := fun hc => hc.1 h.timing
  unfold StreamReceiver.answered
  split
  · simp only
    have hmoved : Untimed { s with
        sendUna := s.sendUna + 1
        sendNext := if seqLt s.sendNext (s.sendUna + 1) then s.sendUna + 1 else s.sendNext } :=
      ⟨h.timing, h.srtt, h.rttDe⟩
    have hset := hmoved.same (setState_congestion _ .established)
    exact ⟨hset.timing, hset.srtt, hset.rttDe⟩
  · have hset := h.same (setState_congestion s .synReceived)
    exact ⟨hset.timing, hset.srtt, hset.rttDe⟩

theorem Untimed.synAcked (h : Untimed s) (hdr : TCPHdr) (g : Segment) :
    Untimed (s.synAcked hdr g).2 := by
  unfold StreamReceiver.synAcked
  simp only
  split
  · have hset := h.same (setState_congestion s (if s.shutwr then .finWait1 else .established))
    exact ⟨hset.timing, hset.srtt, hset.rttDe⟩
  · exact h

theorem Untimed.input (h : Untimed s) (hdr : TCPHdr) (m : List UInt8) :
    Untimed (s.input hdr m).2 :=
  input_keeps (P := Untimed) (fun hsame hs => hs.same hsame) (fun hs => hs.option hdr)
    (fun _ _ _ _ hs => hs.ack _ _ _ _ _) (fun hs => hs.answered hdr) (fun g hs => hs.synAcked hdr g) h

/-! ## The other steps -/

theorem Untimed.output (h : Untimed s) (stack : Flags) (oob : Bool) :
    Untimed (s.output stack oob).2 := by
  have hsame := output_output s stack oob
  exact ⟨hsame.timing h.timing, hsame.srtt.trans h.srtt, hsame.rttDe.trans h.rttDe⟩

theorem Untimed.expired (h : Untimed s) : Untimed s.expired.2 := by
  have hcount : Untimed (countTimeout { s with rxmitTimer := none }) :=
    ⟨h.timing, h.srtt, h.rttDe⟩
  unfold StreamReceiver.expired
  simp only
  split
  · exact ⟨h.timing, h.srtt, h.rttDe⟩
  split
  · exact h.same (abort_congestion { s with rxmitTimer := none })
  generalize countTimeout { s with rxmitTimer := none } = t at hcount ⊢
  split
  · exact hcount.same (abortWith_congestion t _)
  · exact ⟨rfl, hcount.srtt, hcount.rttDe⟩

theorem Untimed.create (socket : Socket) (now : Int) : Untimed (StreamReceiver.create socket now) :=
  ⟨rfl, rfl, rfl⟩

theorem Untimed.child (socket : Socket) (now : Int) (hdr : TCPHdr) (isn : TCPSeq) (mtu : Int) :
    Untimed (StreamReceiver.child socket now hdr isn mtu).2 := by
  unfold StreamReceiver.child
  simp only
  generalize hs : { StreamReceiver.create socket now with
    mss := if socket.ipv4 = true then mtu - 20 - 20 else mtu - 40 - 20
    cWin := 2 * if socket.ipv4 = true then mtu - 20 - 20 else mtu - 40 - 20
    ssThresh := defSsthresh, iss := isn, recvAcked := hdr.seq, irs := hdr.seq
    recvNext := hdr.seq + 1, recvUp := hdr.seq + 1, sendUna := isn, sendNext := isn
    sendMax := isn, sendUp := isn, lastSack := isn, sendFack := isn, sendRecover := isn
    rxmitData := 0, sendAwin := 0 } = s
  have hstart : Untimed s := by
    subst hs
    exact ⟨rfl, rfl, rfl⟩
  have hopt := hstart.option hdr
  split
  · exact hopt.same (setState_congestion _ _)
  · exact hopt.same (abort_congestion _)

theorem Untimed.connect (h : Untimed s) (isn : TCPSeq) (mtu : Int) :
    Untimed (s.connect isn mtu) := by
  unfold StreamReceiver.connect
  split
  · simp only
    refine Untimed.same ?_ (setState_congestion _ _)
    exact ⟨h.timing, rfl, rfl⟩
  · exact h

/-! ## Runs -/

theorem run_untimed {c : Connection} (h : Untimed c.recv) (op : ConnOp) :
    Untimed (c.run op).recv := by
  cases op with
  | input hdr m => exact h.input hdr m
  | output stack oob =>
    have hout := h.output stack oob
    unfold Connection.run Connection.emitted
    simp only
    split
    · exact hout
    · split <;> exact hout
  | expired => exact h.expired
  | delayedAck => exact h.same (delayedAck_congestion _)
  | read size => exact h.same (read_congestion _ _)
  | write data => exact h.same (write_congestion _ _)
  | close => exact h.same (close_congestion _)
  | shutdownOutput => exact h.same (stateClose_congestion { c.recv with shutwr := true })
  | shutdownInput => exact h.same rfl
  | connect isn mtu =>
    unfold Connection.run
    simp only
    split
    · exact h.connect isn mtu
    · exact h
  | error code => exact h.same (error_congestion _ _)
  | tick ticks => exact h.same rfl

theorem untimed_of_init {c : Connection} (hinit : Connection.system.init c) : Untimed c.recv := by
  obtain ⟨⟨socket, now, -, -, hfresh⟩, -⟩ := hinit
  rcases hfresh with hnew | ⟨hdr, isn, mtu, -, -, hnew⟩
  · rw [hnew]
    exact .create socket now
  · rw [hnew]
    exact .child socket now hdr isn mtu

namespace Timing

variable {t t' : Timing}

/-- No sample has been taken of any text. -/
structure Unsampled (t : Timing) : Prop where
  untimed : Untimed t.conn.recv
  flying : ∀ e ∈ t.flying, e.sampled = false
  acked : ∀ e ∈ t.acked, e.sampled = false

theorem run_conn (t : Timing) (op : ConnOp) : (t.run op).conn = t.conn.run op := by
  unfold run
  cases op with
  | connect isn mtu =>
    simp only
    split <;> rfl
  | output stack oob =>
    simp only
    split <;> rfl
  | _ => rfl

theorem transmit_sampled {g : Sent} {flying : List Timed} (h : ∀ e ∈ flying, e.sampled = false) :
    ∀ e ∈ t.transmit g flying, e.sampled = false := by
  have hmap : ∀ e ∈ flying.map (fun e => { e with again := e.again || decide (e.Overlaps g) }),
      e.sampled = false := by
    intro e he
    obtain ⟨old, hold, rfl⟩ := List.mem_map.mp he
    exact h old hold
  intro e he
  unfold transmit at he
  simp only at he
  split at he
  · rcases List.mem_cons.mp he with rfl | hold
    · rfl
    · exact hmap e hold
  · exact hmap e he

theorem run_unsampled (h : t.Unsampled) (op : ConnOp) : (t.run op).Unsampled := by
  have hconn := run_untimed h.untimed op
  have hflying : ∀ e ∈ t.flying.map (t.observe (t.conn.run op)), e.sampled = false := by
    intro e he
    obtain ⟨old, hold, rfl⟩ := List.mem_map.mp he
    have hsame : (t.conn.run op).recv.estimator = t.conn.recv.estimator := by
      unfold estimator
      rw [hconn.srtt, hconn.rttDe, h.untimed.srtt, h.untimed.rttDe]
    simp [observe, hsame, h.flying old hold]
  refine ⟨by rw [run_conn]; exact hconn, ?_, ?_⟩
  · intro e he
    unfold run at he
    cases op with
    | connect isn mtu =>
      simp only at he
      split at he
      · exact absurd he List.not_mem_nil
      · exact h.flying e he
    | output stack oob =>
      simp only at he
      split at he
      · exact transmit_sampled hflying e he
      · exact hflying e he
    | _ => exact hflying e (List.mem_filter.mp he).1
  · intro e he
    unfold run at he
    cases op with
    | connect isn mtu =>
      simp only at he
      split at he
      · exact absurd he List.not_mem_nil
      · exact h.acked e he
    | output stack oob =>
      simp only at he
      split at he <;> exact h.acked e he
    | _ =>
      rcases List.mem_append.mp he with hnew | hold
      · exact hflying e (List.mem_filter.mp hnew).1
      · exact h.acked e hold

theorem unsampled_of_reachable (h : system.Reachable t) : t.Unsampled := by
  refine h.invariant Unsampled ?_ ?_
  · rintro t ⟨hinit, hflying, hacked⟩
    refine ⟨untimed_of_init hinit, ?_, ?_⟩
    · rw [hflying]
      exact fun e he => absurd he List.not_mem_nil
    · rw [hacked]
      exact fun e he => absurd he List.not_mem_nil
  · rintro t op t' hinv - ⟨-, rfl⟩
    exact run_unsampled hinv op

/-- No run takes a sample: the claim that timed text is sampled exactly when it was not sent again
    holds only while all of it was sent again. A sample would have changed the estimator. -/
theorem never_sampled (h : system.Reachable t) :
    (t.Sampled ↔ ∀ e ∈ t.acked, e.again = true) ∧
      (∀ e, e ∈ t.flying ∨ e ∈ t.acked → e.sampled = false) ∧
      ∀ rtt, (t.conn.recv.updateRto rtt).estimator ≠ t.conn.recv.estimator := by
  have hinv := unsampled_of_reachable h
  refine ⟨⟨fun hsampled e he => ?_, fun hagain e he => ?_⟩, ?_, hinv.untimed.sample⟩
  · have hiff := hsampled e he
    rw [hinv.acked e he] at hiff
    simpa using hiff
  · rw [hinv.acked e he, hagain e he]
    simp
  · rintro e (he | he)
    · exact hinv.flying e he
    · exact hinv.acked e he

theorem reachable_run (h : system.Reachable t) (op : ConnOp)
    (hmtu : ∀ isn mtu, op = .connect isn mtu → 68 ≤ mtu) : system.Reachable (t.run op) :=
  h.next trivial ⟨⟨run_conn t op, hmtu⟩, rfl⟩

/-- The steps of a connection that is opened, sends two octets and has them acknowledged. -/
def twoOctets : List ConnOp :=
  [.connect 0 1500, .output {} false, .input (bareHdr 100 1 { syn := true, ack := true }) bareMsg,
    .write [1, 2], .output {} false, .input (bareHdr 101 3 { ack := true }) bareMsg]

def twoTimed : Timing :=
  twoOctets.foldl run ⟨⟨StreamReceiver.create ⟨true, 8, 8, true, 0⟩ 0, 0, [], none⟩, [], []⟩

theorem twoTimed_reachable : system.Reachable twoTimed := by
  have hstart : system.Reachable
      ⟨⟨StreamReceiver.create ⟨true, 8, 8, true, 0⟩ 0, 0, [], none⟩, [], []⟩ :=
    .start ⟨⟨⟨_, _, by decide, by decide, .inl rfl⟩, rfl, rfl, rfl⟩, rfl, rfl⟩
  have hconnect := reachable_run hstart (.connect 0 1500) (by rintro _ _ ⟨⟩; decide)
  have hsyn := reachable_run hconnect (.output {} false) (by rintro _ _ ⟨⟩)
  have hopen := reachable_run hsyn
    (.input (bareHdr 100 1 { syn := true, ack := true }) bareMsg) (by rintro _ _ ⟨⟩)
  have hwrite := reachable_run hopen (.write [1, 2]) (by rintro _ _ ⟨⟩)
  have hsend := reachable_run hwrite (.output {} false) (by rintro _ _ ⟨⟩)
  exact reachable_run hsend (.input (bareHdr 101 3 { ack := true }) bareMsg) (by rintro _ _ ⟨⟩)

theorem never_sampled_two :
    (twoTimed.Sampled ↔ ∀ e ∈ twoTimed.acked, e.again = true) ∧
      (∀ e, e ∈ twoTimed.flying ∨ e ∈ twoTimed.acked → e.sampled = false) ∧
      ∀ rtt, (twoTimed.conn.recv.updateRto rtt).estimator ≠ twoTimed.conn.recv.estimator :=
  never_sampled twoTimed_reachable

/-- Two octets that were sent once are acknowledged, and there is no sample. -/
theorem not_sampled_two : system.Reachable twoTimed ∧ ¬ twoTimed.Sampled := by
  refine ⟨twoTimed_reachable, fun hsampled => ?_⟩
  have hacked : twoTimed.acked.map (fun e => (e.again, e.sampled)) = [(false, false)] := by
    decide +kernel
  obtain ⟨e, he, hpair⟩ := List.mem_map.mp (hacked ▸ List.mem_singleton.mpr rfl :
    (false, false) ∈ twoTimed.acked.map fun e => (e.again, e.sampled))
  obtain ⟨hagain, hnone⟩ := Prod.mk.inj hpair
  have hsample := (hsampled e he).mpr hagain
  rw [hnone] at hsample
  cases hsample

end Timing

end EsOs.Net
