import Mathlib
import EsOs.Net.Connection
import EsOs.Net.Proofs.Close

/-! # The backlog of a listening socket

What a step does to the state of a child, and with it the counters of the listening socket. `abort`
of a child takes it out of the queue of `accept` and leaves both counters as they are. -/

namespace EsOs.Net

open EsOs.Lib StreamReceiver

variable {s s' : StreamReceiver}

/-! ## The state after a step -/

theorem ack_state (s : StreamReceiver) (seq ack : TCPSeq) (win sent len : Int) :
    (s.ack seq ack win sent len).2.state = s.state := by
  rcases ack_cases s seq ack win sent len with ⟨-, h⟩ | ⟨-, h, -⟩
  · exact h.state
  · exact h.state

theorem ackSegment_state (s : StreamReceiver) (hdr : TCPHdr) (g : Segment) :
    (s.ackSegment hdr g).2.state = s.state :=
  ack_state s _ _ _ _ _

theorem output_state (s : StreamReceiver) (stack : Flags) (oob : Bool) :
    (s.output stack oob).2.state = s.state := by
  obtain ⟨pre, sendable, flag, hprep, -, hcases⟩ := output_cases s stack oob
  rcases hcases with ⟨-, hs⟩ | hsend
  · exact hs.state.trans hprep.state
  · rw [hsend]
    rcases send_cases pre sendable flag oob with ⟨-, hs⟩ | ⟨g, -, he, -⟩
    · exact hs.state.trans hprep.state
    · exact he.state.trans hprep.state

theorem expired_state (s : StreamReceiver) :
    s.expired.2.state = s.state ∨ s.expired.2.state = .closed := by
  unfold StreamReceiver.expired
  simp only
  split
  · exact .inl rfl
  · split
    · exact .inr (abort_state _)
    · split
      · exact .inr (abort_state _)
      · exact .inl rfl

theorem stateClose_kept (h : s'.state = s.state) : StateKept s (State.close s') := by
  unfold State.close
  cases hstate : s'.state <;> simp only
  case listen | synSent => exact .inr (.inl (abort_state _))
  case established | closeWait =>
    refine .inr (.inr ⟨?_, ?_⟩)
    · rw [← h, hstate]
      rfl
    · rw [setState_state]
      rfl
  all_goals exact .inl h

theorem textAndFin_kept (hs : State.hasBeenEstablished s.state = true) {t : StreamReceiver}
    (ht : State.hasBeenEstablished t.state = true) (m : List UInt8) (g : Segment)
    {next : StreamReceiver → State} (hnext : ∀ u, State.hasBeenEstablished (next u) = true) :
    StateKept s (t.textAndFin m g next).2 := by
  rcases textAndFin_state t m g next with hk | hk | ⟨-, u, -, hk⟩
  · exact .inr (.inr ⟨hs, hk ▸ ht⟩)
  · exact .inr (.inl hk)
  · exact .inr (.inr ⟨hs, hk ▸ hnext u⟩)

/-- A connection past the handshake stays so until it is closed. -/
theorem input_kept (h : State.hasBeenEstablished s.state = true) (hdr : TCPHdr) (m : List UInt8) :
    StateKept s (s.input hdr m).2 := by
  have hover : ∀ {err reply s'}, s.check hdr m err = .stop reply s' → StateKept s s' :=
    fun hc => (check_over hc).2.imp_right .inl
  have hgo : ∀ {err g s'}, s.check hdr m err = .go g s' →
      (s'.ackSegment hdr g).2.state = s.state :=
    fun hc => (ackSegment_state _ hdr _).trans (check_go hc).1.state
  unfold StreamReceiver.input
  cases hstate : s.state <;> simp only
  case closed | listen | synSent | synReceived =>
    rw [hstate] at h
    cases h
  case established =>
    unfold StateEstablished.input
    split
    · exact hover ‹_›
    · exact textAndFin_kept h (hgo ‹_› ▸ h) m _ fun _ => rfl
  case finWait1 =>
    unfold StateFinWait1.input
    split
    · exact hover ‹_›
    · rename_i hc
      simp only
      refine textAndFin_kept h ?_ m _ fun u => by split <;> rfl
      split
      · rw [setState_state]
        rfl
      · exact hgo hc ▸ h
  case finWait2 =>
    unfold StateFinWait2.input
    split
    · exact hover ‹_›
    · exact textAndFin_kept h (hgo ‹_› ▸ h) m _ fun _ => rfl
  case closeWait =>
    unfold StateCloseWait.input
    split
    · exact hover ‹_›
    · exact .inl (hgo ‹_›)
  case lastAck =>
    unfold StateLastAck.input
    split
    · exact hover ‹_›
    · simp only
      split
      · exact .inr (.inl (abort_state _))
      · exact .inl (hgo ‹_›)
  case closing =>
    unfold StateClosing.input
    split
    · exact hover ‹_›
    · simp only
      split
      · exact .inr (.inr ⟨h, by rw [setState_state]; rfl⟩)
      · exact .inl (hgo ‹_›)
  case timeWait =>
    unfold StateTimeWait.input
    split
    · exact .inr (.inl (abort_state _))
    · split
      · exact hover ‹_›
      · exact .inl (hgo ‹_›)

/-- Steps other than an input keep the state, or close the connection, or begin to close it. -/
theorem after_kept (hs : s.state ≠ .closed) (op : ConnOp) (hop : ∀ hdr m, op ≠ .input hdr m) :
    StateKept s (s.after op) := by
  cases op with
  | input hdr m => exact absurd rfl (hop hdr m)
  | output stack oob =>
    refine .inl ?_
    unfold after Connection.run
    simp only [emitted_recv]
    exact output_state s stack oob
  | expired => exact (expired_state s).imp_right .inl
  | delayedAck =>
    refine .inl ?_
    show s.delayedAck.2.state = s.state
    unfold StreamReceiver.delayedAck
    simp only
    split <;> rfl
  | read size => exact .inl (read_state s size)
  | write data =>
    refine .inl ?_
    show (s.write data).state = s.state
    unfold StreamReceiver.write
    simp only
    repeat' split
    all_goals rfl
  | close =>
    show StateKept s s.close
    unfold StreamReceiver.close
    split
    · split
      · exact .inl rfl
      · exact .inr (.inl (abort_state _))
    · exact stateClose_kept rfl
  | shutdownOutput => exact stateClose_kept (s := s) rfl
  | shutdownInput => exact .inl rfl
  | connect isn mtu =>
    refine .inl ?_
    unfold after Connection.run
    simp only [if_neg hs]
  | error code =>
    show StateKept s (s.error code)
    unfold StreamReceiver.error
    split
    · exact .inl rfl
    · exact .inr (.inl (abort_state _))
  | tick ticks => exact .inl rfl

theorem after_established (h : State.hasBeenEstablished s.state = true) (op : ConnOp) :
    State.hasBeenEstablished (s.after op).state = true ∨ (s.after op).state = .closed := by
  have hkept : StateKept s (s.after op) := by
    by_cases hop : ∃ hdr m, op = .input hdr m
    · obtain ⟨hdr, m, rfl⟩ := hop
      exact input_kept h hdr m
    · refine after_kept ?_ op fun hdr m hc => hop ⟨hdr, m, hc⟩
      intro hc
      rw [hc] at h
      cases h
  rcases hkept with hk | hk | ⟨-, hk⟩
  · exact .inl (hk ▸ h)
  · exact .inr hk
  · exact .inl hk

/-- In `synReceived`, the acknowledgement of SYN leads past the handshake; without it there are only
    the way to `closed`, and the one of FIN to `closeWait`. -/
theorem after_synReceived (h : s.state = .synReceived) (op : ConnOp) :
    (s.synDone op = true ∧ (State.hasBeenEstablished (s.after op).state = true ∨
        (s.after op).state = .closed)) ∨
      (s.synDone op = false ∧ ((s.after op).state = .synReceived ∨ (s.after op).state = .closed ∨
        (s.after op).state = .closeWait)) := by
  by_cases hop : ∃ hdr m, op = .input hdr m
  · obtain ⟨hdr, m, rfl⟩ := hop
    have hafter : s.after (.input hdr m) = (StateSynReceived.input s hdr m).2 := by
      show (s.input hdr m).2 = _
      unfold StreamReceiver.input
      rw [h]
    rw [hafter]
    unfold synDone StateSynReceived.input
    simp only [if_pos h]
    have htext : ∀ (t : StreamReceiver) g, t.state = .synReceived →
        (t.textAndFin m g fun _ => .closeWait).2.state = .synReceived ∨
          (t.textAndFin m g fun _ => .closeWait).2.state = .closed ∨
          (t.textAndFin m g fun _ => .closeWait).2.state = .closeWait := by
      intro t g ht
      rcases textAndFin_state t m g (fun _ => .closeWait) with hk | hk | ⟨-, u, -, hk⟩
      · exact .inl (hk.trans ht)
      · exact .inr (.inl hk)
      · exact .inr (.inr hk)
    cases hc : s.checkSyn hdr m with
    | stop reply t =>
      have hkept := (checkSyn_over hc).2
      rw [h] at hkept
      exact .inr ⟨rfl, hkept.imp_right .inl⟩
    | go g t =>
      have ht : t.state = .synReceived := (checkSyn_go hc).1.state.trans h
      simp only
      cases hack : g.flag.ack
      · exact .inr ⟨rfl, htext t g ht⟩
      · by_cases hsyn : seqLt t.iss hdr.ack
        · refine .inl ⟨by simp [hsyn], ?_⟩
          have hest : State.hasBeenEstablished (t.synAcked hdr g).2.state = true := by
            unfold synAcked
            simp only [if_pos hsyn, setState_state]
            split <;> rfl
          simp only [if_true]
          generalize t.synAcked hdr g = u at hest ⊢
          have hopt : State.hasBeenEstablished (u.2.option hdr).2.state = true :=
            (option_same u.2 hdr).2 ▸ hest
          split
          · exact .inl hopt
          · have hacked := (ack_state (u.2.option hdr).2 g.seq hdr.ack hdr.win.toNat u.1 g.len)
            rcases textAndFin_state
                ((u.2.option hdr).2.ack g.seq hdr.ack hdr.win.toNat u.1 g.len).2 m g
                (fun _ => .closeWait) with hk | hk | ⟨-, w, -, hk⟩
            · exact .inl (by rw [hk, hacked]; exact hopt)
            · exact .inr hk
            · exact .inl (by rw [hk]; rfl)
        · refine .inr ⟨by simp [hsyn], ?_⟩
          have hsame : (t.synAcked hdr g).2 = t := by
            unfold synAcked
            simp only [if_neg hsyn]
          simp only [if_true, hsame]
          have hopt : (t.option hdr).2.state = .synReceived := (option_same t hdr).2.trans ht
          split
          · exact .inl hopt
          · exact htext _ g ((ack_state _ _ _ _ _ _).trans hopt)
  · have hnot : ∀ hdr m, op ≠ .input hdr m := fun hdr m hc => hop ⟨hdr, m, hc⟩
    have hdone : s.synDone op = false := by
      cases op
      case input hdr m => exact absurd rfl (hnot hdr m)
      all_goals rfl
    refine .inr ⟨hdone, ?_⟩
    rcases after_kept (by rw [h]; decide) op hnot with hk | hk | ⟨hest, -⟩
    · exact .inl (hk.trans h)
    · exact .inr (.inl hk)
    · rw [h] at hest
      cases hest

theorem synDone_state {op : ConnOp} (h : s.synDone op = true) : s.state = .synReceived := by
  by_cases hs : s.state = .synReceived
  · exact hs
  · cases op <;> simp [synDone, hs] at h

/-! ## A new child -/

/-- What a new child receives: it has no window yet. -/
structure Unopened (hdr : TCPHdr) (s : StreamReceiver) : Prop where
  recvNext : s.recvNext = hdr.seq + 1
  recvWin : s.recvWin = 0
  irs : s.irs = hdr.seq
  shutrd : s.shutrd = false

theorem Unopened.option {hdr : TCPHdr} (h : Unopened hdr s) : Unopened hdr (s.option hdr).2 := by
  have hboard : ∀ (t : StreamReceiver) ack blocks, Unopened hdr t →
      Unopened hdr (t.updateScoreboard ack blocks) := by
    intro t ack blocks ht
    have hfold : ∀ u : StreamReceiver, Unopened hdr u →
        Unopened hdr (blocks.foldl (fun s b => s.updateBlock ack b.1 b.2) u) := by
      induction blocks with
      | nil => exact fun u hu => hu
      | cons b blocks ih =>
        refine fun u hu => ih _ ?_
        unfold updateBlock
        simp only
        repeat' split
        all_goals exact ⟨hu.recvNext, hu.recvWin, hu.irs, hu.shutrd⟩
    unfold updateScoreboard
    split
    · exact ht
    · have hu := hfold t ht
      exact ⟨hu.recvNext, hu.recvWin, hu.irs, hu.shutrd⟩
  have hloop := optionLoop_keeps (P := Unopened hdr)
    (fun _ ht => ⟨ht.recvNext, ht.recvWin, ht.irs, ht.shutrd⟩) hboard hdr (hdr.hdrSize + 1)
    (hdr.hdrSize - 20) hdr.opt s.getDefaultMSS h
  unfold StreamReceiver.option
  simp only
  split
  · exact hloop
  · split
    · exact ⟨hloop.recvNext, hloop.recvWin, hloop.irs, hloop.shutrd⟩
    · exact hloop

theorem child_unopened (socket : Socket) (now : Int) {hdr : TCPHdr} (isn : TCPSeq) (mtu : Int)
    (hok : (child socket now hdr isn mtu).1 = true) :
    Unopened hdr (child socket now hdr isn mtu).2 ∧
      (child socket now hdr isn mtu).2.state = .synReceived := by
  unfold child at hok ⊢
  simp only at hok ⊢
  generalize hs1 : { StreamReceiver.create socket now with
    mss := if socket.ipv4 = true then mtu - 20 - 20 else mtu - 40 - 20
    cWin := 2 * if socket.ipv4 = true then mtu - 20 - 20 else mtu - 40 - 20
    ssThresh := defSsthresh, iss := isn, recvAcked := hdr.seq, irs := hdr.seq
    recvNext := hdr.seq + 1, recvUp := hdr.seq + 1, sendUna := isn, sendNext := isn
    sendMax := isn, sendUp := isn, lastSack := isn, sendFack := isn, sendRecover := isn
    rxmitData := 0, sendAwin := 0 } = s1 at hok ⊢
  have h1 : Unopened hdr s1 := by
    subst hs1
    exact ⟨rfl, rfl, rfl, rfl⟩
  have hopt := h1.option
  split at hok
  · rename_i hright
    rw [if_pos hright]
    refine ⟨?_, setState_state _ _⟩
    simp only
    generalize (s1.option hdr).2 = s2 at hopt ⊢
    unfold setState
    split
    · exact hopt
    · exact ⟨hopt.recvNext, hopt.recvWin, hopt.irs, hopt.shutrd⟩
  · cases hok

/-- Without a window, nothing is left of the segment with SYN. -/
theorem trim_unopened {hdr : TCPHdr} {m : List UInt8} (h : Unopened hdr s)
    (hsyn : hdr.flag.syn = true) (hm : m.length < 2 ^ 16) :
    (s.trim (segment hdr m)).2.1.flag.syn = false ∧
      (s.trim (segment hdr m)).2.1.flag.fin = false := by
  have hone : (s.recvNext - hdr.seq).toInt = 1 := by
    rw [h.recvNext]
    have : hdr.seq + 1 - hdr.seq = 1#32 := by bv_omega
    rw [this]
    decide
  have hlen : (segment hdr m).len - 1 < 2 ^ 16 + 1 := by
    simp only [StreamReceiver.segment, getSegmentLength, hsyn, if_true]
    split <;> omega
  have hleft : (s.trimLeft (segment hdr m)).flag.syn = false ∧
      (s.trimLeft (segment hdr m)).len = (segment hdr m).len - 1 ∧
      (s.trimLeft (segment hdr m)).seq = hdr.seq + 1 ∧
      ((s.trimLeft (segment hdr m)).flag.fin = true → 0 < (segment hdr m).len - 1) := by
    have hseq : (segment hdr m).seq = hdr.seq := rfl
    have hflag : (segment hdr m).flag.syn = true := hsyn
    unfold trimLeft dropFront dropSyn
    simp only [hseq, hone, hflag, if_true]
    by_cases hall : (segment hdr m).len - 1 ≤ 0
    · have hd : decide ((segment hdr m).len - 1 ≤ 1 - 1) = true := decide_eq_true hall
      rw [if_pos (by omega)]
      simp only [hd, if_true]
      rw [if_neg (by omega)]
      exact ⟨rfl, rfl, rfl, by simp⟩
    · have hd : decide ((segment hdr m).len - 1 ≤ 1 - 1) = false := decide_eq_false hall
      rw [if_pos (by omega)]
      simp only [hd, Bool.false_eq_true, if_false]
      rw [if_neg (by omega)]
      exact ⟨rfl, rfl, rfl, fun _ => Int.not_le.mp hall⟩
  obtain ⟨hlsyn, hllen, hlseq, hlfin⟩ := hleft
  have hright : (s.trimRight (s.trimLeft (segment hdr m))).flag.syn = false ∧
      (s.trimRight (s.trimLeft (segment hdr m))).flag.fin = false := by
    unfold trimRight dropBack
    simp only [hlseq, hllen, h.recvNext, h.recvWin]
    split
    · exact ⟨hlsyn, rfl⟩
    · rename_i hbehind
      refine ⟨hlsyn, ?_⟩
      cases hfin : (s.trimLeft (segment hdr m)).flag.fin
      · rfl
      · have hpos := hlfin hfin
        rw [add_sub_add_toInt _ (by omega) (by omega)] at hbehind
        omega
  unfold trim
  simp only
  split
  · exact hright
  · split <;> exact hright

theorem child_input_state (socket : Socket) (now : Int) {hdr : TCPHdr} {m : List UInt8}
    (isn : TCPSeq) (mtu : Int) (hok : (child socket now hdr isn mtu).1 = true)
    (hrst : hdr.flag.rst = false) (hack : hdr.flag.ack = false) (hsyn : hdr.flag.syn = true)
    (hm : m.length < 2 ^ 16) :
    ((child socket now hdr isn mtu).2.input hdr m).2.state = .synReceived := by
  obtain ⟨hun, hstate⟩ := child_unopened socket now isn mtu hok
  generalize (child socket now hdr isn mtu).2 = s at hun hstate ⊢
  obtain ⟨htsyn, htfin⟩ := trim_unopened hun hsyn hm
  obtain ⟨htack, -⟩ := trim_flags s (segment hdr m)
  have hts : (s.trim (segment hdr m)).2.2.state = .synReceived := (trim_state s _).trans hstate
  have htshut : (s.trim (segment hdr m)).2.2.shutrd = false := by
    unfold trim
    simp only
    repeat' split
    all_goals exact hun.shutrd
  have hgack : (s.trim (segment hdr m)).2.1.flag.ack = false := htack.trans hack
  have hself : ¬ seqLt hdr.seq s.irs := by
    rw [hun.irs]
    unfold seqLt
    simp
  unfold StreamReceiver.input
  rw [hstate]
  simp only [StateSynReceived.input, checkSyn, hack, hself, hrst, Bool.false_eq_true, false_and,
    if_false]
  generalize s.trim (segment hdr m) = t at htsyn htfin hts htshut hgack ⊢
  obtain ⟨accepted, g, s1⟩ := t
  simp only at htsyn htfin hts htshut hgack ⊢
  cases accepted
  · exact hts
  · simp only [Bool.true_eq_false, htsyn, Bool.false_eq_true, hgack, if_false]
    -- input is not shut down, and there is no FIN
    have hurg : (if g.flag.urg then s1.urg g else s1).state = .synReceived ∧
        (if g.flag.urg then s1.urg g else s1).shutrd = false := by
      split
      · refine ⟨(urg_state s1 g).trans hts, ?_⟩
        unfold urg
        split <;> exact htshut
      · exact ⟨hts, htshut⟩
    unfold textAndFin
    simp only
    generalize (if g.flag.urg then s1.urg g else s1) = s2 at hurg ⊢
    rcases text_cases s2 m g with ⟨hfalse, -⟩ | ⟨hkept, -, hfin⟩
    · have : (s2.text m g).1 = true := by
        unfold text
        simp only [hurg.2, Bool.false_eq_true, false_and, if_false]
        repeat' split
        all_goals rfl
      rw [this] at hfalse
      cases hfalse
    · split
      · exact hkept.trans hurg.1
      · split
        · rename_i hf
          rw [hfin hf] at htfin
          cases htfin
        · exact hkept.trans hurg.1

/-! ## The counters -/

namespace Child

/-- The handshake is not complete. -/
def incomplete (c : Child) : Bool := decide (c.recv.state = .synReceived)

/-- The child is established and not yet accepted. -/
def waiting (c : Child) : Bool := State.hasBeenEstablished c.recv.state && !c.given

end Child

namespace Listener

/-- The children whose handshake is not complete. -/
def incomplete (l : Listener) : Nat := l.children.countP Child.incomplete

/-- The established children not yet accepted. -/
def waiting (l : Listener) : Nat := l.children.countP Child.waiting

/-- The counters are right. -/
structure Accounted (l : Listener) : Prop where
  par : l.parConn = l.incomplete
  pending : l.pendingConn = l.waiting

/-- A step of a child: `abort` is not called for one that is counted, FIN does not take it out of
    `synReceived`, and it does not come back there once it was accepted. -/
structure ChildOk (c : Child) (op : ConnOp) : Prop where
  aborted : c.incomplete = true ∨ c.waiting = true → (c.recv.after op).state ≠ .closed
  fin : c.incomplete = true → c.recv.synDone op = false → (c.recv.after op).state ≠ .closeWait
  reopened : c.incomplete = false → (c.recv.after op).state ≠ .synReceived

/-- The condition on a step of the listening socket and its children. -/
def BacklogOk (l : Listener) : ListenOp → Prop
  | .child i op => ∀ c, l.children[i]? = some c → ChildOk c op
  | _ => True

/-- The invariant of good runs. The queue holds the children that wait. -/
structure Inv (l : Listener) : Prop where
  accounted : l.Accounted
  nodup : l.accepted.Nodup
  queue : ∀ i, i ∈ l.accepted ↔ ∃ c, l.children[i]? = some c ∧ c.waiting = true
  fresh : ∀ c ∈ l.children, c.given = false → c.incomplete = true ∨ c.waiting = true
  given : ∀ c ∈ l.children, c.given = true → c.incomplete = false

theorem countP_replace {α : Type} (p : α → Bool) {l : List α} {i : Nat} {x : α} (a : α)
    (h : l[i]? = some x) :
    (l.set i a).countP p + (if p x then 1 else 0) = l.countP p + (if p a then 1 else 0) := by
  obtain ⟨hlt, hx⟩ := List.getElem?_eq_some_iff.mp h
  rw [List.countP_set hlt, hx]
  have hle : (if p x = true then 1 else 0) ≤ l.countP p :=
    hx ▸ List.boole_getElem_le_countP hlt
  omega

theorem childStep_children (l : Listener) (i : Nat) (c : Child) (op : ConnOp) :
    (l.childStep i c op).children = l.children.set i { c with recv := c.recv.after op } := by
  unfold childStep established aborted
  simp only
  split <;> split <;> rfl

theorem childStep_counters (l : Listener) (i : Nat) (c : Child) (op : ConnOp) :
    (l.childStep i c op).parConn = l.parConn - (if c.recv.synDone op then 1 else 0) ∧
      (l.childStep i c op).pendingConn = l.pendingConn + (if c.recv.synDone op then 1 else 0) := by
  unfold childStep established aborted
  simp only
  split <;> split <;> simp_all

theorem childStep_accepted (l : Listener) (i : Nat) (c : Child) (op : ConnOp) :
    (l.childStep i c op).accepted =
      if (c.recv.after op).state = .closed then
        (if c.recv.synDone op then l.accepted ++ [i] else l.accepted).erase i
      else if c.recv.synDone op then l.accepted ++ [i] else l.accepted := by
  unfold childStep established aborted
  simp only
  split <;> split <;> rfl

/-- What a step of a child does to the counts, as far as it concerns the child itself. -/
theorem childStep_counts {l : Listener} {i : Nat} {c : Child} (hc : l.children[i]? = some c)
    (op : ConnOp) :
    (l.childStep i c op).incomplete + (if c.incomplete then 1 else 0) =
        l.incomplete + (if (c.recv.after op).state = .synReceived then 1 else 0) ∧
      (l.childStep i c op).waiting + (if c.waiting then 1 else 0) =
        l.waiting + (if Child.waiting { c with recv := c.recv.after op } then 1 else 0) := by
  have hinc := countP_replace Child.incomplete { c with recv := c.recv.after op } hc
  have hwait := countP_replace Child.waiting { c with recv := c.recv.after op } hc
  rw [← childStep_children] at hinc hwait
  refine ⟨?_, hwait⟩
  have hnew : Child.incomplete { c with recv := c.recv.after op } =
      decide ((c.recv.after op).state = .synReceived) := rfl
  simp only [hnew, decide_eq_true_eq] at hinc
  exact hinc

theorem established_ne {state : State} (h : State.hasBeenEstablished state = true) :
    state ≠ .synReceived ∧ state ≠ .closed := by
  constructor <;> rintro rfl <;> cases h

/-- A child that is counted as incomplete. -/
theorem childStep_incomplete {l : Listener} (h : l.Inv) {i : Nat} {c : Child}
    (hc : l.children[i]? = some c) (hinc : c.incomplete = true) (op : ConnOp) :
    (l.childStep i c op).Accounted ↔ ChildOk c op := by
  obtain ⟨hpar, hpending⟩ := childStep_counters l i c op
  obtain ⟨hcinc, hcwait⟩ := childStep_counts hc op
  have hp := h.accounted.par
  have hq := h.accounted.pending
  have hstate : c.recv.state = .synReceived := by simpa [Child.incomplete] using hinc
  have hgiven : c.given = false := by
    cases hg : c.given
    · rfl
    · have := h.given c (List.mem_of_getElem? hc) hg
      rw [hinc] at this
      cases this
  have hwait : c.waiting = false := by
    simp only [Child.waiting, hstate]
    rfl
  have hnew : Child.waiting { c with recv := c.recv.after op } =
      State.hasBeenEstablished (c.recv.after op).state := by
    simp only [Child.waiting, hgiven, Bool.not_false, Bool.and_true]
  rw [hinc, if_pos rfl] at hcinc
  rw [hwait, hnew, if_neg Bool.false_ne_true] at hcwait
  rcases after_synReceived hstate op with ⟨hdone, hafter⟩ | ⟨hdone, hafter⟩
  · -- SYN was acknowledged
    rw [hdone, if_pos rfl] at hpar hpending
    have hne : (c.recv.after op).state ≠ .synReceived := by
      rcases hafter with hest | hclosed
      · exact (established_ne hest).1
      · rw [hclosed]
        decide
    rw [if_neg hne] at hcinc
    constructor
    · intro hacc
      have hq' := hacc.pending
      refine ⟨fun _ hclosed => ?_, fun _ hnot => absurd hdone (by rw [hnot]; decide),
        fun hnot => absurd hinc (by rw [hnot]; decide)⟩
      rw [hclosed, if_neg (by decide)] at hcwait
      omega
    · intro hok
      have hest : State.hasBeenEstablished (c.recv.after op).state = true :=
        hafter.resolve_right (hok.aborted (.inl hinc))
      rw [hest, if_pos rfl] at hcwait
      exact ⟨by omega, by omega⟩
  · rw [hdone, if_neg Bool.false_ne_true] at hpar hpending
    constructor
    · intro hacc
      have hp' := hacc.par
      have hsame : (c.recv.after op).state = .synReceived := by
        by_cases hsame : (c.recv.after op).state = .synReceived
        · exact hsame
        · rw [if_neg hsame] at hcinc
          omega
      refine ⟨fun _ => by rw [hsame]; decide, fun _ _ => by rw [hsame]; decide,
        fun hnot => absurd hinc (by rw [hnot]; decide)⟩
    · intro hok
      have hsame : (c.recv.after op).state = .synReceived := by
        rcases hafter with hk | hk | hk
        · exact hk
        · exact absurd hk (hok.aborted (.inl hinc))
        · exact absurd hk (hok.fin hinc hdone)
      rw [if_pos hsame] at hcinc
      rw [hsame, if_neg (by decide)] at hcwait
      exact ⟨by omega, by omega⟩

/-- A child that is not. -/
theorem childStep_complete {l : Listener} (h : l.Inv) {i : Nat} {c : Child}
    (hc : l.children[i]? = some c) (hinc : c.incomplete = false) (op : ConnOp) :
    (l.childStep i c op).Accounted ↔ ChildOk c op := by
  obtain ⟨hpar, hpending⟩ := childStep_counters l i c op
  obtain ⟨hcinc, hcwait⟩ := childStep_counts hc op
  have hp := h.accounted.par
  have hq := h.accounted.pending
  have hstate : c.recv.state ≠ .synReceived := by simpa [Child.incomplete] using hinc
  have hdone : c.recv.synDone op = false := by
    cases hd : c.recv.synDone op
    · rfl
    · exact absurd (synDone_state hd) hstate
  rw [hdone, if_neg Bool.false_ne_true] at hpar hpending
  rw [hinc, if_neg Bool.false_ne_true] at hcinc
  cases hwait : c.waiting
  · have hgiven : c.given = true := by
      cases hg : c.given
      · rcases h.fresh c (List.mem_of_getElem? hc) hg with hi | hw
        · rw [hinc] at hi
          cases hi
        · rw [hwait] at hw
          cases hw
      · rfl
    have hnew : Child.waiting { c with recv := c.recv.after op } = false := by
      simp only [Child.waiting, hgiven, Bool.not_true, Bool.and_false]
    rw [hwait, hnew, if_neg Bool.false_ne_true] at hcwait
    constructor
    · intro hacc
      have hp' := hacc.par
      refine ⟨fun hor => ?_, fun hi => absurd hi (by rw [hinc]; decide), fun _ hback => ?_⟩
      · rcases hor with hi | hw
        · rw [hinc] at hi
          cases hi
        · rw [hwait] at hw
          cases hw
      · rw [if_pos hback] at hcinc
        omega
    · intro hok
      rw [if_neg (hok.reopened hinc)] at hcinc
      exact ⟨by omega, by omega⟩
  · have hest : State.hasBeenEstablished c.recv.state = true := by
      have := hwait
      unfold Child.waiting at this
      simp only [Bool.and_eq_true] at this
      exact this.1
    have hgiven : c.given = false := by
      have := hwait
      unfold Child.waiting at this
      simpa [hest] using this
    have hnew : Child.waiting { c with recv := c.recv.after op } =
        State.hasBeenEstablished (c.recv.after op).state := by
      simp only [Child.waiting, hgiven, Bool.not_false, Bool.and_true]
    rw [hwait, hnew, if_pos rfl] at hcwait
    have hafter := after_established hest op
    have hne : (c.recv.after op).state ≠ .synReceived := by
      rcases hafter with hk | hk
      · exact (established_ne hk).1
      · rw [hk]
        decide
    rw [if_neg hne] at hcinc
    constructor
    · intro hacc
      have hq' := hacc.pending
      refine ⟨fun _ hclosed => ?_, fun hi => absurd hi (by rw [hinc]; decide), fun _ => hne⟩
      rw [hclosed, if_neg (by decide)] at hcwait
      omega
    · intro hok
      rw [hafter.resolve_right (hok.aborted (.inr hwait)), if_pos rfl] at hcwait
      exact ⟨by omega, by omega⟩

/-- The counters stay right in a step of a child exactly when it is a good one. -/
theorem childStep_accounted {l : Listener} (h : l.Inv) {i : Nat} {c : Child}
    (hc : l.children[i]? = some c) (op : ConnOp) :
    (l.childStep i c op).Accounted ↔ ChildOk c op := by
  cases hinc : c.incomplete
  · exact childStep_complete h hc hinc op
  · exact childStep_incomplete h hc hinc op

/-- A good step of a child keeps the invariant. -/
theorem Inv.childStep {l : Listener} (h : l.Inv) {i : Nat} {c : Child}
    (hc : l.children[i]? = some c) {op : ConnOp} (hok : ChildOk c op) :
    (l.childStep i c op).Inv := by
  obtain ⟨hlt, hget⟩ := List.getElem?_eq_some_iff.mp hc
  have hmem := List.mem_of_getElem? hc
  generalize hnew : ({ c with recv := c.recv.after op } : Child) = c'
  have hchildren : (l.childStep i c op).children = l.children.set i c' := by
    rw [childStep_children, hnew]
  have hlook : ∀ j, (l.childStep i c op).children[j]? =
      if i = j then some c' else l.children[j]? := by
    intro j
    rw [hchildren, List.getElem?_set]
    by_cases hij : i = j
    · subst hij
      simp [hlt]
    · simp [hij]
  have hnotin : c.waiting = false → i ∉ l.accepted := by
    intro hw hin
    obtain ⟨x, hx, hxw⟩ := (h.queue i).mp hin
    rw [hc] at hx
    cases hx
    rw [hw] at hxw
    cases hxw
  -- the queue, and whether the child waits now
  have hqueue : ((l.childStep i c op).accepted = l.accepted ∧ c'.waiting = c.waiting) ∨
      ((l.childStep i c op).accepted = l.accepted ++ [i] ∧ c'.waiting = true ∧
        c.waiting = false) := by
    rw [childStep_accepted]
    have hcw : c'.waiting = (State.hasBeenEstablished (c.recv.after op).state && !c.given) := by
      rw [← hnew]
      rfl
    cases hinc : c.incomplete
    · have hdone : c.recv.synDone op = false := by
        cases hd : c.recv.synDone op
        · rfl
        · have : c.incomplete = true := by
            simp [Child.incomplete, synDone_state hd]
          rw [hinc] at this
          cases this
      rw [hdone]
      simp only [Bool.false_eq_true, if_false]
      cases hwait : c.waiting
      · refine .inl ⟨?_, ?_⟩
        · split
          · exact List.erase_of_not_mem (hnotin hwait)
          · rfl
        · cases hg : c.given
          · rcases h.fresh c hmem hg with hi | hw
            · rw [hinc] at hi
              cases hi
            · rw [hwait] at hw
              cases hw
          · rw [hcw, hg]
            simp
      · have hne := hok.aborted (.inr hwait)
        have hest : State.hasBeenEstablished c.recv.state = true ∧ c.given = false := by
          have hw := hwait
          unfold Child.waiting at hw
          simpa using hw
        refine .inl ⟨if_neg hne, ?_⟩
        rw [hcw, (after_established hest.1 op).resolve_right hne, hest.2]
        rfl
    · have hstate : c.recv.state = .synReceived := by simpa [Child.incomplete] using hinc
      have hgiven : c.given = false := by
        cases hg : c.given
        · rfl
        · have := h.given c hmem hg
          rw [hinc] at this
          cases this
      have hwait : c.waiting = false := by
        simp only [Child.waiting, hstate]
        rfl
      have hne := hok.aborted (.inl hinc)
      rw [if_neg hne]
      rcases after_synReceived hstate op with ⟨hdone, hafter⟩ | ⟨hdone, hafter⟩
      · rw [hdone]
        refine .inr ⟨rfl, ?_, hwait⟩
        rw [hcw, hafter.resolve_right hne, hgiven]
        rfl
      · rw [hdone]
        refine .inl ⟨rfl, ?_⟩
        have hsame : (c.recv.after op).state = .synReceived := by
          rcases hafter with hk | hk | hk
          · exact hk
          · exact absurd hk hne
          · exact absurd hk (hok.fin hinc hdone)
        rw [hcw, hsame, hwait]
        rfl
  have hgiven' : c'.given = c.given := by
    rw [← hnew]
  refine ⟨(childStep_accounted h hc op).mpr hok, ?_, ?_, ?_, ?_⟩
  · rcases hqueue with ⟨hq, -⟩ | ⟨hq, -, hw⟩
    · rw [hq]
      exact h.nodup
    · rw [hq, List.nodup_append]
      refine ⟨h.nodup, by simp, ?_⟩
      intro a ha b hb
      rw [List.mem_singleton.mp hb]
      rintro rfl
      exact hnotin hw ha
  · intro j
    rw [hlook]
    by_cases hij : i = j
    · subst hij
      rw [if_pos rfl]
      rcases hqueue with ⟨hq, hw⟩ | ⟨hq, hw, -⟩
      · rw [hq, h.queue, hc]
        simp [hw]
      · rw [hq]
        simp [hw]
    · rw [if_neg hij, ← h.queue]
      rcases hqueue with ⟨hq, -⟩ | ⟨hq, -, -⟩
      · rw [hq]
      · rw [hq]
        simp [Ne.symm hij]
  · intro x hx hg
    rw [hchildren] at hx
    rcases List.mem_or_eq_of_mem_set hx with hold | rfl
    · exact h.fresh x hold hg
    · rcases h.fresh c hmem (hgiven' ▸ hg) with hi | hw
      · have hstate : c.recv.state = .synReceived := by simpa [Child.incomplete] using hi
        rcases hqueue with ⟨-, hw⟩ | ⟨-, hw, -⟩
        · refine .inl ?_
          rcases after_synReceived hstate op with ⟨-, hafter⟩ | ⟨hdone, hafter⟩
          · have hest := hafter.resolve_right (hok.aborted (.inl hi))
            have hcw : x.waiting = true := by
              rw [← hnew]
              simp only [Child.waiting, hest, hgiven' ▸ hg, Bool.not_false, Bool.and_self]
            have hcf : c.waiting = false := by
              simp only [Child.waiting, hstate]
              rfl
            rw [hcw, hcf] at hw
            cases hw
          · have hsame : (c.recv.after op).state = .synReceived := by
              rcases hafter with hk | hk | hk
              · exact hk
              · exact absurd hk (hok.aborted (.inl hi))
              · exact absurd hk (hok.fin hi hdone)
            rw [← hnew]
            simp [Child.incomplete, hsame]
        · exact .inr hw
      · rcases hqueue with ⟨-, hw'⟩ | ⟨-, hw', -⟩
        · exact .inr (hw'.trans hw)
        · exact .inr hw'
  · intro x hx hg
    rw [hchildren] at hx
    rcases List.mem_or_eq_of_mem_set hx with hold | rfl
    · exact h.given x hold hg
    · have hcg : c.given = true := hgiven' ▸ hg
      have hne := hok.reopened (h.given c hmem hcg)
      rw [← hnew]
      simpa [Child.incomplete] using hne

/-! ## Runs -/

/-- A new child is incomplete. -/
theorem Inv.input {l : Listener} (h : l.Inv) (hdr : TCPHdr) {m : List UInt8} (socket : Socket)
    (now : Int) (isn : TCPSeq) (mtu : Int) (hm : m.length < 2 ^ 16) :
    (l.input hdr m socket now isn mtu).Inv := by
  unfold Listener.input
  split
  · exact h
  · rename_i hrst
    split
    · exact h
    · rename_i hack
      split
      · exact h
      · rename_i hsyn
        simp only
        split
        · exact h
        · rename_i hok
          split
          · exact h
          · have hstate := child_input_state socket now isn mtu (Bool.not_eq_false _ |>.mp hok)
              (Bool.not_eq_true _ |>.mp hrst) (Bool.not_eq_true _ |>.mp hack)
              (Bool.not_eq_false _ |>.mp hsyn) hm
            generalize ((child socket now hdr isn mtu).2.input hdr m).2 = s at hstate ⊢
            have hinc : Child.incomplete ⟨s, false⟩ = true := by simp [Child.incomplete, hstate]
            have hwait : Child.waiting ⟨s, false⟩ = false := by
              simp only [Child.waiting, hstate]
              rfl
            refine ⟨⟨?_, ?_⟩, h.nodup, ?_, ?_, ?_⟩
            · have := h.accounted.par
              simp only [Listener.incomplete] at this
              simp only [Listener.incomplete, List.countP_append, List.countP_singleton, hinc,
                if_true]
              omega
            · have := h.accounted.pending
              simp only [Listener.waiting] at this
              simp only [Listener.waiting, List.countP_append, List.countP_singleton, hwait,
                Bool.false_eq_true, if_false]
              omega
            · intro i
              rw [h.queue]
              constructor
              · rintro ⟨c, hc, hw⟩
                obtain ⟨hlt, -⟩ := List.getElem?_eq_some_iff.mp hc
                exact ⟨c, by rw [List.getElem?_append_left hlt]; exact hc, hw⟩
              · rintro ⟨c, hc, hw⟩
                by_cases hlt : i < l.children.length
                · rw [List.getElem?_append_left hlt] at hc
                  exact ⟨c, hc, hw⟩
                · rw [List.getElem?_append_right (Nat.le_of_not_lt hlt)] at hc
                  have hmem := List.mem_singleton.mp (List.mem_of_getElem? hc)
                  rw [hmem, hwait] at hw
                  cases hw
            · intro c hc hg
              rcases List.mem_append.mp hc with hold | hnew
              · exact h.fresh c hold hg
              · rw [List.mem_singleton.mp hnew]
                exact .inl hinc
            · intro c hc hg
              rcases List.mem_append.mp hc with hold | hnew
              · exact h.given c hold hg
              · rw [List.mem_singleton.mp hnew] at hg
                cases hg

/-- The first child of the queue is given to the user. -/
theorem Inv.accept {l : Listener} (h : l.Inv) : l.accept.Inv := by
  unfold Listener.accept
  split
  · rename_i i rest _ hq
    have hnodup := h.nodup
    rw [hq, List.nodup_cons] at hnodup
    obtain ⟨c, hc, hw⟩ := (h.queue i).mp (by rw [hq]; exact List.mem_cons_self)
    have hmem := List.mem_of_getElem? hc
    obtain ⟨hlt, hget⟩ := List.getElem?_eq_some_iff.mp hc
    have hset : l.children.modify i (fun c => { c with given := true }) =
        l.children.set i { c with given := true } := by
      refine List.ext_getElem? fun j => ?_
      rw [List.getElem?_modify, List.getElem?_set]
      by_cases hij : i = j
      · subst hij
        simp [hlt, hget]
      · simp [hij]
    have hest : State.hasBeenEstablished c.recv.state = true := by
      unfold Child.waiting at hw
      simp only [Bool.and_eq_true] at hw
      exact hw.1
    have hinc : Child.incomplete { c with given := true } = false := by
      simp [Child.incomplete, (established_ne hest).1]
    have hinc' : c.incomplete = false := hinc
    have hwait : Child.waiting { c with given := true } = false := by simp [Child.waiting]
    have hcinc := countP_replace Child.incomplete ({ c with given := true } : Child) hc
    have hcwait := countP_replace Child.waiting ({ c with given := true } : Child) hc
    rw [hinc, hinc'] at hcinc
    rw [hw, hwait, if_pos rfl, if_neg Bool.false_ne_true] at hcwait
    simp only [hset]
    refine ⟨⟨?_, ?_⟩, hnodup.2, ?_, ?_, ?_⟩
    · have := h.accounted.par
      simp only [Listener.incomplete] at this ⊢
      omega
    · have := h.accounted.pending
      simp only [Listener.waiting] at this ⊢
      omega
    · intro j
      rw [List.getElem?_set]
      by_cases hij : i = j
      · subst hij
        simp [hlt, hwait, hnodup.1]
      · have hold := h.queue j
        rw [hq] at hold
        rw [if_neg hij, ← hold]
        simp [Ne.symm hij]
    · intro x hx hg
      rcases List.mem_or_eq_of_mem_set hx with hold | rfl
      · exact h.fresh x hold hg
      · cases hg
    · intro x hx hg
      rcases List.mem_or_eq_of_mem_set hx with hold | rfl
      · exact h.given x hold hg
      · exact hinc
  · exact h

theorem inv_of_runWith {l : Listener} (hrun : system.RunWith BacklogOk l) : l.Inv := by
  refine hrun.invariant Inv ?_ ?_
  · rintro l ⟨hpar, hpending, haccepted, hchildren⟩
    refine ⟨⟨?_, ?_⟩, ?_, ?_, ?_, ?_⟩
    · simp [hpar, Listener.incomplete, hchildren]
    · simp [hpending, Listener.waiting, hchildren]
    · simp [haccepted]
    · simp [haccepted, hchildren]
    · simp [hchildren]
    · simp [hchildren]
  · intro l op l' h hok hstep
    have hstep : l.run op = some l' := hstep
    cases op with
    | segment hdr m socket now isn mtu =>
      simp only [run] at hstep
      split at hstep
      · rename_i hm
        cases hstep
        split
        · exact h.input hdr socket now isn mtu hm
        · exact h
      · cases hstep
    | child i op =>
      simp only [run] at hstep
      split at hstep
      · cases hstep
      · rename_i c hc
        split at hstep
        · cases hstep
        · cases hstep
          exact h.childStep hc (hok c hc)
    | accept =>
      cases hstep
      exact h.accept
    | listen backlog =>
      cases hstep
      exact ⟨⟨h.accounted.par, h.accounted.pending⟩, h.nodup, h.queue, h.fresh, h.given⟩
    | abort =>
      cases hstep
      exact ⟨⟨h.accounted.par, h.accounted.pending⟩, h.nodup, h.queue, h.fresh, h.given⟩

/-- With no incomplete child, and with room behind the children that wait, a SYN with good options
    makes a new child. -/
def AcceptsSyn (l : Listener) : Prop :=
  l.state = .listen → l.incomplete = 0 → (l.waiting : Int) < l.backLogCount →
    ∀ hdr m socket now isn mtu, hdr.flag.syn = true → hdr.flag.ack = false → hdr.flag.rst = false →
      m.length < 2 ^ 16 → (child socket now hdr isn mtu).1 = true →
        ∃ l' c, l.run (.segment hdr m socket now isn mtu) = some l' ∧
          l'.children = l.children ++ [c] ∧ c.incomplete = true

theorem Accounted.acceptsSyn {l : Listener} (h : l.Accounted) : l.AcceptsSyn := by
  intro hlisten hnone hroom hdr m socket now isn mtu hsyn hack hrst hm hok
  have hpar := h.par
  have hpending := h.pending
  have hstate := child_input_state socket now isn mtu hok hrst hack hsyn hm
  refine ⟨{ l with
      parConn := l.parConn + 1
      children := l.children ++ [⟨((child socket now hdr isn mtu).2.input hdr m).2, false⟩] },
    _, ?_, rfl, ?_⟩
  · simp only [run, if_pos hm, if_pos hlisten]
    unfold Listener.input
    simp only [hrst, hack, hsyn, hok, Bool.false_eq_true, Bool.true_eq_false, if_false]
    rw [if_neg (by omega)]
  · simp [Child.incomplete, hstate]

/-- In every run of good steps the counters are right, so that a listening socket whose incomplete
    children have all gone accepts a new SYN; and a step from there keeps them right exactly when it
    is a good one. -/
theorem backlog_accounting {l : Listener} (hrun : system.RunWith BacklogOk l) :
    l.Accounted ∧ l.AcceptsSyn ∧
      ∀ op l', system.step l op l' → (l'.Accounted ↔ BacklogOk l op) := by
  have h := inv_of_runWith hrun
  refine ⟨h.accounted, h.accounted.acceptsSyn, ?_⟩
  intro op l' hstep
  have hgood : BacklogOk l op → l'.Accounted :=
    fun hok => (inv_of_runWith (hrun.next hok hstep)).accounted
  refine ⟨?_, hgood⟩
  cases op with
  | child i op =>
    intro hacc c hc
    have hrun' : l.run (.child i op) = some l' := hstep
    simp only [run, hc] at hrun'
    split at hrun'
    · cases hrun'
    · cases hrun'
      exact (childStep_accounted h hc op).mp hacc
  | segment | accept | listen | abort => exact fun _ => trivial

/-! ## A child that is reset -/

/-- A segment without text and options. -/
def plainHdr (seq : TCPSeq) (flag : Flags) : TCPHdr :=
  ⟨seq, 0, flag, 1000, 0, 20, []⟩

/-- The arrival of SYN from a peer. -/
def synFrom (seq : TCPSeq) : ListenOp :=
  .segment (plainHdr seq { syn := true }) (List.replicate 20 0) ⟨true, 8, 8, true, 0⟩ 0 0 1500

/-- A listening socket with room for one child, which has received SYN. -/
def oneChild : Listener :=
  (Listener.listen ⟨.closed, 0, 0, 0, [], []⟩ 1).input (plainHdr 100 { syn := true })
    (List.replicate 20 0) ⟨true, 8, 8, true, 0⟩ 0 0 1500

theorem oneChild_run : system.RunWith BacklogOk oneChild := by
  have hstart : system.RunWith BacklogOk ⟨.closed, 0, 0, 0, [], []⟩ := .start ⟨rfl, rfl, rfl, rfl⟩
  have hlisten : system.RunWith BacklogOk (Listener.listen ⟨.closed, 0, 0, 0, [], []⟩ 1) :=
    hstart.next (l := .listen 1) trivial rfl
  exact hlisten.next (l := synFrom 100) trivial rfl

theorem backlog_accounting_syn :
    oneChild.incomplete = 1 ∧ oneChild.Accounted ∧ oneChild.AcceptsSyn ∧
      ∀ op l', system.step oneChild op l' → (l'.Accounted ↔ BacklogOk oneChild op) :=
  ⟨by decide +kernel, backlog_accounting oneChild_run⟩

/-- The child is reset before the handshake is complete: it stays counted, and no further SYN is
    accepted. -/
theorem backlog_accounting_reset :
    ∃ l, system.Reachable l ∧ l.incomplete = 0 ∧ ¬ l.Accounted ∧ l.run (synFrom 200) = some l := by
  have hstep : ∃ l, oneChild.run
      (.child 0 (.input (plainHdr 101 { rst := true }) (List.replicate 20 0))) = some l :=
    ⟨_, rfl⟩
  obtain ⟨l, hl⟩ := hstep
  have hreach : system.Reachable l := oneChild_run.reachable.next trivial hl
  have hnone : l.incomplete = 0 := by
    cases hl
    decide +kernel
  have hpar : l.parConn = 1 := by
    cases hl
    decide +kernel
  refine ⟨l, hreach, hnone, ?_, ?_⟩
  · rintro ⟨hp, -⟩
    rw [hpar, hnone] at hp
    cases hp
  · cases hl
    rfl

end Listener

end EsOs.Net
