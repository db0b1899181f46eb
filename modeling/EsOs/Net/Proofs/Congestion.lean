import EsOs.Net.Congestion
import EsOs.Net.Proofs.Acked

/-! # What does not touch congestion control

An arriving segment is a list of steps of congestion control: its options, its acknowledgement, and
things that leave congestion control as it is. -/

namespace EsOs.Net

open EsOs.Lib StreamReceiver

variable {s t : StreamReceiver}

/-! ## Timers, states and receiving -/

theorem startRxmitTimer_congestion (s : StreamReceiver) :
    s.startRxmitTimer.congestion = s.congestion := by
  unfold startRxmitTimer
  split <;> rfl

theorem setState_congestion (s : StreamReceiver) (state : State) :
    (s.setState state).congestion = s.congestion := by
  unfold setState
  split
  · rfl
  · cases state
    case timeWait => exact startRxmitTimer_congestion _
    all_goals rfl

theorem abort_congestion (s : StreamReceiver) : s.abort.congestion = s.congestion :=
  setState_congestion s .closed

theorem abortWith_congestion (s : StreamReceiver) (err : Option Errno) :
    (abort { s with err := err }).congestion = s.congestion :=
  abort_congestion _

theorem reset_congestion (s : StreamReceiver) (seq : TCPSeq) (err : Option Errno) :
    (s.reset seq err).congestion = s.congestion := by
  unfold reset
  split
  · exact abortWith_congestion s _
  · rfl

theorem trim_congestion (s : StreamReceiver) (g : Segment) :
    (s.trim g).2.2.congestion = s.congestion := by
  unfold trim
  simp only
  repeat' split
  all_goals rfl

theorem urg_congestion (s : StreamReceiver) (g : Segment) : (s.urg g).congestion = s.congestion := by
  unfold urg
  split <;> rfl

theorem text_congestion (s : StreamReceiver) (m : List UInt8) (g : Segment) :
    (s.text m g).2.2.congestion = s.congestion := by
  unfold text
  simp only
  repeat' split
  all_goals first
    | rfl
    | exact abortWith_congestion s _

theorem textAndFin_congestion (s : StreamReceiver) (m : List UInt8) (g : Segment)
    (next : StreamReceiver → State) : (s.textAndFin m g next).2.congestion = s.congestion := by
  have hurg : (if g.flag.urg then s.urg g else s).congestion = s.congestion := by
    split
    · exact urg_congestion s g
    · rfl
  unfold textAndFin
  simp only
  generalize (if g.flag.urg then s.urg g else s) = u at hurg ⊢
  have htext := (text_congestion u m g).trans hurg
  split
  · exact htext
  · split
    · exact (setState_congestion _ _).trans htext
    · exact htext

/-! ## What the user asks for -/

theorem read_congestion (s : StreamReceiver) (size : Int) :
    (s.read size).2.congestion = s.congestion := by
  unfold StreamReceiver.read
  simp only
  repeat' split
  all_goals rfl

theorem write_congestion (s : StreamReceiver) (data : List UInt8) :
    (s.write data).congestion = s.congestion := by
  unfold StreamReceiver.write
  simp only
  repeat' split
  all_goals rfl

theorem stateClose_congestion (s : StreamReceiver) : (State.close s).congestion = s.congestion := by
  unfold State.close
  cases s.state <;> simp only
  case listen | synSent => exact abort_congestion s
  case established | closeWait => exact setState_congestion s _

theorem close_congestion (s : StreamReceiver) : s.close.congestion = s.congestion := by
  unfold StreamReceiver.close
  split
  · split
    · rfl
    · exact abort_congestion s
  · exact stateClose_congestion { s with shutrd := true, shutwr := true }

theorem delayedAck_congestion (s : StreamReceiver) : s.delayedAck.2.congestion = s.congestion := by
  unfold StreamReceiver.delayedAck
  simp only
  split <;> rfl

theorem error_congestion (s : StreamReceiver) (code : Errno) :
    (s.error code).congestion = s.congestion := by
  unfold StreamReceiver.error
  split
  · rfl
  · exact abortWith_congestion s _

/-! ## The acknowledgement of new data -/

/-- What the steps behind the congestion control keep, `ack` keeps. -/
theorem ack_new_keeps {ack seq : TCPSeq} {win : Int} {P : StreamReceiver → Prop}
    (hnew : ¬ seqLe ack s.sendUna) (hs : P (s.newAck ack))
    (hadvance : ∀ {u : StreamReceiver}, P u → P (u.advanceUna ack))
    (hring : ∀ {u : StreamReceiver} (ring : Ring), P u → P { u with sendRing := ring })
    (hrto : ∀ {u : StreamReceiver} (rtt : Int), u.rttTiming ≠ 0 → P u → P (u.updateRto rtt))
    (hwin : ∀ {u : StreamReceiver}, P u → P (u.updateSendWin seq ack win))
    (hpersist : ∀ {u : StreamReceiver}, P u → P u.checkPersist) (sent len : Int) :
    P (s.ack seq ack win sent len).2 := by
  unfold StreamReceiver.ack
  rw [if_neg hnew]
  simp only
  have hs := hadvance hs
  generalize (s.newAck ack).advanceUna ack = u at hs ⊢
  generalize (if decide ((u.sendRing.getUsed : Int) < sent) = true then sent - 1 else sent) = sent'
  have hskip : P (if 0 < sent' ∧ 0 < (u.sendRing.getUsed : Int) then
      { u with sendRing := (u.sendRing.skip (min sent' u.sendRing.getUsed)).2 } else u) := by
    split
    · exact hring _ hs
    · exact hs
  generalize (if 0 < sent' ∧ 0 < (u.sendRing.getUsed : Int) then
      { u with sendRing := (u.sendRing.skip (min sent' u.sendRing.getUsed)).2 } else u) = v
    at hskip ⊢
  have htimed : P (if v.rttTiming ≠ 0 ∧ seqLt v.rttSeq ack then
      v.updateRto (v.now - v.rttTiming) else v) := by
    split
    · rename_i htiming
      exact hrto _ htiming.1 hskip
    · exact hskip
  exact hpersist (hwin htimed)

/-! ## An arriving segment -/

section Input

variable {hdr : TCPHdr} {m : List UInt8} {err : Option Errno} {g : Segment} {reply : Bool}
  {P : StreamReceiver → Prop}

/-- A segment that does not pass the checks leaves congestion control alone, up to its options. -/
theorem check_stop_keeps (hkept : ∀ {s t : StreamReceiver}, t.congestion = s.congestion → P s → P t)
    (hoption : ∀ {s : StreamReceiver}, P s → P (s.option hdr).2) (hs : P s)
    (hc : s.check hdr m err = .stop reply t) : P t := by
  have htrim := trim_congestion s (segment hdr m)
  unfold check at hc
  simp only at hc
  generalize s.trim (segment hdr m) = r at hc htrim
  obtain ⟨accepted, g, u⟩ := r
  simp only at hc htrim
  have hu := hkept htrim hs
  split at hc
  · cases hc
    exact hkept (reset_congestion s _ _) hs
  split at hc
  · cases hc
    exact hu
  split at hc
  · cases hc
    exact hkept (abort_congestion u) hu
  split at hc
  · cases hc
    exact hu
  split at hc
  · cases hc
    exact hkept (s := u) rfl hu
  split at hc
  · cases hc
  · cases hc
    exact hoption hu

/-- One that does has had its options processed, and acknowledges nothing newer than `sendMax`. -/
theorem check_go_keeps (hkept : ∀ {s t : StreamReceiver}, t.congestion = s.congestion → P s → P t)
    (hoption : ∀ {s : StreamReceiver}, P s → P (s.option hdr).2) (hs : P s)
    (hc : s.check hdr m err = .go g t) : P t ∧ ¬ seqLt t.sendMax hdr.ack := by
  obtain ⟨hsame, hmax, -, -⟩ := check_go hc
  refine ⟨?_, hsame.same.max ▸ hmax⟩
  have htrim := trim_congestion s (segment hdr m)
  unfold check at hc
  simp only at hc
  generalize s.trim (segment hdr m) = r at hc htrim
  obtain ⟨accepted, g, u⟩ := r
  simp only at hc htrim
  repeat' split at hc
  all_goals cases hc
  exact hoption (hkept htrim hs)

theorem synAcked_sendMax (s : StreamReceiver) (hdr : TCPHdr) (g : Segment) :
    (s.synAcked hdr g).2.sendMax = s.sendMax := by
  unfold synAcked
  simp only
  split
  · exact (setState_same s _).max
  · rfl

theorem checkSyn_stop_keeps
    (hkept : ∀ {s t : StreamReceiver}, t.congestion = s.congestion → P s → P t) (hs : P s)
    (hc : s.checkSyn hdr m = .stop reply t) : P t := by
  have htrim := trim_congestion s (segment hdr m)
  unfold checkSyn at hc
  simp only at hc
  generalize s.trim (segment hdr m) = r at hc htrim
  obtain ⟨accepted, g, u⟩ := r
  simp only at hc htrim
  have hu := hkept htrim hs
  split at hc
  · cases hc
    exact hs
  split at hc
  · cases hc
    exact hs
  split at hc
  · cases hc
    exact hkept (reset_congestion s _ _) hs
  split at hc
  · cases hc
    exact hu
  split at hc
  · cases hc
    exact hkept (abort_congestion u) hu
  · cases hc

theorem checkSyn_go_keeps
    (hkept : ∀ {s t : StreamReceiver}, t.congestion = s.congestion → P s → P t) (hs : P s)
    (hc : s.checkSyn hdr m = .go g t) :
    P t ∧ (g.flag.ack = true → ¬ seqLt t.sendMax hdr.ack) := by
  obtain ⟨hsame, hg, hrange⟩ := checkSyn_go hc
  constructor
  · have htrim := trim_congestion s (segment hdr m)
    unfold checkSyn at hc
    simp only at hc
    generalize s.trim (segment hdr m) = r at hc htrim
    obtain ⟨accepted, g, u⟩ := r
    simp only at hc htrim
    repeat' split at hc
    all_goals cases hc
    exact hkept htrim hs
  · intro hflag hmax
    rw [hg, (trim_flags s (segment hdr m)).1] at hflag
    rw [hsame.same.max] at hmax
    exact hrange ⟨hflag, .inr hmax⟩

theorem textAndFin_keeps (hkept : ∀ {s t : StreamReceiver}, t.congestion = s.congestion → P s → P t)
    (hs : P s) (m : List UInt8) (g : Segment) (next : StreamReceiver → State) :
    P (s.textAndFin m g next).2 :=
  hkept (textAndFin_congestion s m g next) hs

/-- What the options and the acknowledgement of a segment keep, and what depends on congestion
    control alone, a segment that arrives after the handshake keeps. -/
theorem input_keeps_established
    (hkept : ∀ {s t : StreamReceiver}, t.congestion = s.congestion → P s → P t)
    (hoption : ∀ {s : StreamReceiver}, P s → P (s.option hdr).2)
    (hack : ∀ {s : StreamReceiver} (seq : TCPSeq) (sent len : Int), ¬ seqLt s.sendMax hdr.ack →
      P s → P (s.ack seq hdr.ack hdr.win.toNat sent len).2)
    (hest : State.hasBeenEstablished s.state = true) (hs : P s) : P (s.input hdr m).2 := by
  have hstop : ∀ {err reply t}, s.check hdr m err = .stop reply t → P t :=
    fun hc => check_stop_keeps hkept hoption hs hc
  have hgo : ∀ {err g t}, s.check hdr m err = .go g t → P (t.ackSegment hdr g).2 := by
    intro err g t hc
    obtain ⟨ht, hmax⟩ := check_go_keeps hkept hoption hs hc
    exact hack _ _ _ hmax ht
  unfold StreamReceiver.input
  cases hstate : s.state <;> simp only
  case closed | listen | synSent | synReceived =>
    rw [hstate] at hest
    cases hest
  case established =>
    unfold StateEstablished.input
    split
    · exact hstop ‹_›
    · exact textAndFin_keeps hkept (hgo ‹_›) _ _ _
  case finWait1 =>
    unfold StateFinWait1.input
    split
    · exact hstop ‹_›
    · simp only
      split
      · exact textAndFin_keeps hkept (hkept (setState_congestion _ _) (hgo ‹_›)) _ _ _
      · exact textAndFin_keeps hkept (hgo ‹_›) _ _ _
  case finWait2 =>
    unfold StateFinWait2.input
    split
    · exact hstop ‹_›
    · exact textAndFin_keeps hkept (hgo ‹_›) _ _ _
  case closeWait =>
    unfold StateCloseWait.input
    split
    · exact hstop ‹_›
    · exact hgo ‹_›
  case lastAck =>
    unfold StateLastAck.input
    split
    · exact hstop ‹_›
    · simp only
      split
      · exact hkept (abortWith_congestion _ _) (hgo ‹_›)
      · exact hgo ‹_›
  case closing =>
    unfold StateClosing.input
    split
    · exact hstop ‹_›
    · simp only
      split
      · rename_i g t hc _
        exact hkept (s := (t.ackSegment hdr g).2) (setState_congestion _ _) (hgo hc)
      · exact hgo ‹_›
  case timeWait =>
    unfold StateTimeWait.input
    split
    · exact hkept (abort_congestion s) hs
    · split
      · exact hstop ‹_›
      · rename_i g t hc
        exact hkept (s := (t.ackSegment hdr g).2) rfl (hgo hc)

/-- So does any arriving segment, when the two ways to leave the handshake keep it too. -/
theorem input_keeps
    (hkept : ∀ {s t : StreamReceiver}, t.congestion = s.congestion → P s → P t)
    (hoption : ∀ {s : StreamReceiver}, P s → P (s.option hdr).2)
    (hack : ∀ {s : StreamReceiver} (seq : TCPSeq) (sent len : Int), ¬ seqLt s.sendMax hdr.ack →
      P s → P (s.ack seq hdr.ack hdr.win.toNat sent len).2)
    (hanswered : ∀ {s : StreamReceiver}, P s → P (s.answered hdr))
    (hsynAcked : ∀ {s : StreamReceiver} (g : Segment), P s → P (s.synAcked hdr g).2)
    (hs : P s) : P (s.input hdr m).2 := by
  by_cases hest : State.hasBeenEstablished s.state = true
  · exact input_keeps_established hkept hoption hack hest hs
  unfold StreamReceiver.input
  cases hstate : s.state <;> simp only
  case closed | listen => exact hs
  case synSent =>
    unfold StateSynSent.input
    split
    · exact hs
    split
    · split
      · exact hkept (abortWith_congestion s _) hs
      · exact hs
    split
    · exact hs
    have hopt : P ((s.takeSyn hdr.seq).option hdr).2 := hoption (hkept (s := s) rfl hs)
    simp only
    generalize (s.takeSyn hdr.seq).option hdr = o at hopt ⊢
    obtain ⟨ok, t⟩ := o
    simp only at hopt ⊢
    split
    · have hans := hanswered hopt
      generalize t.answered hdr = u at hans ⊢
      unfold afterSyn
      simp only
      have htrim := hkept (trim_congestion u (segment hdr m)) hans
      generalize u.trim (segment hdr m) = r at htrim ⊢
      obtain ⟨accepted, g, v⟩ := r
      simp only at htrim ⊢
      split
      · exact htrim
      split
      · exact htrim
      split
      · exact hkept (s := v) rfl htrim
      · rename_i hmax
        exact textAndFin_keeps hkept (hack _ _ _ hmax htrim) _ _ _
    · exact hopt
  case synReceived =>
    unfold StateSynReceived.input
    split
    · exact checkSyn_stop_keeps hkept hs ‹_›
    rename_i g t hc
    obtain ⟨ht, hmax⟩ := checkSyn_go_keeps hkept hs hc
    split
    · rename_i hflag
      have hopt := hoption (hsynAcked g ht)
      have hmax' : ¬ seqLt ((t.synAcked hdr g).2.option hdr).2.sendMax hdr.ack := by
        rw [(option_same _ hdr).1.max, synAcked_sendMax]
        exact hmax hflag
      simp only
      split
      · exact hopt
      · exact textAndFin_keeps hkept (hack _ _ _ hmax' hopt) _ _ _
    · exact textAndFin_keeps hkept ht _ _ _
  all_goals
    rw [hstate] at hest
    exact absurd rfl hest

end Input

/-! ## Outputs -/

/-- What an output may do to congestion control: it may forget duplicate acknowledgements, and does
    not begin to measure the time of a round trip. -/
structure SameOutput (s t : StreamReceiver) : Prop where
  mss : t.mss = s.mss
  cWin : t.cWin = s.cWin
  ssThresh : t.ssThresh = s.ssThresh
  cAcked : t.cAcked = s.cAcked
  dupAcks : t.dupAcks = s.dupAcks ∨ t.dupAcks = 0
  sack : t.sack = s.sack
  socket : t.socket = s.socket
  sendUna : t.sendUna = s.sendUna
  sendWin : t.sendWin = s.sendWin
  timing : s.rttTiming = 0 → t.rttTiming = 0
  srtt : t.srtt = s.srtt
  rttDe : t.rttDe = s.rttDe

namespace SameOutput

theorem refl (s : StreamReceiver) : SameOutput s s :=
  ⟨rfl, rfl, rfl, rfl, .inl rfl, rfl, rfl, rfl, rfl, id, rfl, rfl⟩

theorem trans {u : StreamReceiver} (h : SameOutput s t) (h' : SameOutput t u) : SameOutput s u :=
  ⟨h'.mss.trans h.mss, h'.cWin.trans h.cWin, h'.ssThresh.trans h.ssThresh,
    h'.cAcked.trans h.cAcked,
    h'.dupAcks.elim (fun hsame => h.dupAcks.imp hsame.trans hsame.trans) .inr,
    h'.sack.trans h.sack, h'.socket.trans h.socket, h'.sendUna.trans h.sendUna,
    h'.sendWin.trans h.sendWin, fun h0 => h'.timing (h.timing h0), h'.srtt.trans h.srtt,
    h'.rttDe.trans h.rttDe⟩

theorem of_congestion (h : t.congestion = s.congestion) : SameOutput s t :=
  ⟨congrArg Congestion.mss h, congrArg Congestion.cWin h, congrArg Congestion.ssThresh h,
    congrArg Congestion.cAcked h, .inl (congrArg Congestion.dupAcks h),
    congrArg Congestion.sack h, congrArg Congestion.socket h, congrArg Congestion.sendUna h,
    congrArg Congestion.sendWin h, fun h0 => (congrArg Congestion.rttTiming h).trans h0,
    congrArg Congestion.srtt h, congrArg Congestion.rttDe h⟩

end SameOutput

theorem startAckTimer_congestion (s : StreamReceiver) :
    s.startAckTimer.congestion = s.congestion := by
  unfold startAckTimer
  split <;> rfl

theorem persistState_output (s : StreamReceiver) : SameOutput s s.persistState := by
  unfold persistState
  split
  · exact ⟨rfl, rfl, rfl, rfl, .inr rfl, rfl, rfl, rfl, rfl, fun _ => rfl, rfl, rfl⟩
  · exact .refl s

theorem recoverNext_congestion (s : StreamReceiver) : s.recoverNext.congestion = s.congestion := by
  unfold recoverNext
  simp only
  repeat' split
  all_goals rfl

theorem getSendable_output (s : StreamReceiver) : SameOutput s s.getSendable.2 := by
  have h := (persistState_output s).trans (.of_congestion (recoverNext_congestion _))
  unfold getSendable
  simp only
  split <;> exact h

theorem probeWindow_congestion (s : StreamReceiver) (flag : Flags) :
    (s.probeWindow flag).2.congestion = s.congestion := by
  unfold probeWindow
  split <;> rfl

theorem canSend_congestion (s : StreamReceiver) (len mss : Int) (flag : Flags) :
    (s.canSend len mss flag).2.congestion = s.congestion := by
  unfold canSend updateWindow
  simp only
  repeat' split
  all_goals rfl

theorem postpone_congestion (s : StreamReceiver) (len : Int) :
    (s.postpone len).congestion = s.congestion := by
  unfold postpone
  simp only
  have h1 : (if seqLt s.sendNext s.onxt then { s with sendNext := s.onxt } else s).congestion
      = s.congestion := by
    split <;> rfl
  generalize (if seqLt s.sendNext s.onxt then { s with sendNext := s.onxt } else s) = s1 at h1 ⊢
  have h2 : (if 0 < len then s1.startRxmitTimer else s1).congestion = s1.congestion := by
    split
    · exact startRxmitTimer_congestion s1
    · rfl
  generalize (if 0 < len then s1.startRxmitTimer else s1) = s2 at h2 ⊢
  split
  · exact ((startAckTimer_congestion s2).trans h2).trans h1
  · exact h2.trans h1

theorem sent_output (s : StreamReceiver) (len : Int) (seq : TCPSeq) :
    SameOutput s (s.sent len seq) := by
  have h1 : SameOutput s (raiseSendMax { s with sendNext := s.sendNext.add len } seq) := by
    unfold raiseSendMax
    split
    · exact ⟨rfl, rfl, rfl, rfl, .inl rfl, rfl, rfl, rfl, rfl,
        fun h0 => (if_neg (fun hne => hne h0)).trans h0, rfl, rfl⟩
    · exact .of_congestion rfl
  unfold StreamReceiver.sent
  simp only
  generalize raiseSendMax { s with sendNext := s.sendNext.add len } seq = s1 at h1 ⊢
  have h2 : SameOutput s1 (if s1.sendNext ≠ s1.sendUna then s1.startRxmitTimer else s1) := by
    split
    · exact .of_congestion (startRxmitTimer_congestion s1)
    · exact .refl s1
  generalize (if s1.sendNext ≠ s1.sendUna then s1.startRxmitTimer else s1) = s2 at h2 ⊢
  have h3 : SameOutput s2 (s2.advanceHole len) := by
    unfold advanceHole
    split <;> exact .of_congestion rfl
  exact ((h1.trans h2).trans h3).trans
    ⟨rfl, rfl, rfl, rfl, .inl rfl, rfl, rfl, rfl, rfl, id, rfl, rfl⟩

theorem send_output (s : StreamReceiver) (sendable : Int) (flag : Flags) (oob : Bool) :
    SameOutput s (s.send sendable flag oob).2 := by
  have h1 := SameOutput.of_congestion (probeWindow_congestion s flag)
  unfold StreamReceiver.send
  simp only
  generalize (s.probeWindow flag).2 = s1 at h1 ⊢
  generalize s1.sendLength sendable (s.probeWindow flag).1 flag = r
  obtain ⟨len, flag'⟩ := r
  simp only
  split
  · exact h1
  have h2 := h1.trans (.of_congestion (canSend_congestion s1 len (s1.mss - s.countOptionSize flag) flag'))
  generalize s1.canSend len (s1.mss - s.countOptionSize flag) flag' = r at h2 ⊢
  obtain ⟨can, s2⟩ := r
  simp only at h2 ⊢
  split
  · have h3 : SameOutput s2 (s2.makeSegment len flag' oob).2 := .of_congestion rfl
    exact (h2.trans h3).trans (sent_output _ _ _)
  · exact h2.trans (.of_congestion (postpone_congestion s2 len))

theorem output_output (s : StreamReceiver) (stack : Flags) (oob : Bool) :
    SameOutput s (s.output stack oob).2 := by
  have h1 : SameOutput s { s with hole := none, onxt := s.sendNext } := .of_congestion rfl
  unfold StreamReceiver.output
  generalize { s with hole := none, onxt := s.sendNext } = s1 at h1 ⊢
  have h2 := h1.trans (getSendable_output s1)
  unfold State.output
  cases s1.state <;> simp only
  case closed | listen => exact h1
  case synSent | synReceived => exact h1.trans (send_output _ _ _ _)
  case established | finWait2 | closeWait => exact h2.trans (send_output _ _ _ _)
  all_goals
    unfold getSendableWithFin
    simp only
    repeat' split
    all_goals exact h2.trans (send_output _ _ _ _)

/-! ## Runs -/

/-- A segment that arrives after the handshake is a part of a run of congestion control. -/
theorem input_reachable (hrun : congestionSystem.Reachable s)
    (hest : State.hasBeenEstablished s.state = true) (hdr : TCPHdr) (m : List UInt8) :
    congestionSystem.Reachable (s.input hdr m).2 := by
  refine input_keeps_established (P := congestionSystem.Reachable) ?_ ?_ ?_ hest hrun
  · intro s t hsame hs
    exact hs.next (l := .other t) trivial ⟨hsame, rfl⟩
  · intro s hs
    exact hs.next (l := .option hdr) trivial ⟨trivial, rfl⟩
  · intro s seq sent len hmax hs
    exact hs.next (l := .ack seq hdr.ack hdr.win.toNat sent len) trivial ⟨hmax, rfl⟩

end EsOs.Net
