import Mathlib
import EsOs.Net.Proofs.Output

/-! # What an input does to the send sequence

An accepted acknowledgement of `a` octets moves `sendUna` by `a` and takes as many octets off the
send buffer; SYN and FIN take no octet of it. Nothing else in an input touches the send sequence. -/

namespace EsOs.Net.StreamReceiver

variable {s : StreamReceiver}

/-! ## Options -/

theorem updateBlock_all (s : StreamReceiver) (ack start fin : TCPSeq) :
    SameAll s (s.updateBlock ack start fin) := by
  unfold updateBlock
  simp only
  repeat' split
  all_goals exact ⟨⟨rfl, rfl, rfl, rfl, rfl, rfl, id, id⟩, rfl, rfl, rfl, rfl⟩

theorem updateScoreboard_all (s : StreamReceiver) (ack : TCPSeq)
    (blocks : List (TCPSeq × TCPSeq)) : SameAll s (s.updateScoreboard ack blocks) := by
  have hfold : ∀ t : StreamReceiver, SameAll s t →
      SameAll s (blocks.foldl (fun s b => s.updateBlock ack b.1 b.2) t) := by
    induction blocks with
    | nil => exact fun t h => h
    | cons b blocks ih => exact fun t h => ih _ (h.trans (updateBlock_all t ack b.1 b.2))
  unfold updateScoreboard
  split
  · exact .refl s
  · have h := hfold s (.refl s)
    exact ⟨⟨h.same.una, h.same.next, h.same.max, h.same.ring, h.same.iss, h.same.win, h.same.mss,
      h.same.asb⟩, h.mss, h.state, h.onxt, h.cWin⟩

/-- The options change the scoreboard and `sack` only. -/
theorem optionLoop_keeps {P : StreamReceiver → Prop} (hsack : ∀ s, P s → P { s with sack := true })
    (hboard : ∀ s ack blocks, P s → P (s.updateScoreboard ack blocks)) (hdr : TCPHdr) (fuel : Nat)
    (optlen : Int) (opt : List UInt8) (mss : Int) {s : StreamReceiver} (h : P s) :
    P (optionLoop hdr fuel optlen opt mss s).2.2 := by
  induction fuel generalizing optlen opt mss s with
  | zero => exact h
  | succ fuel ih =>
    unfold optionLoop
    simp only
    repeat' split
    all_goals
      first
        | exact h
        | exact ih _ _ _ h
        | exact ih _ _ _ (hsack s h)
        | exact ih _ _ _ (hboard s _ _ h)

/-- They give a maximum segment size that is not negative. -/
theorem optionLoop_mss (hdr : TCPHdr) (fuel : Nat) (optlen : Int) (opt : List UInt8) {mss : Int}
    (s : StreamReceiver) (hmss : 0 ≤ mss) : 0 ≤ (optionLoop hdr fuel optlen opt mss s).2.1 := by
  induction fuel generalizing optlen opt mss s with
  | zero => exact hmss
  | succ fuel ih =>
    unfold optionLoop
    simp only
    repeat' split
    all_goals
      first
        | exact hmss
        | exact ih _ _ _ hmss
        | exact ih _ _ _ (by omega)

theorem optionLoop_all (hdr : TCPHdr) (fuel : Nat) (optlen : Int) (opt : List UInt8) (mss : Int)
    (s : StreamReceiver) : SameAll s (optionLoop hdr fuel optlen opt mss s).2.2 :=
  optionLoop_keeps
    (fun _ h => h.trans ⟨⟨rfl, rfl, rfl, rfl, rfl, rfl, id, id⟩, rfl, rfl, rfl, rfl⟩)
    (fun t ack blocks h => h.trans (updateScoreboard_all t ack blocks)) hdr fuel optlen opt mss
    (.refl s)

/-- Whether the options are right does not depend on the connection. -/
theorem optionLoop_ok (hdr : TCPHdr) (fuel : Nat) (optlen : Int) (opt : List UInt8)
    (mss mss' : Int) (s s' : StreamReceiver) :
    (optionLoop hdr fuel optlen opt mss s).1 = (optionLoop hdr fuel optlen opt mss' s').1 := by
  induction fuel generalizing optlen opt mss mss' s s' with
  | zero => rfl
  | succ fuel ih =>
    unfold optionLoop
    simp only
    repeat' split
    all_goals first | rfl | exact ih _ _ _ _ _ _

theorem option_ok (s s' : StreamReceiver) (hdr : TCPHdr) : (s.option hdr).1 = (s'.option hdr).1 := by
  have h := optionLoop_ok hdr (hdr.hdrSize + 1) (hdr.hdrSize - 20) hdr.opt s.getDefaultMSS
    s'.getDefaultMSS s s'
  unfold option
  simp only [h]
  split
  · rfl
  · split <;> rfl

theorem getDefaultMSS_nonneg (s : StreamReceiver) : 0 ≤ s.getDefaultMSS := by
  unfold getDefaultMSS
  split
  · split <;> omega
  · omega

theorem option_same (s : StreamReceiver) (hdr : TCPHdr) :
    SameSend s (s.option hdr).2 ∧ (s.option hdr).2.state = s.state := by
  have h := optionLoop_all hdr (hdr.hdrSize + 1) (hdr.hdrSize - 20) hdr.opt s.getDefaultMSS s
  have hm := optionLoop_mss hdr (hdr.hdrSize + 1) (hdr.hdrSize - 20) hdr.opt s
    (getDefaultMSS_nonneg s)
  unfold option
  simp only
  split
  · exact ⟨h.same, h.state⟩
  · split
    · refine ⟨⟨h.same.una, h.same.next, h.same.max, h.same.ring, h.same.iss, h.same.win, ?_,
        h.same.asb⟩, h.state⟩
      intro h0
      exact Int.le_min.mpr ⟨h.same.mss h0, hm⟩
    · exact ⟨h.same, h.state⟩

/-! ## `ack` -/

theorem resetRxmitTimer_all (s : StreamReceiver) : SameAll s s.resetRxmitTimer :=
  ⟨⟨rfl, rfl, rfl, rfl, rfl, rfl, id, id⟩, rfl, rfl, rfl, rfl⟩

/-- A change that keeps the send sequence and the state. -/
structure SameInput (s s' : StreamReceiver) : Prop where
  same : SameSend s s'
  state : s'.state = s.state

theorem SameInput.refl (s : StreamReceiver) : SameInput s s :=
  ⟨.refl s, rfl⟩

theorem SameInput.trans {s' s'' : StreamReceiver} (h : SameInput s s') (h' : SameInput s' s'') :
    SameInput s s'' :=
  ⟨h.same.trans h'.same, h'.state.trans h.state⟩

theorem duplicateAck_same (s : StreamReceiver) (ack : TCPSeq) :
    SameInput s (s.duplicateAck ack) := by
  unfold duplicateAck
  simp only
  repeat' split
  all_goals exact ⟨⟨rfl, rfl, rfl, rfl, rfl, rfl, id, id⟩, rfl⟩

theorem openWindow_same (s : StreamReceiver) (ack : TCPSeq) : SameInput s (s.openWindow ack) := by
  unfold openWindow
  simp only
  repeat' split
  all_goals exact ⟨⟨rfl, rfl, rfl, rfl, rfl, rfl, id, id⟩, rfl⟩

theorem newAck_same (s : StreamReceiver) (ack : TCPSeq) : SameInput s (s.newAck ack) := by
  have hset : ∀ t : StreamReceiver, SameInput s t → SameInput s (t.openWindow ack) :=
    fun t h => h.trans (openWindow_same t ack)
  unfold newAck
  simp only
  split
  · split
    · refine hset _ ?_
      split <;> exact ⟨⟨rfl, rfl, rfl, rfl, rfl, rfl, id, id⟩, rfl⟩
    · split <;> exact ⟨⟨rfl, rfl, rfl, rfl, rfl, rfl, id, id⟩, rfl⟩
  · exact hset _ ⟨⟨rfl, rfl, rfl, rfl, rfl, rfl, id, id⟩, rfl⟩

/-- What an acknowledgement of new data does, of which `sent` octets are counted. -/
structure Acked (s s' : StreamReceiver) (ack : TCPSeq) (win sent : Int) : Prop where
  una : s'.sendUna = ack
  next : s'.sendNext = if seqLt s.sendNext ack then ack else s.sendNext
  max : s'.sendMax = s.sendMax
  used : s'.queued = s.queued - min s.queued (Max.max 0 sent)
  size : s'.sendRing.size = s.sendRing.size
  iss : s'.iss = s.iss
  win : s'.sendWin = s.sendWin ∨ s'.sendWin = win
  mss : 0 ≤ s.mss → 0 ≤ s'.mss
  asb : s.asb.length ≤ asbMax → s'.asb.length ≤ asbMax
  state : s'.state = s.state

/-- A change that keeps all but the send window. -/
structure SameButWin (s s' : StreamReceiver) (win : Int) : Prop where
  una : s'.sendUna = s.sendUna
  next : s'.sendNext = s.sendNext
  max : s'.sendMax = s.sendMax
  ring : s'.sendRing = s.sendRing
  iss : s'.iss = s.iss
  win : s'.sendWin = s.sendWin ∨ s'.sendWin = win
  mss : 0 ≤ s.mss → 0 ≤ s'.mss
  asb : s.asb.length ≤ asbMax → s'.asb.length ≤ asbMax
  state : s'.state = s.state

theorem updateRto_same (s : StreamReceiver) (rtt : Int) : SameInput s (s.updateRto rtt) :=
  ⟨⟨rfl, rfl, rfl, rfl, rfl, rfl, id, id⟩, rfl⟩

theorem updateSendWin_same (s : StreamReceiver) (seq ack : TCPSeq) (win : Int) :
    SameButWin s (s.updateSendWin seq ack win) win := by
  unfold updateSendWin
  split
  · exact ⟨rfl, rfl, rfl, rfl, rfl, .inr rfl, id, id, rfl⟩
  · exact ⟨rfl, rfl, rfl, rfl, rfl, .inl rfl, id, id, rfl⟩

theorem checkPersist_same (s : StreamReceiver) : SameInput s s.checkPersist := by
  unfold checkPersist
  simp only
  repeat' split
  all_goals exact ⟨⟨rfl, rfl, rfl, rfl, rfl, rfl, id, id⟩, rfl⟩

end StreamReceiver

theorem Ring.skip_used (r : Ring) (count : Int) :
    ((r.skip count).2.used : Int) = r.used - min (r.used : Int) (max 0 count) := by
  unfold Ring.skip
  simp only
  repeat' split
  all_goals simp only
  all_goals omega

theorem Ring.skip_size (r : Ring) (count : Int) : (r.skip count).2.size = r.size := by
  unfold Ring.skip
  simp only
  repeat' split
  all_goals rfl

namespace StreamReceiver

variable {s : StreamReceiver}

/-- An old acknowledgement answers `true` and changes nothing of the send sequence; a new one answers
    whether it covers more than the send buffer holds. -/
theorem ack_cases (s : StreamReceiver) (seq ack : TCPSeq) (win sent len : Int) :
    (seqLe ack s.sendUna ∧ SameInput s (s.ack seq ack win sent len).2) ∨
      (¬ seqLe ack s.sendUna ∧ Acked s (s.ack seq ack win sent len).2 ack win sent ∧
        (s.ack seq ack win sent len).1 = decide (s.queued < sent)) := by
  by_cases hold : seqLe ack s.sendUna
  · refine .inl ⟨hold, ?_⟩
    unfold StreamReceiver.ack
    rw [if_pos hold]
    split
    · exact ⟨⟨rfl, rfl, rfl, rfl, rfl, rfl, id, id⟩, rfl⟩
    · split
      · exact .refl s
      · exact duplicateAck_same s ack
  · refine .inr ⟨hold, ?_⟩
    have hnew := newAck_same s ack
    unfold StreamReceiver.ack
    rw [if_neg hold]
    simp only
    generalize s.newAck ack = s1 at hnew ⊢
    have hadv : (s1.advanceUna ack).sendUna = ack ∧
        (s1.advanceUna ack).sendNext = (if seqLt s1.sendNext ack then ack else s1.sendNext) ∧
        (s1.advanceUna ack).sendMax = s1.sendMax ∧ (s1.advanceUna ack).sendRing = s1.sendRing ∧
        (s1.advanceUna ack).iss = s1.iss ∧ (s1.advanceUna ack).sendWin = s1.sendWin ∧
        (s1.advanceUna ack).mss = s1.mss ∧ (s1.advanceUna ack).asb = s1.asb ∧
        (s1.advanceUna ack).state = s1.state := by
      unfold advanceUna
      simp only
      split <;> exact ⟨rfl, rfl, rfl, rfl, rfl, rfl, rfl, rfl, rfl⟩
    obtain ⟨huna, hnext, hmax, hring, hiss, hwin, hmss, hasb, hstate⟩ := hadv
    generalize s1.advanceUna ack = s2 at huna hnext hmax hring hiss hwin hmss hasb hstate ⊢
    have hring2 : s2.sendRing = s.sendRing := hring.trans hnew.same.ring
    have hused : (s2.sendRing.getUsed : Int) = s.queued := by
      rw [hring2]
      rfl
    rw [hused]
    have hq : 0 ≤ s.queued := Int.natCast_nonneg _
    generalize hsent : (if decide (s.queued < sent) then sent - 1 else sent) = sent'
    have hsent' : min s.queued (Max.max 0 (min sent' s.queued)) = min s.queued (Max.max 0 sent) := by
      rw [← hsent]
      split <;> rename_i hc <;> simp only [decide_eq_true_eq] at hc <;> omega
    have hskip : ∃ s3, (if 0 < sent' ∧ 0 < s.queued then
          { s2 with sendRing := (s2.sendRing.skip (min sent' s.queued)).2 } else s2) = s3 ∧
        s3.queued = s.queued - min s.queued (Max.max 0 sent) ∧
        s3.sendRing.size = s.sendRing.size ∧ s3.sendUna = s2.sendUna ∧
        s3.sendNext = s2.sendNext ∧ s3.sendMax = s2.sendMax ∧ s3.iss = s2.iss ∧
        s3.sendWin = s2.sendWin ∧ s3.mss = s2.mss ∧ s3.asb = s2.asb ∧ s3.state = s2.state := by
      refine ⟨_, rfl, ?_⟩
      split
      · refine ⟨?_, ?_, rfl, rfl, rfl, rfl, rfl, rfl, rfl, rfl⟩
        · show ((s2.sendRing.skip (min sent' s.queued)).2.used : Int) = _
          rw [Ring.skip_used, hring2]
          show s.queued - min s.queued (Max.max 0 (min sent' s.queued)) = _
          rw [hsent']
        · show (s2.sendRing.skip (min sent' s.queued)).2.size = _
          rw [Ring.skip_size, hring2]
      · rename_i hnone
        refine ⟨?_, by rw [hring2], rfl, rfl, rfl, rfl, rfl, rfl, rfl, rfl⟩
        show (s2.sendRing.used : Int) = _
        rw [hring2]
        show s.queued = _
        omega
    obtain ⟨s3, heq, hqueued, hsize, huna3, hnext3, hmax3, hiss3, hwin3, hmss3, hasb3, hstate3⟩ := hskip
    rw [heq]
    have hrtt : SameInput s3 (if s3.rttTiming ≠ 0 ∧ seqLt s3.rttSeq ack then
        s3.updateRto (s3.now - s3.rttTiming) else s3) := by
      split
      · exact updateRto_same s3 _
      · exact .refl s3
    generalize (if s3.rttTiming ≠ 0 ∧ seqLt s3.rttSeq ack then
        s3.updateRto (s3.now - s3.rttTiming) else s3) = s4 at hrtt ⊢
    have hw := updateSendWin_same s4 seq ack win
    have hp := checkPersist_same (s4.updateSendWin seq ack win)
    generalize (s4.updateSendWin seq ack win).checkPersist = s5 at hp ⊢
    refine ⟨⟨?_, ?_, ?_, ?_, ?_, ?_, ?_, ?_, ?_, ?_⟩, rfl⟩
    · rw [hp.same.una, hw.una, hrtt.same.una, huna3, huna]
    · rw [hp.same.next, hw.next, hrtt.same.next, hnext3, hnext, hnew.same.next]
    · rw [hp.same.max, hw.max, hrtt.same.max, hmax3, hmax, hnew.same.max]
    · rw [← hqueued]
      simp only [queued, hp.same.ring, hw.ring, hrtt.same.ring]
    · rw [hp.same.ring, hw.ring, hrtt.same.ring, hsize]
    · rw [hp.same.iss, hw.iss, hrtt.same.iss, hiss3, hiss, hnew.same.iss]
    · rw [hp.same.win, ← hnew.same.win, ← hwin, ← hwin3, ← hrtt.same.win]
      exact hw.win
    · intro h0
      refine hp.same.mss (hw.mss (hrtt.same.mss ?_))
      rw [hmss3, hmss]
      exact hnew.same.mss h0
    · intro h0
      refine hp.same.asb (hw.asb (hrtt.same.asb ?_))
      rw [hasb3, hasb]
      exact hnew.same.asb h0
    · rw [hp.state, hw.state, hrtt.state, hstate3, hstate, hnew.state]

/-! ## Offsets -/

/-- An acknowledgement that is not older than `sendUna` and not newer than `sendMax`. The two
    comparisons say nothing about a number `2 ^ 31` octets away. -/
theorem accepted_offset (h : s.SendBounds) {ack : TCPSeq} (hfar : ack - s.sendUna ≠ 0x80000000#32)
    (hnew : ¬ seqLe ack s.sendUna) (hmax : ¬ seqLt s.sendMax ack) :
    0 < (ack - s.sendUna).toInt ∧ (ack - s.sendUna).toInt ≤ s.maxOff := by
  have hlo := BitVec.le_toInt (ack - s.sendUna)
  have hhi := BitVec.toInt_lt (x := ack - s.sendUna)
  have hq := h.queued_lt
  have hm0 := h.max_nonneg
  have hmle := h.max_le
  have hne : (ack - s.sendUna).toInt ≠ -2 ^ 31 := by
    intro hc
    exact hfar (BitVec.eq_of_toInt_eq (hc.trans (by decide)))
  have hack := eq_add s.sendUna ack
  generalize (ack - s.sendUna).toInt = a at *
  have hpos : 0 < a := by
    have : ¬ seqLe (s.sendUna.add a) (s.sendUna.add 0) := by
      rw [add_zero, ← hack]
      exact hnew
    rw [seqLe_add _ (by omega) (by omega)] at this
    omega
  refine ⟨hpos, ?_⟩
  rw [hack, sendMax_eq, seqLt_add _ (by omega) (by omega)] at hmax
  omega

/-- Everything in the send buffer has been sent, and FIN after it. -/
def Complete (s : StreamReceiver) : Prop :=
  s.maxOff = s.queued + 1 ∨ s.nextOff = s.queued + 1

namespace Acked

variable {s' : StreamReceiver} {ack : TCPSeq} {win sent : Int}

theorem maxOff (he : Acked s s' ack win sent) (h : s.SendBounds)
    (hpos : 0 < (ack - s.sendUna).toInt) (hle : (ack - s.sendUna).toInt ≤ s.maxOff) :
    s'.maxOff = s.maxOff - (ack - s.sendUna).toInt := by
  have hq := h.queued_lt
  have hmle := h.max_le
  show (s'.sendMax - s'.sendUna).toInt = _
  rw [he.max, he.una]
  conv => lhs; rw [sendMax_eq s, eq_add s.sendUna ack]
  exact add_sub_add_toInt _ (by omega) (by omega)

theorem nextOff (he : Acked s s' ack win sent) (h : s.SendBounds)
    (hpos : 0 < (ack - s.sendUna).toInt) (hle : (ack - s.sendUna).toInt ≤ s.maxOff) :
    s'.nextOff = Max.max (s.nextOff - (ack - s.sendUna).toInt) 0 := by
  have hq := h.queued_lt
  have hmle := h.max_le
  have hn0 := h.next_nonneg
  have hnle := h.next_le
  have hlt : seqLt s.sendNext ack ↔ s.nextOff < (ack - s.sendUna).toInt := by
    conv => lhs; rw [sendNext_eq s, eq_add s.sendUna ack]
    exact seqLt_add _ (by omega) (by omega)
  show (s'.sendNext - s'.sendUna).toInt = _
  rw [he.next, he.una]
  simp only [hlt]
  split
  · rw [BitVec.sub_self, BitVec.toInt_zero]
    omega
  · conv => lhs; rw [sendNext_eq s, eq_add s.sendUna ack]
    rw [add_sub_add_toInt _ (by omega) (by omega)]
    omega

theorem bounds (he : Acked s s' ack win sent) (h : s.SendBounds)
    (hpos : 0 < (ack - s.sendUna).toInt) (hle : (ack - s.sendUna).toInt ≤ s.maxOff)
    (hsent : sent ≤ (ack - s.sendUna).toInt) (hwin : 0 ≤ win) (hwin' : win < 2 ^ 16) :
    s'.SendBounds := by
  have hmax := he.maxOff h hpos hle
  have hnext := he.nextOff h hpos hle
  have hused := he.used
  have hq := h.queued_lt
  have hq0 : 0 ≤ s.queued := Int.natCast_nonneg _
  have hmle := h.max_le
  have hnle := h.next_le
  have hw0 := h.win_nonneg
  have hw := h.win_lt
  have hwins := he.win
  exact ⟨by omega, by omega, by omega, he.mss h.mss_nonneg, he.asb h.asb_le, by omega, by omega,
    by omega, by omega⟩

end Acked

/-! ## The checks -/

theorem trim_flags (s : StreamReceiver) (g : Segment) :
    (s.trim g).2.1.flag.ack = g.flag.ack ∧
      ((s.trim g).2.1.flag.fin = true → g.flag.fin = true) := by
  have hsyn : (dropSyn g).flag.ack = g.flag.ack ∧ (dropSyn g).flag.fin = g.flag.fin := by
    unfold dropSyn
    split <;> exact ⟨rfl, rfl⟩
  have hfront : ∀ (g : Segment) drop, (dropFront g drop).flag.ack = g.flag.ack ∧
      ((dropFront g drop).flag.fin = true → g.flag.fin = true) := by
    intro g drop
    unfold dropFront
    simp only
    split <;> split
    all_goals simp
  have hleft : (s.trimLeft g).flag.ack = g.flag.ack ∧
      ((s.trimLeft g).flag.fin = true → g.flag.fin = true) := by
    unfold trimLeft
    simp only
    split
    · obtain ⟨hack, hfin⟩ := hfront (dropSyn g)
        (if g.flag.syn then (s.recvNext - g.seq).toInt - 1 else (s.recvNext - g.seq).toInt)
      exact ⟨hack.trans hsyn.1, fun h => hsyn.2 ▸ hfin h⟩
    · exact ⟨rfl, id⟩
  have hright : ∀ g : Segment, (s.trimRight g).flag.ack = g.flag.ack ∧
      ((s.trimRight g).flag.fin = true → g.flag.fin = true) := by
    intro g
    unfold trimRight dropBack
    simp only
    split
    · exact ⟨rfl, fun h => (nomatch h)⟩
    · exact ⟨rfl, id⟩
  obtain ⟨hack, hfin⟩ := hright (s.trimLeft g)
  have hboth : (s.trimRight (s.trimLeft g)).flag.ack = g.flag.ack ∧
      ((s.trimRight (s.trimLeft g)).flag.fin = true → g.flag.fin = true) :=
    ⟨hack.trans hleft.1, fun h => hleft.2 (hfin h)⟩
  unfold trim
  simp only
  split
  · exact hboth
  · split <;> exact hboth

/-- A segment that passes the checks acknowledges nothing that was not sent. -/
theorem check_go {hdr : TCPHdr} {m : List UInt8} {err : Option Errno} {g : Segment}
    {s' : StreamReceiver} (h : s.check hdr m err = .go g s') :
    SameInput s s' ∧ ¬ seqLt s.sendMax hdr.ack ∧ hdr.flag.ack = true ∧ hdr.flag.rst = false := by
  have htrim : SameInput s (s.trim (segment hdr m)).2.2 := ⟨trim_same s _, trim_state s _⟩
  obtain ⟨hack, -⟩ := trim_flags s (segment hdr m)
  unfold check at h
  simp only at h
  generalize s.trim (segment hdr m) = t at htrim hack h
  obtain ⟨accepted, g', s1⟩ := t
  simp only at htrim hack h
  obtain ⟨hopt, hoptState⟩ := option_same s1 hdr
  split at h
  · cases h
  · rename_i hrst
    split at h
    · cases h
    · split at h
      · cases h
      · split at h
        · cases h
        · rename_i hgack
          split at h
          · cases h
          · rename_i hmax
            split at h
            · cases h
              refine ⟨htrim.trans ⟨hopt, hoptState⟩, ?_, ?_, ?_⟩
              · rw [← htrim.same.max]
                exact hmax
              · rw [hack] at hgack
                simpa [segment] using hgack
              · simpa using hrst
            · cases h

/-- A segment that does not pass the checks leaves the state as it is, or closes the connection. -/
theorem check_over {hdr : TCPHdr} {m : List UInt8} {err : Option Errno} {reply : Bool}
    {s' : StreamReceiver} (h : s.check hdr m err = .stop reply s') :
    SameSend s s' ∧ (s'.state = s.state ∨ s'.state = .closed) := by
  have htrim : SameInput s (s.trim (segment hdr m)).2.2 := ⟨trim_same s _, trim_state s _⟩
  unfold check at h
  simp only at h
  generalize s.trim (segment hdr m) = t at htrim h
  obtain ⟨accepted, g', s1⟩ := t
  simp only at htrim h
  obtain ⟨hopt, hoptState⟩ := option_same s1 hdr
  split at h
  · cases h
    refine ⟨reset_same s _ _, ?_⟩
    unfold reset
    split
    · exact .inr (abort_state _)
    · exact .inl rfl
  · split at h
    · cases h
      exact ⟨htrim.same, .inl htrim.state⟩
    · split at h
      · cases h
        exact ⟨htrim.same.trans (abort_same s1), .inr (abort_state s1)⟩
      · split at h
        · cases h
          exact ⟨htrim.same, .inl htrim.state⟩
        · split at h
          · cases h
            exact ⟨htrim.same.trans ⟨rfl, rfl, rfl, rfl, rfl, rfl, id, id⟩, .inl htrim.state⟩
          · split at h
            · cases h
            · cases h
              exact ⟨htrim.same.trans hopt, .inl (hoptState.trans htrim.state)⟩

/-- A segment that passes the checks in `synReceived`. -/
theorem checkSyn_go {hdr : TCPHdr} {m : List UInt8} {g : Segment} {s' : StreamReceiver}
    (h : s.checkSyn hdr m = .go g s') :
    SameInput s s' ∧ g = (s.trim (segment hdr m)).2.1 ∧
      ¬ (hdr.flag.ack = true ∧ (seqLt hdr.ack s.sendUna ∨ seqLt s.sendMax hdr.ack)) := by
  have htrim : SameInput s (s.trim (segment hdr m)).2.2 := ⟨trim_same s _, trim_state s _⟩
  unfold checkSyn at h
  simp only at h
  split at h
  · cases h
  · rename_i hrange
    split at h
    · cases h
    · split at h
      · cases h
      · split at h
        · cases h
        · split at h
          · cases h
          · cases h
            exact ⟨htrim, rfl, hrange⟩

/-- One that does not. -/
theorem checkSyn_over {hdr : TCPHdr} {m : List UInt8} {reply : Bool} {s' : StreamReceiver}
    (h : s.checkSyn hdr m = .stop reply s') :
    SameSend s s' ∧ (s'.state = s.state ∨ s'.state = .closed) := by
  unfold checkSyn at h
  simp only at h
  split at h
  · cases h
    exact ⟨.refl s, .inl rfl⟩
  · split at h
    · cases h
      exact ⟨.refl s, .inl rfl⟩
    · split at h
      · cases h
        refine ⟨reset_same s _ _, ?_⟩
        unfold reset
        split
        · exact .inr (abort_state _)
        · exact .inl rfl
      · split at h
        · cases h
          exact ⟨trim_same s _, .inl (trim_state s _)⟩
        · split at h
          · cases h
            exact ⟨(trim_same s _).trans (abort_same _), .inr (abort_state _)⟩
          · cases h

end EsOs.Net.StreamReceiver
