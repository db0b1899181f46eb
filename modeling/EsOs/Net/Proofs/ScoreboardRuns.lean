import Mathlib
import EsOs.Net.Proofs.Close
import EsOs.Net.Proofs.Scoreboard

/-! # Runs that keep the scoreboard in order

Acknowledgements and SACK options in any order, with outputs, timeouts, writes and everything else
in between. An acknowledgement moves `sendUna` alone: holes it passes stay where they are. -/

namespace EsOs.Net

open EsOs.Lib StreamReceiver

variable {s s' s'' : StreamReceiver}

/-! ## What does not touch the scoreboard -/

/-- The scoreboard and what is counted of it are the same. -/
structure SameBoard (s s' : StreamReceiver) : Prop where
  scoreboard : s'.scoreboard = s.scoreboard
  rxmitData : s'.rxmitData = s.rxmitData
  lastSack : s'.lastSack = s.lastSack
  hole : s'.hole = s.hole

theorem SameBoard.refl (s : StreamReceiver) : SameBoard s s := ⟨rfl, rfl, rfl, rfl⟩

theorem SameBoard.trans (h : SameBoard s s') (h' : SameBoard s' s'') : SameBoard s s'' :=
  ⟨h'.scoreboard.trans h.scoreboard, h'.rxmitData.trans h.rxmitData,
    h'.lastSack.trans h.lastSack, h'.hole.trans h.hole⟩

theorem startRxmitTimer_board (s : StreamReceiver) : SameBoard s s.startRxmitTimer := by
  unfold startRxmitTimer
  split <;> exact ⟨rfl, rfl, rfl, rfl⟩

theorem startAckTimer_board (s : StreamReceiver) : SameBoard s s.startAckTimer := by
  unfold startAckTimer
  split <;> exact ⟨rfl, rfl, rfl, rfl⟩

theorem abort_board (s : StreamReceiver) : SameBoard s s.abort := by
  have hset : SameBoard s (s.setState .closed) := by
    unfold setState
    split <;> exact ⟨rfl, rfl, rfl, rfl⟩
  exact hset.trans ⟨rfl, rfl, rfl, rfl⟩

theorem duplicateAck_board (s : StreamReceiver) (ack : TCPSeq) :
    SameBoard s (s.duplicateAck ack) := by
  unfold duplicateAck
  simp only
  repeat' split
  all_goals exact ⟨rfl, rfl, rfl, rfl⟩

theorem openWindow_board (s : StreamReceiver) (ack : TCPSeq) : SameBoard s (s.openWindow ack) := by
  unfold openWindow
  simp only
  repeat' split
  all_goals exact ⟨rfl, rfl, rfl, rfl⟩

theorem newAck_board (s : StreamReceiver) (ack : TCPSeq) : SameBoard s (s.newAck ack) := by
  unfold newAck
  simp only
  repeat' split
  all_goals first
    | exact ⟨rfl, rfl, rfl, rfl⟩
    | refine SameBoard.trans ?_ (openWindow_board _ _)
      exact ⟨rfl, rfl, rfl, rfl⟩

theorem ack_board (s : StreamReceiver) (seq ack : TCPSeq) (win sent len : Int) :
    SameBoard s (s.ack seq ack win sent len).2 := by
  unfold StreamReceiver.ack
  split
  · split
    · exact ⟨rfl, rfl, rfl, rfl⟩
    · split
      · exact .refl s
      · exact duplicateAck_board s ack
  · simp only
    have hadv : SameBoard (s.newAck ack) ((s.newAck ack).advanceUna ack) := by
      unfold advanceUna
      simp only
      split <;> exact ⟨rfl, rfl, rfl, rfl⟩
    have h1 := (newAck_board s ack).trans hadv
    generalize (s.newAck ack).advanceUna ack = s1 at h1 ⊢
    generalize hsent : (if decide ((s1.sendRing.getUsed : Int) < sent) = true then sent - 1
      else sent) = sent'
    have h2 : SameBoard s1 (if 0 < sent' ∧ 0 < (s1.sendRing.getUsed : Int) then
        { s1 with sendRing := (s1.sendRing.skip (min sent' s1.sendRing.getUsed)).2 } else s1) := by
      split <;> exact ⟨rfl, rfl, rfl, rfl⟩
    have h3 := h1.trans h2
    generalize (if 0 < sent' ∧ 0 < (s1.sendRing.getUsed : Int) then
        { s1 with sendRing := (s1.sendRing.skip (min sent' s1.sendRing.getUsed)).2 } else s1)
      = s2 at h3 ⊢
    have h4 : SameBoard s2 (if s2.rttTiming ≠ 0 ∧ seqLt s2.rttSeq ack then
        s2.updateRto (s2.now - s2.rttTiming) else s2) := by
      split <;> exact ⟨rfl, rfl, rfl, rfl⟩
    have h5 := h3.trans h4
    generalize (if s2.rttTiming ≠ 0 ∧ seqLt s2.rttSeq ack then
        s2.updateRto (s2.now - s2.rttTiming) else s2) = s3 at h5 ⊢
    have h6 : SameBoard s3 (s3.updateSendWin seq ack win) := by
      unfold updateSendWin
      split <;> exact ⟨rfl, rfl, rfl, rfl⟩
    have h7 : SameBoard (s3.updateSendWin seq ack win)
        (s3.updateSendWin seq ack win).checkPersist := by
      unfold checkPersist
      simp only
      repeat' split
      all_goals exact ⟨rfl, rfl, rfl, rfl⟩
    exact (h5.trans h6).trans h7

namespace StreamReceiver

/-- The scoreboard is in order under another state of the sender that agrees on it. -/
theorem Board.same (h : s.Board) (hscore : s'.scoreboard = s.scoreboard)
    (hdata : s'.rxmitData = s.rxmitData) (hlast : s'.lastSack = s.lastSack)
    (huna : s'.sendUna = s.sendUna) (hmax : s.maxOff ≤ s'.maxOff) : s'.Board := by
  refine ⟨⟨?_, fun hsome => ?_⟩, ?_⟩
  · rw [hscore]
    exact h.holes.length
  · rw [hscore] at hsome
    obtain ⟨hchain, hbound⟩ := h.holes.chained hsome
    rw [hscore, hlast, huna]
    exact ⟨hchain, Int.le_trans hbound hmax⟩
  · rw [hscore, hdata]
    exact h.counted

theorem Board.empty (hnone : s.scoreboard = []) (hzero : s.rxmitData = 0) : s.Board :=
  ⟨⟨by rw [hnone]; decide, fun hsome => absurd hnone hsome⟩, by rw [hnone, hzero]; rfl⟩

end StreamReceiver

/-- Counted from a later number, the offsets are that much less. -/
theorem offset_from {una ack x : TCPSeq} (hack : 0 ≤ offset una ack)
    (hx : offset una ack ≤ offset una x) : offset ack x = offset una x - offset una ack := by
  obtain ⟨turns, hsub, hlo, hhi⟩ := sub_toInt una x ack
  have := offset_bounds una x
  have hself : offset ack x = (x - ack).toInt := rfl
  omega

/-- A chain whose holes all start at or after `ack` is a chain from there. -/
theorem Chained.from {una ack : TCPSeq} {lo hi : Int} {holes : List SackHole}
    (h : Chained una lo holes hi) (hack : 0 ≤ offset una ack) (hhi : offset una ack ≤ hi)
    (hholes : ∀ hole ∈ holes, offset una ack ≤ offset una hole.start) :
    Chained ack (max (lo - offset una ack) 0) holes (hi - offset una ack) := by
  induction holes generalizing lo with
  | nil =>
    have hle : lo ≤ hi := h
    simp only [Chained]
    omega
  | cons hole holes ih =>
    obtain ⟨h1, h2, h3, h4, h5⟩ := h
    obtain ⟨hfirst, hholes⟩ := List.forall_mem_cons.mp hholes
    have estart := offset_from hack hfirst
    have efinish := offset_from (x := hole.finish) hack (by omega)
    have erxmit := offset_from (x := hole.rxmit) hack (by omega)
    have hrest := ih h5 hholes
    refine ⟨by omega, by omega, by omega, by omega, hrest.mono (by omega) (Int.le_refl _)⟩

namespace StreamReceiver

/-- An acknowledgement that passes no hole keeps the scoreboard in order. -/
theorem Board.acked (h : s.Board) {hdr : TCPHdr} {g : Segment} (hb : s.SendBounds)
    (hfar : hdr.ack - s.sendUna ≠ 0x80000000#32) (hmax : ¬ seqLt s.sendMax hdr.ack)
    (hholes : seqLt s.sendUna hdr.ack → ∀ hole ∈ s.scoreboard, seqLe hdr.ack hole.start) :
    (s.ackSegment hdr g).2.Board := by
  have hsame : SameBoard s (s.ackSegment hdr g).2 := ack_board s _ _ _ _ _
  rcases ack_cases s g.seq hdr.ack hdr.win.toNat (hdr.ack - s.sendUna).toInt g.len with
    ⟨-, hinput⟩ | ⟨hnew, he, -⟩
  · exact h.same hsame.scoreboard hsame.rxmitData hsame.lastSack hinput.same.una
      (Int.le_of_eq hinput.same.maxOff.symm)
  · obtain ⟨hpos, hle⟩ := accepted_offset hb hfar hnew hmax
    have hoff : offset s.sendUna hdr.ack = (hdr.ack - s.sendUna).toInt := rfl
    have hself := offset_self s.sendUna
    have hlt : seqLt s.sendUna hdr.ack :=
      (@offset_lt s.sendUna _ _ (by omega) (by omega)).mpr (by omega)
    have hmaxOff := he.maxOff hb hpos hle
    have huna : (s.ackSegment hdr g).2.sendUna = hdr.ack := he.una
    refine ⟨⟨?_, fun hsome => ?_⟩, ?_⟩
    · rw [hsame.scoreboard]
      exact h.holes.length
    · rw [hsame.scoreboard] at hsome
      obtain ⟨hchain, hbound⟩ := h.holes.chained hsome
      have hstarts : ∀ hole ∈ s.scoreboard,
          offset s.sendUna hdr.ack ≤ offset s.sendUna hole.start := by
        intro hole hmem
        have hm := hchain.mem hmem
        exact (offset_le (by omega) (by omega)).mp (hholes hlt hole hmem)
      have hlast : offset s.sendUna hdr.ack ≤ offset s.sendUna s.lastSack := by
        obtain ⟨hole, hmem⟩ := List.exists_mem_of_ne_nil _ hsome
        have hm := hchain.mem hmem
        have := hstarts hole hmem
        omega
      have hfrom := hchain.from (by omega) hlast hstarts
      rw [hsame.scoreboard, hsame.lastSack, huna, offset_from (by omega) hlast]
      refine ⟨hfrom.mono (by omega) (Int.le_refl _), ?_⟩
      have : (s.ackSegment hdr g).2.maxOff = s.maxOff - (hdr.ack - s.sendUna).toInt := hmaxOff
      omega
    · rw [hsame.scoreboard, hsame.rxmitData]
      exact h.counted

end StreamReceiver

/-! ## Outputs -/

namespace StreamReceiver

/-- The hole that an output retransmits: the `i`th of the scoreboard. -/
structure Retransmits (s pre : StreamReceiver) (i : Nat) (hole : SackHole) : Prop where
  current : pre.hole = some i
  get : s.scoreboard[i]? = some hole
  wanted : s.wanted hole = true
  scoreboard : pre.scoreboard = s.scoreboard
  rxmitData : pre.rxmitData = s.rxmitData
  lastSack : pre.lastSack = s.lastSack
  next : pre.sendNext = hole.rxmit
  dupAcks : rxmitThresh ≤ pre.dupAcks
  sack : pre.sack = true
  same : pre.sack = s.sack
  mss : pre.mss = s.mss
  asb : pre.asb = s.asb

/-- What is known of the scoreboard when the octets to send are counted: it is as it was or empty,
    and no hole is current, or one is. -/
def Foreseen (s pre : StreamReceiver) (sendable : Int) : Prop :=
  (pre.hole = none ∧ (pre.scoreboard = s.scoreboard ∧ pre.rxmitData = s.rxmitData ∧
      pre.lastSack = s.lastSack ∨ pre.scoreboard = [] ∧ pre.rxmitData = 0)) ∨
    ∃ i hole, Retransmits s pre i hole ∧ 0 ≤ sendable ∧
      sendable ≤ (hole.finish - hole.rxmit).toInt

theorem recoverNext_board (hnone : s.hole = none) :
    SameBoard s s.recoverNext ∨ ∃ i hole, Retransmits s s.recoverNext i hole := by
  unfold recoverNext
  split
  · rename_i hdup
    split
    · rename_i hsack
      simp only
      cases hfind : s.getSackHole with
      | none =>
        have hcur : currentHole { s with hole := none } = none := rfl
        rw [hcur]
        exact .inl ⟨rfl, rfl, rfl, hnone.symm⟩
      | some i =>
        obtain ⟨hlt, hwanted, -⟩ := List.findIdx?_eq_some_iff_getElem.mp hfind
        have hget : s.scoreboard[i]? = some s.scoreboard[i] := List.getElem?_eq_getElem hlt
        have hcur : currentHole { s with hole := some i } = some s.scoreboard[i] := hget
        rw [hcur]
        exact .inr ⟨i, s.scoreboard[i], rfl, hget, hwanted, rfl, rfl, rfl, rfl, hdup, hsack, rfl,
          rfl, rfl⟩
    · split <;> exact .inl ⟨rfl, rfl, rfl, rfl⟩
  · exact .inl (.refl s)

/-- The octets of a hole of a scoreboard in order: they are in the send buffer. -/
theorem Board.hole_octets (h : s.Board) (hb : s.SendBounds) {hole : SackHole}
    (hmem : hole ∈ s.scoreboard) (hwanted : s.wanted hole = true) :
    0 ≤ min (s.queued - offset s.sendUna hole.rxmit) (hole.finish - hole.rxmit).toInt := by
  obtain ⟨hchain, hbound⟩ := h.holes.chained (List.ne_nil_of_mem hmem)
  have hm := hchain.mem hmem
  have hpos : 0 < (hole.finish - hole.rxmit).toInt := by
    unfold StreamReceiver.wanted at hwanted
    simp only [Bool.and_eq_true, decide_eq_true_eq] at hwanted
    exact hwanted.1.1
  have hroom : (hole.finish - hole.rxmit).toInt
      = offset s.sendUna hole.finish - offset s.sendUna hole.rxmit :=
    sub_of_le (by omega) (by omega)
  have := hb.max_le
  omega

theorem getSendable_board (h : s.Board) (hb : s.SendBounds) (hnone : s.hole = none) :
    Foreseen s s.getSendable.2 s.getSendable.1 := by
  unfold getSendable
  simp only
  by_cases hpersist : s.sendWin = 0 ∧ 0 < s.sendRing.getUsed
  · -- the persist state gives the scoreboard up
    have hempty : s.persistState.scoreboard = [] ∧ s.persistState.rxmitData = 0 ∧
        s.persistState.hole = none := by
      unfold persistState
      rw [if_pos hpersist]
      exact ⟨rfl, rfl, rfl⟩
    obtain ⟨hboard, hzero, hhole⟩ := hempty
    rcases recoverNext_board hhole with hsame | ⟨i, hole, hr⟩
    · have hcur : s.persistState.recoverNext.currentHole = none := by
        unfold currentHole
        rw [hsame.hole, hhole]
        rfl
      rw [hcur]
      exact .inl ⟨hsame.hole.trans hhole, .inr ⟨hsame.scoreboard.trans hboard,
        hsame.rxmitData.trans hzero⟩⟩
    · have hget := hr.get
      rw [hboard] at hget
      cases hget
  · have hkept : s.persistState = s := by
      unfold persistState
      rw [if_neg hpersist]
    rw [hkept]
    rcases recoverNext_board hnone with hsame | ⟨i, hole, hr⟩
    · have hcur : s.recoverNext.currentHole = none := by
        unfold currentHole
        rw [hsame.hole, hnone]
        rfl
      rw [hcur]
      exact .inl ⟨hsame.hole.trans hnone, .inl ⟨hsame.scoreboard, hsame.rxmitData,
        hsame.lastSack⟩⟩
    · have hcur : s.recoverNext.currentHole = some hole := by
        unfold currentHole
        rw [hr.current, hr.scoreboard]
        exact hr.get
      have hprep := recoverNext_prepared s
      rw [hcur]
      have hoctets := h.hole_octets hb (List.mem_of_getElem? hr.get) hr.wanted
      refine .inr ⟨i, hole, hr, ?_, Int.min_le_right _ _⟩
      simp only [hprep.ring, hr.next, hprep.una]
      exact hoctets

/-- The condition for an output that retransmits: the octets to retransmit lie in the send window,
    and a segment has room for the options. -/
structure OutputOk (s : StreamReceiver) (stack : Flags) : Prop where
  cWin : -2 ^ 29 ≤ s.cWin
  mss : s.countOptionSize stack ≤ s.mss
  window : ∀ hole ∈ s.scoreboard, s.wanted hole = true →
    seqLe hole.rxmit (s.sendUna.add s.sendWin)

/-- The holes of a scoreboard in order lie in what is outstanding. -/
theorem Board.sane (h : s.Board) (hc : -2 ^ 29 ≤ s.cWin) : s.Sane := by
  refine ⟨hc, fun hole hmem _ => ?_⟩
  obtain ⟨hchain, hbound⟩ := h.holes.chained (List.ne_nil_of_mem hmem)
  have hm := hchain.mem hmem
  have hoff : offset s.sendUna hole.rxmit = (hole.rxmit - s.sendUna).toInt := rfl
  omega

/-- The octets that `send` takes of a hole. -/
theorem sendLength_hole {pre : StreamReceiver} {i : Nat} {hole : SackHole} {sendable : Int}
    {flag : Flags} (h : s.Board) (hb : s.SendBounds) (hprep : SamePrepared s pre)
    (hr : Retransmits s pre i hole)
    (hmss : pre.countOptionSize flag ≤ pre.mss)
    (hwindow : seqLe hole.rxmit (s.sendUna.add s.sendWin)) (hsendable : 0 ≤ sendable) :
    0 ≤ ((pre.probeWindow flag).2.sendLength sendable (pre.probeWindow flag).1 flag).1 := by
  have hthresh : rxmitThresh ≤ pre.dupAcks := hr.dupAcks
  have hlimited : ¬ pre.dupAcks = limitedThresh := by
    have h3 : rxmitThresh = 3 := rfl
    have h2 : limitedThresh = 2 := rfl
    omega
  have hopen : pre.openedWindow = s.sendWin := by
    unfold openedWindow
    rw [if_pos (.inr ⟨hthresh, hr.sack⟩), hprep.win]
  have hmem := List.mem_of_getElem? hr.get
  obtain ⟨hchain, hbound⟩ := h.holes.chained (List.ne_nil_of_mem hmem)
  have hm := hchain.mem hmem
  have hw0 := hb.win_nonneg
  have hw := hb.win_lt
  have hadd : ∀ win : Int, 0 ≤ win → win < 2 ^ 17 →
      offset s.sendUna (s.sendUna.add win) = win := fun win h0 h1 =>
    offset_add _ (by omega) (by omega)
  have hreach : offset s.sendUna hole.rxmit ≤ s.sendWin := by
    have := (@offset_le s.sendUna _ _ (by omega)
      (by rw [hadd _ hw0 (by omega)]; exact hw0)).mp hwindow
    rwa [hadd _ hw0 (by omega)] at this
  have huse : ∀ (t : StreamReceiver) (win : Int), t.sendUna = pre.sendUna →
      t.sendNext = pre.sendNext → t.dupAcks = pre.dupAcks → s.sendWin ≤ win → win < 2 ^ 17 →
      0 ≤ t.useable win := by
    intro t win htuna htnext htdup hle hlt
    have hlim : ¬ t.dupAcks = limitedThresh := htdup ▸ hlimited
    unfold useable
    simp only
    rw [if_neg hlim, htuna, htnext, hprep.una, hr.next]
    split
    · exact Int.le_refl 0
    · rw [@sub_of_le s.sendUna _ _ (by omega) (by rw [hadd _ (by omega) hlt]; omega),
        hadd _ (by omega) hlt]
      omega
  have hprobe : ∃ win t, pre.probeWindow flag = (win, t) ∧ s.sendWin ≤ win ∧ win < 2 ^ 17 ∧
      t.sendUna = pre.sendUna ∧ t.sendNext = pre.sendNext ∧ t.dupAcks = pre.dupAcks ∧
      t.mss = pre.mss ∧ t.countOptionSize flag = pre.countOptionSize flag := by
    unfold probeWindow
    rw [hopen]
    split
    · rename_i hzero
      exact ⟨_, _, rfl, by omega, by omega, rfl, rfl, rfl, rfl, rfl⟩
    · exact ⟨_, _, rfl, Int.le_refl _, by omega, rfl, rfl, rfl, rfl, rfl⟩
  obtain ⟨win, t, heq, hle, hlt, htuna, htnext, htdup, htmss, htcount⟩ := hprobe
  have := huse t win htuna htnext htdup hle hlt
  rw [heq]
  unfold sendLength
  simp only [htmss, htcount]
  omega

theorem raiseSendMax_board (s : StreamReceiver) (seq : TCPSeq) :
    SameBoard s (s.raiseSendMax seq) := by
  unfold raiseSendMax
  split <;> exact ⟨rfl, rfl, rfl, rfl⟩

theorem probeWindow_board (s : StreamReceiver) (flag : Flags) :
    SameBoard s (s.probeWindow flag).2 := by
  unfold probeWindow
  split <;> exact ⟨rfl, rfl, rfl, rfl⟩

theorem canSend_board (s : StreamReceiver) (len mss : Int) (flag : Flags) :
    SameBoard s (s.canSend len mss flag).2 := by
  unfold canSend updateWindow
  simp only
  repeat' split
  all_goals exact ⟨rfl, rfl, rfl, rfl⟩

theorem postpone_board (s : StreamReceiver) (len : Int) : SameBoard s (s.postpone len) := by
  unfold postpone
  simp only
  have h1 : SameBoard s (if seqLt s.sendNext s.onxt then { s with sendNext := s.onxt } else s) := by
    split <;> exact ⟨rfl, rfl, rfl, rfl⟩
  generalize (if seqLt s.sendNext s.onxt then { s with sendNext := s.onxt } else s) = s1 at h1 ⊢
  have h2 : SameBoard s1 (if 0 < len then s1.startRxmitTimer else s1) := by
    split
    · exact startRxmitTimer_board s1
    · exact .refl s1
  generalize (if 0 < len then s1.startRxmitTimer else s1) = s2 at h2 ⊢
  have h3 : SameBoard s2 (if seqLt s2.recvAcked s2.recvNext then s2.startAckTimer else s2) := by
    split
    · exact startAckTimer_board s2
    · exact .refl s2
  exact (h1.trans h2).trans h3

/-- `advanceHole` on a state with the same scoreboard. -/
theorem advanceHole_board (h : SameBoard s s') (len : Int) :
    SameBoard (s.advanceHole len) (s'.advanceHole len) := by
  unfold advanceHole
  rw [h.hole]
  cases s.hole with
  | none => exact h
  | some i =>
    refine ⟨?_, ?_, h.lastSack, rfl⟩
    · simp only [h.scoreboard]
    · simp only [h.rxmitData]

/-- `send` leaves the scoreboard, or counts the octets it sends to the current hole. -/
theorem send_board (s : StreamReceiver) (sendable : Int) (flag : Flags) (oob : Bool) :
    SameBoard s (s.send sendable flag oob).2 ∨
      SameBoard (s.advanceHole ((s.probeWindow flag).2.sendLength sendable
        (s.probeWindow flag).1 flag).1) (s.send sendable flag oob).2 := by
  have hprobe := probeWindow_board s flag
  unfold send
  simp only
  generalize (s.probeWindow flag).2 = s1 at hprobe ⊢
  generalize s1.sendLength sendable (s.probeWindow flag).1 flag = lf
  obtain ⟨len, flag'⟩ := lf
  simp only
  split
  · exact .inl hprobe
  have hcan := hprobe.trans (canSend_board s1 len (s1.mss - s.countOptionSize flag) flag')
  generalize s1.canSend len (s1.mss - s.countOptionSize flag) flag' = can at hcan ⊢
  split
  · refine .inr ?_
    have hmake : SameBoard can.2 (can.2.makeSegment len flag' oob).2 := ⟨rfl, rfl, rfl, rfl⟩
    have hmade := hcan.trans hmake
    generalize (can.2.makeSegment len flag' oob) = made at hmade ⊢
    unfold sent
    simp only
    have hnext : SameBoard made.2 { made.2 with sendNext := made.2.sendNext.add len } :=
      ⟨rfl, rfl, rfl, rfl⟩
    have hraise := (hmade.trans hnext).trans (raiseSendMax_board _ made.1.seq)
    generalize raiseSendMax { made.2 with sendNext := made.2.sendNext.add len } made.1.seq = s2
      at hraise ⊢
    have htimer : SameBoard s2 (if s2.sendNext ≠ s2.sendUna then s2.startRxmitTimer else s2) := by
      split
      · exact startRxmitTimer_board s2
      · exact .refl s2
    have hdone := advanceHole_board (hraise.trans htimer) len
    exact ⟨hdone.scoreboard, hdone.rxmitData, hdone.lastSack, hdone.hole⟩
  · exact .inl (hcan.trans (postpone_board _ _))

theorem rxmitSum_modify {holes : List SackHole} {i : Nat} {hole : SackHole}
    {f : SackHole → SackHole} {len : Int} (hget : holes[i]? = some hole)
    (hf : ((f hole).rxmit - (f hole).start).toInt = (hole.rxmit - hole.start).toInt + len) :
    rxmitSum (holes.modify i f) = rxmitSum holes + len := by
  induction holes generalizing i with
  | nil => cases hget
  | cons first holes ih =>
    cases i with
    | zero =>
      obtain rfl : first = hole := by simpa using hget
      rw [List.modify_zero_cons]
      simp only [rxmitSum, List.map_cons, List.sum_cons, hf]
      omega
    | succ i =>
      have hrest := ih (i := i) (by simpa using hget)
      rw [List.modify_succ_cons]
      simp only [rxmitSum, List.map_cons, List.sum_cons] at hrest ⊢
      omega

/-- Octets of one hole are retransmitted. -/
theorem Board.retransmitted (h : s.Board) {i : Nat} {hole : SackHole} {len : Int}
    (hget : s.scoreboard[i]? = some hole) (hlen : 0 ≤ len)
    (hle : len ≤ (hole.finish - hole.rxmit).toInt)
    (hboard : s'.scoreboard
      = s.scoreboard.modify i fun hole => { hole with rxmit := hole.rxmit.add len })
    (hdata : s'.rxmitData = s.rxmitData + len) (hlast : s'.lastSack = s.lastSack)
    (huna : s'.sendUna = s.sendUna) (hmax : s.maxOff ≤ s'.maxOff) : s'.Board := by
  have hmem := List.mem_of_getElem? hget
  obtain ⟨hchain, hbound⟩ := h.holes.chained (List.ne_nil_of_mem hmem)
  have hm := hchain.mem hmem
  have hbounds := offset_bounds s.sendUna hole.finish
  have hroom : (hole.finish - hole.rxmit).toInt
      = offset s.sendUna hole.finish - offset s.sendUna hole.rxmit :=
    sub_of_le (by omega) (by omega)
  have hmoved : offset s.sendUna (hole.rxmit.add len) = offset s.sendUna hole.rxmit + len := by
    have heq : hole.rxmit.add len = s.sendUna.add (offset s.sendUna hole.rxmit + len) := by
      rw [← add_add]
      exact congrArg (TCPSeq.add · len) (eq_add s.sendUna hole.rxmit)
    rw [heq, offset_add _ (by omega) (by omega)]
  refine ⟨⟨?_, fun _ => ⟨?_, ?_⟩⟩, ?_⟩
  · rw [hboard, List.length_modify]
    exact h.holes.length
  · rw [hboard, hlast, huna]
    refine hchain.modify (fun _ => rfl) (fun _ => rfl) fun first hfirst => ?_
    obtain rfl : hole = first := Option.some.inj (hget.symm.trans hfirst)
    simp only [hmoved]
    omega
  · rw [hlast, huna]
    exact Int.le_trans hbound hmax
  · rw [hboard, hdata, rxmitSum_modify hget, ← h.counted]
    simp only
    rw [@sub_of_le s.sendUna _ _ (by omega) (by omega), hmoved,
      @sub_of_le s.sendUna _ _ (by omega) (by omega)]
    omega

/-- A `send` of the prepared connection keeps the bounds and the scoreboard. -/
theorem Board.send (h : s.Board) (hb : s.SendBounds) {pre : StreamReceiver} {sendable : Int}
    {flag : Flags} (oob : Bool) (hprep : SamePrepared s pre) (hready : Ready s pre sendable flag)
    (hforeseen : Foreseen s pre sendable)
    (hwindow : ∀ hole ∈ s.scoreboard, s.wanted hole = true →
      seqLe hole.rxmit (s.sendUna.add s.sendWin))
    (hmss : pre.hole ≠ none → pre.countOptionSize flag ≤ pre.mss) :
    (pre.send sendable flag oob).2.SendBounds ∧ (pre.send sendable flag oob).2.Board := by
  have hsend : (pre.send sendable flag oob).2.SendBounds ∧
      s.maxOff ≤ (pre.send sendable flag oob).2.maxOff ∧
      (pre.send sendable flag oob).2.sendUna = s.sendUna := by
    rcases send_cases pre sendable flag oob with ⟨-, hs⟩ | ⟨g, -, he, hlen, -, -, hge⟩
    · refine ⟨hb.silent hprep hready hs, Int.le_of_eq ?_, hs.una.trans hprep.una⟩
      simp only [maxOff, hs.max, hs.una, hprep.max, hprep.una]
    · obtain ⟨hbounds, hmax⟩ := hb.emits hprep hready he hlen (hge hready.bounds hready.nonneg)
      exact ⟨hbounds, hmax, he.una.trans hprep.una⟩
  obtain ⟨hbounds, hmax, huna⟩ := hsend
  refine ⟨hbounds, ?_⟩
  have hsame := send_board pre sendable flag oob
  rcases hforeseen with ⟨hnone, hboard⟩ | ⟨i, hole, hr, hnonneg, hroom⟩
  · -- no hole is current
    have hkept : SameBoard pre (pre.send sendable flag oob).2 := by
      rcases hsame with hsame | hsame
      · exact hsame
      · have hadv : ∀ len, pre.advanceHole len = pre := fun len => by
          unfold advanceHole
          rw [hnone]
        rwa [hadv] at hsame
    rcases hboard with ⟨hscore, hdata, hlast⟩ | ⟨hscore, hdata⟩
    · exact h.same (hkept.scoreboard.trans hscore) (hkept.rxmitData.trans hdata)
        (hkept.lastSack.trans hlast) huna hmax
    · exact Board.empty (hkept.scoreboard.trans hscore) (hkept.rxmitData.trans hdata)
  · have hmem := List.mem_of_getElem? hr.get
    rcases hsame with hsame | hsame
    · exact h.same (hsame.scoreboard.trans hr.scoreboard) (hsame.rxmitData.trans hr.rxmitData)
        (hsame.lastSack.trans hr.lastSack) huna hmax
    · have hlen := sendLength_hole h hb hprep hr (hmss (by rw [hr.current]; simp))
        (hwindow hole hmem hr.wanted) hnonneg
      obtain ⟨hupper, -⟩ := sendLength_spec (pre.probeWindow flag).2 sendable
        (pre.probeWindow flag).1 flag
      generalize ((pre.probeWindow flag).2.sendLength sendable (pre.probeWindow flag).1 flag).1
        = len at hlen hupper hsame
      have hadv : pre.advanceHole len =
          { pre with
            scoreboard := pre.scoreboard.modify i fun hole => { hole with rxmit := hole.rxmit.add len }
            rxmitData := pre.rxmitData + len } := by
        unfold advanceHole
        rw [hr.current]
      rw [hadv] at hsame
      refine h.retransmitted hr.get hlen (by omega) ?_ ?_ (hsame.lastSack.trans hr.lastSack) huna
        hmax
      · rw [hsame.scoreboard, hr.scoreboard]
      · rw [hsame.rxmitData, hr.rxmitData]

/-- The connection is past the handshake, or closed. -/
def PastHandshake (s : StreamReceiver) : Prop := s.state ≠ .synSent ∧ s.state ≠ .synReceived

/-- An output keeps the bounds and the scoreboard. -/
theorem Board.output (h : s.Board) (hb : s.SendBounds) (hpast : s.PastHandshake) {stack : Flags}
    (hok : OutputOk s stack) (oob : Bool) :
    (s.output stack oob).2.SendBounds ∧ (s.output stack oob).2.Board := by
  have hsane := h.sane hok.cWin
  have hbegun := begun_bounds hb hsane
  have hbegunBoard : s.begun.Board := h.same rfl rfl rfl rfl (Int.le_refl _)
  have hdata := (begun_prepared s).trans (getSendable_prepared s.begun)
  have hforeseen : Foreseen s s.begun.getSendable.2 s.begun.getSendable.1 := by
    rcases getSendable_board hbegunBoard hbegun.sound rfl with
      hnone | ⟨i, hole, hr, hsendable⟩
    · exact .inl hnone
    · exact .inr ⟨i, hole, ⟨hr.current, hr.get, hr.wanted, hr.scoreboard, hr.rxmitData,
        hr.lastSack, hr.next, hr.dupAcks, hr.sack, hr.same, hr.mss, hr.asb⟩, hsendable⟩
  have hcount : ∀ {pre : StreamReceiver} {sendable : Int} {flag : Flags},
      Foreseen s pre sendable → (flag = {} ∨ flag = stack) → pre.hole ≠ none →
      pre.countOptionSize flag ≤ pre.mss := by
    intro pre sendable flag hforeseen hflag hcurrent
    rcases hforeseen with ⟨hnone, -⟩ | ⟨i, hole, hr, -⟩
    · exact absurd hnone hcurrent
    rcases hflag with rfl | rfl
    · have hzero : pre.countOptionSize {} = 0 := by
        unfold countOptionSize
        simp
      rw [hzero, hr.mss]
      exact hb.mss_nonneg
    · have hsame : pre.countOptionSize flag = s.countOptionSize flag := by
        unfold countOptionSize
        rw [hr.same, hr.asb]
      rw [hsame, hr.mss]
      exact hok.mss
  have hout : s.output stack oob = State.output s.begun stack oob := rfl
  have hbegunState : s.begun.state = s.state := rfl
  rw [hout]
  cases hstate : s.state
  case closed | listen =>
    rw [State.output, hbegunState, hstate]
    exact ⟨hbegun.sound, hbegunBoard⟩
  case synSent => exact absurd hstate hpast.1
  case synReceived => exact absurd hstate hpast.2
  case established | finWait2 | closeWait =>
    rw [State.output, hbegunState, hstate]
    exact h.send hb oob hdata (ready_data hb hsane {}) hforeseen hok.window
      (hcount hforeseen (.inl rfl))
  case finWait1 | lastAck | closing | timeWait =>
    rw [State.output, hbegunState, hstate]
    have hready := ready_fin hb hsane stack
    simp only
    unfold getSendableWithFin at hready ⊢
    simp only at hready ⊢
    generalize s.begun.getSendable = prepared at hdata hforeseen hready ⊢
    obtain ⟨sendable, pre⟩ := prepared
    simp only at hdata hforeseen hready ⊢
    by_cases hneg : sendable < 0
    · simp only [if_pos hneg] at hready ⊢
      rcases hforeseen with hnone | ⟨i, hole, -, hnonneg, -⟩
      · exact h.send hb oob hdata hready (.inl hnone) hok.window fun hc => absurd hnone.1 hc
      · omega
    · simp only [if_neg hneg] at hready ⊢
      cases hhole : pre.hole with
      | none =>
        simp only [hhole, Option.isNone_none, if_true] at hready ⊢
        rcases hforeseen with hnone | ⟨i, hole, hr, -⟩
        · exact h.send hb oob hdata hready (.inl hnone) hok.window fun hc => absurd hhole hc
        · rw [hr.current] at hhole
          cases hhole
      | some i =>
        simp only [hhole, Option.isNone_some, Bool.false_eq_true, if_false] at hready ⊢
        exact h.send hb oob hdata hready hforeseen hok.window (hcount hforeseen (.inr rfl))

/-! ## Runs -/

/-- What happens to a sender whose scoreboard is followed: an acknowledgement that passed the checks
    of an `input`, the blocks of a SACK option, an output, a timeout, a write of the user, or
    anything else that leaves the send sequence and the scoreboard alone. -/
inductive SenderOp
  | ack (hdr : TCPHdr) (g : Segment)
  | sack (ack : TCPSeq) (blocks : List (TCPSeq × TCPSeq))
  | output (stack : Flags) (oob : Bool)
  | expired
  | write (data : List UInt8)
  | other (next : StreamReceiver)

/-- The checks that come before a step. -/
def Allowed (s : StreamReceiver) : SenderOp → Prop
  | .ack hdr _ => ¬ seqLt s.sendMax hdr.ack
  | .other next => SameSend s next ∧ SameBoard s next ∧ next.PastHandshake
  | _ => True

/-- The send sequence between the steps. -/
structure Sender (s : StreamReceiver) : Prop where
  bounds : s.SendBounds
  fits : s.sendRing.used ≤ s.sendRing.size
  size : s.sendRing.size < 2 ^ 30
  past : s.PastHandshake

theorem PastHandshake.closed (h : s.state = .closed) : s.PastHandshake := by
  unfold PastHandshake
  rw [h]
  exact ⟨by decide, by decide⟩

theorem abort_closed (s : StreamReceiver) : s.abort.state = .closed := by
  unfold StreamReceiver.abort StreamReceiver.setState
  split
  · rename_i hclosed
    exact hclosed
  · rfl

theorem Sender.input (h : s.Sender) (hsame : SameInput s s') : s'.Sender :=
  ⟨hsame.same.bounds h.bounds, hsame.same.ring ▸ h.fits, hsame.same.ring ▸ h.size,
    by unfold PastHandshake; rw [hsame.state]; exact h.past⟩

theorem Sender.abort (h : s.Sender) : s.abort.Sender :=
  ⟨(abort_same s).bounds h.bounds, (abort_same s).ring ▸ h.fits, (abort_same s).ring ▸ h.size,
    .closed (abort_closed s)⟩

theorem Board.abort (h : s.Board) : s.abort.Board :=
  h.same (abort_board s).scoreboard (abort_board s).rxmitData (abort_board s).lastSack
    (abort_same s).una (Int.le_of_eq (abort_same s).maxOff.symm)

end StreamReceiver

end EsOs.Net
