import Mathlib
import EsOs.Net.Proofs.SendFrame

/-! # What an output does to the send sequence

Sequence numbers are offsets from `sendUna`. A segment ends at most behind the last octet of the
send buffer, or one octet further when it carries SYN or FIN; when it ends inside the send window,
`sendMax` covers it afterwards. -/

namespace EsOs.Net.StreamReceiver

variable {s : StreamReceiver}

/-- The offset of `sendNext`. -/
def nextOff (s : StreamReceiver) : Int := (s.sendNext - s.sendUna).toInt

/-- The offset of `sendMax`: how many octets are not acknowledged. -/
def maxOff (s : StreamReceiver) : Int := (s.sendMax - s.sendUna).toInt

/-- The number of octets in the send buffer. -/
def queued (s : StreamReceiver) : Int := s.sendRing.used

theorem sendNext_eq (s : StreamReceiver) : s.sendNext = s.sendUna.add s.nextOff :=
  eq_add _ _

theorem sendMax_eq (s : StreamReceiver) : s.sendMax = s.sendUna.add s.maxOff :=
  eq_add _ _

/-- The congestion window has not run off below zero, and a hole that is to be retransmitted lies in
    what has been sent. -/
structure Sane (s : StreamReceiver) : Prop where
  cWin : -2 ^ 29 ≤ s.cWin
  holes : ∀ hole ∈ s.scoreboard, s.wanted hole = true →
    0 ≤ (hole.rxmit - s.sendUna).toInt ∧ (hole.rxmit - s.sendUna).toInt ≤ s.maxOff

/-- The bounds of the send sequence between the steps. -/
structure SendBounds (s : StreamReceiver) : Prop where
  queued_lt : s.queued < 2 ^ 30
  win_nonneg : 0 ≤ s.sendWin
  win_lt : s.sendWin < 2 ^ 16
  mss_nonneg : 0 ≤ s.mss
  asb_le : s.asb.length ≤ asbMax
  next_nonneg : 0 ≤ s.nextOff
  next_le : s.nextOff ≤ s.queued + 1
  max_nonneg : 0 ≤ s.maxOff
  max_le : s.maxOff ≤ s.queued + 1

/-- The bounds while an output is made: a hole may be current, and `onxt` is where `sendNext` was. -/
structure OutputBounds (s : StreamReceiver) : Prop where
  sound : s.SendBounds
  cWin : -2 ^ 29 ≤ s.cWin
  onxt_nonneg : 0 ≤ (s.onxt - s.sendUna).toInt
  onxt_le : (s.onxt - s.sendUna).toInt ≤ s.queued + 1

namespace SameSend

variable {s' : StreamReceiver}

theorem nextOff (h : SameSend s s') : s'.nextOff = s.nextOff := by
  simp only [StreamReceiver.nextOff, h.next, h.una]

theorem maxOff (h : SameSend s s') : s'.maxOff = s.maxOff := by
  simp only [StreamReceiver.maxOff, h.max, h.una]

theorem queued (h : SameSend s s') : s'.queued = s.queued := by
  simp only [StreamReceiver.queued, h.ring]

theorem bounds (h : SameSend s s') (hs : s.SendBounds) : s'.SendBounds := by
  refine ⟨?_, ?_, ?_, h.mss hs.mss_nonneg, h.asb hs.asb_le, ?_, ?_, ?_, ?_⟩
  · rw [h.queued]
    exact hs.queued_lt
  · rw [h.win]
    exact hs.win_nonneg
  · rw [h.win]
    exact hs.win_lt
  · rw [h.nextOff]
    exact hs.next_nonneg
  · rw [h.nextOff, h.queued]
    exact hs.next_le
  · rw [h.maxOff]
    exact hs.max_nonneg
  · rw [h.maxOff, h.queued]
    exact hs.max_le

end SameSend

/-! ## What there is to send -/

theorem persistState_bounds (h : s.OutputBounds) : s.persistState.OutputBounds := by
  unfold persistState
  split
  · have hs := h.sound
    cases htimer : s.rxmitTimer.isNone
    · exact ⟨⟨hs.queued_lt, hs.win_nonneg, hs.win_lt, hs.mss_nonneg, hs.asb_le, hs.next_nonneg, hs.next_le,
        hs.max_nonneg, hs.max_le⟩, h.cWin, h.onxt_nonneg, h.onxt_le⟩
    · have hzero : (s.sendUna - s.sendUna).toInt = 0 := by simp
      have hq : 0 ≤ s.queued := Int.natCast_nonneg _
      refine ⟨⟨hs.queued_lt, hs.win_nonneg, hs.win_lt, hs.mss_nonneg, hs.asb_le, ?_, ?_, hs.max_nonneg,
        hs.max_le⟩, h.cWin, ?_, ?_⟩
      · simp [nextOff]
      · simp only [nextOff, queued, if_true, hzero] at hq ⊢
        omega
      · simp
      · simp only [queued, if_true, hzero] at hq ⊢
        omega
  · exact h

/-- What is the same while it is found out how much there is to send. -/
structure SamePrepared (s s' : StreamReceiver) : Prop where
  una : s'.sendUna = s.sendUna
  max : s'.sendMax = s.sendMax
  ring : s'.sendRing = s.sendRing
  iss : s'.iss = s.iss
  win : s'.sendWin = s.sendWin
  state : s'.state = s.state

theorem persistState_prepared (s : StreamReceiver) : SamePrepared s s.persistState := by
  unfold persistState
  split <;> exact ⟨rfl, rfl, rfl, rfl, rfl, rfl⟩

theorem persistState_sane (h : s.Sane) : s.persistState.Sane := by
  unfold persistState
  split
  · exact ⟨h.cWin, fun hole hmem => absurd hmem List.not_mem_nil⟩
  · exact h

/-- The hole that is chosen is one that is wanted. -/
theorem currentHole_getSackHole {hole : SackHole}
    (h : currentHole { s with hole := s.getSackHole } = some hole) :
    hole ∈ s.scoreboard ∧ s.wanted hole = true := by
  unfold currentHole getSackHole at h
  simp only at h
  rw [Option.bind_eq_some_iff] at h
  obtain ⟨i, hi, hget⟩ := h
  obtain ⟨hlt, hwanted, -⟩ := List.findIdx?_eq_some_iff_getElem.mp hi
  rw [List.getElem?_eq_getElem hlt, Option.some.injEq] at hget
  rw [hget] at hwanted
  exact ⟨hget ▸ List.getElem_mem hlt, hwanted⟩

theorem recoverNext_prepared (s : StreamReceiver) : SamePrepared s s.recoverNext := by
  unfold recoverNext
  split
  · split
    · simp only
      split <;> exact ⟨rfl, rfl, rfl, rfl, rfl, rfl⟩
    · split <;> exact ⟨rfl, rfl, rfl, rfl, rfl, rfl⟩
  · exact ⟨rfl, rfl, rfl, rfl, rfl, rfl⟩

/-- `sendNext` stays within what was sent; at a hole, the octets up to its end follow. -/
theorem recoverNext_bounds (h : s.OutputBounds) (hsane : s.Sane) (hhole : s.hole = none) :
    s.recoverNext.OutputBounds ∧
      ∀ hole, s.recoverNext.currentHole = some hole →
        0 < (hole.finish - hole.rxmit).toInt := by
  have hs := h.sound
  have hnone : s.currentHole = none := by
    unfold currentHole
    rw [hhole]
    rfl
  have hsame : s.OutputBounds ∧ ∀ hole, s.currentHole = some hole →
      0 < (hole.finish - hole.rxmit).toInt := by
    refine ⟨h, ?_⟩
    intro hole hc
    rw [hnone] at hc
    cases hc
  unfold recoverNext
  split
  · split
    · simp only
      split
      · rename_i hole hcur
        obtain ⟨hmem, hwanted⟩ := currentHole_getSackHole hcur
        obtain ⟨hnonneg, hle⟩ := hsane.holes hole hmem hwanted
        have hbefore : 0 < (hole.finish - hole.rxmit).toInt := by
          unfold wanted at hwanted
          simp only [Bool.and_eq_true, decide_eq_true_eq] at hwanted
          exact hwanted.1.1
        have hmaxle := hs.max_le
        refine ⟨⟨⟨hs.queued_lt, hs.win_nonneg, hs.win_lt, hs.mss_nonneg, hs.asb_le, hnonneg, ?_,
          hs.max_nonneg, hs.max_le⟩, h.cWin, h.onxt_nonneg, h.onxt_le⟩, ?_⟩
        · exact Int.le_trans hle hmaxle
        · intro hole' hc
          have : hole' = hole := by
            have hcur' := hcur
            simp only [currentHole] at hc hcur'
            rw [hcur'] at hc
            exact (Option.some.inj hc).symm
          rw [this]
          exact hbefore
      · rename_i hcur
        have hsame : SameSend s { s with hole := s.getSackHole } :=
          ⟨rfl, rfl, rfl, rfl, rfl, rfl, id, id⟩
        refine ⟨⟨hsame.bounds hs, h.cWin, h.onxt_nonneg, h.onxt_le⟩, ?_⟩
        intro hole hc
        rw [hcur] at hc
        cases hc
    · split
      · have hq : 0 ≤ s.queued := Int.natCast_nonneg _
        refine ⟨⟨⟨hs.queued_lt, hs.win_nonneg, hs.win_lt, hs.mss_nonneg, hs.asb_le, ?_, ?_, hs.max_nonneg,
          hs.max_le⟩, h.cWin, h.onxt_nonneg, h.onxt_le⟩, ?_⟩
        · simp [nextOff]
        · simp only [nextOff, queued, BitVec.sub_self, BitVec.toInt_zero] at hq ⊢
          omega
        · intro hole hc
          have hc' : s.currentHole = some hole := hc
          rw [hnone] at hc'
          cases hc'
      · exact hsame
  · exact hsame

theorem SamePrepared.trans {s' s'' : StreamReceiver} (h : SamePrepared s s')
    (h' : SamePrepared s' s'') : SamePrepared s s'' :=
  ⟨h'.una.trans h.una, h'.max.trans h.max, h'.ring.trans h.ring, h'.iss.trans h.iss,
    h'.win.trans h.win, h'.state.trans h.state⟩

/-- `onxt` stays where it is, or goes back to the start of the send buffer. -/
theorem persistState_onxt (s : StreamReceiver) :
    s.persistState.onxt = s.onxt ∨ s.persistState.onxt = s.sendUna := by
  unfold persistState
  split
  · cases s.rxmitTimer.isNone
    · exact .inl rfl
    · exact .inr rfl
  · exact .inl rfl

theorem persistState_next (s : StreamReceiver) :
    s.persistState.sendNext = s.sendNext ∨ s.persistState.sendNext = s.sendUna := by
  unfold persistState
  split
  · cases s.rxmitTimer.isNone
    · exact .inl rfl
    · exact .inr rfl
  · exact .inl rfl

theorem recoverNext_onxt (s : StreamReceiver) : s.recoverNext.onxt = s.onxt := by
  unfold recoverNext
  simp only
  repeat' split
  all_goals rfl

/-- `sendNext` stays where it is, or goes back to something that was sent. -/
theorem recoverNext_next (hsane : s.Sane) (hmax : 0 ≤ s.maxOff) :
    s.recoverNext.sendNext = s.sendNext ∨ s.recoverNext.nextOff ≤ s.maxOff := by
  unfold recoverNext
  split
  · split
    · simp only
      split
      · rename_i hole hcur
        obtain ⟨hmem, hwanted⟩ := currentHole_getSackHole hcur
        exact .inr (hsane.holes hole hmem hwanted).2
      · exact .inl rfl
    · split
      · refine .inr ?_
        simpa [nextOff] using hmax
      · exact .inl rfl
  · exact .inl rfl

/-- There is at most the rest of the send buffer to send, and at least what leads back to its
    beginning. -/
theorem getSendable_spec (h : s.OutputBounds) (hsane : s.Sane) (hhole : s.hole = none) :
    s.getSendable.2.OutputBounds ∧
      s.getSendable.2.nextOff + s.getSendable.1 ≤ s.queued ∧
      0 ≤ s.getSendable.2.nextOff + s.getSendable.1 ∧
      (s.getSendable.2.nextOff = s.nextOff ∨ s.getSendable.2.nextOff ≤ s.maxOff) := by
  have hprep := persistState_prepared s
  have hprep' := hprep.trans (recoverNext_prepared _)
  have hpersist : s.persistState.hole = none := by
    unfold persistState
    split
    · rfl
    · exact hhole
  have hbounds := persistState_bounds h
  have hsane' := persistState_sane hsane
  have hmax : s.persistState.maxOff = s.maxOff := by
    simp only [maxOff, hprep.max, hprep.una]
  have hmax0 : 0 ≤ s.persistState.maxOff := hbounds.sound.max_nonneg
  have hnext : s.persistState.recoverNext.nextOff = s.nextOff ∨
      s.persistState.recoverNext.nextOff ≤ s.maxOff := by
    rcases recoverNext_next hsane' hmax0 with hsame | hle
    · rcases persistState_next s with hkept | hback
      · left
        simp only [nextOff, hsame, hkept, hprep'.una]
      · right
        simp only [nextOff, hsame, hback, hprep'.una, BitVec.sub_self, BitVec.toInt_zero]
        omega
    · exact .inr (hmax ▸ hle)
  obtain ⟨hbounds, hcur⟩ := recoverNext_bounds hbounds hsane' hpersist
  have hring : s.persistState.recoverNext.queued = s.queued := by
    simp only [queued, hprep'.ring]
  have hq : 0 ≤ s.queued := Int.natCast_nonneg _
  have hnext0 := hbounds.sound.next_nonneg
  unfold getSendable
  simp only
  have hsendable : ((s.persistState.recoverNext.sendRing.getUsed : Int)
      - (s.persistState.recoverNext.sendNext - s.persistState.recoverNext.sendUna).toInt)
      = s.queued - s.persistState.recoverNext.nextOff := by
    rw [← hring]
    rfl
  rw [hsendable]
  split
  · rename_i hole hc
    have hpos := hcur hole hc
    exact ⟨hbounds, by simp only; omega, by simp only; omega, hnext⟩
  · exact ⟨hbounds, by simp only; omega, by simp only; omega, hnext⟩

theorem getSendable_prepared (s : StreamReceiver) : SamePrepared s s.getSendable.2 := by
  have hprep := (persistState_prepared s).trans (recoverNext_prepared _)
  unfold getSendable
  simp only
  split <;> exact hprep

theorem getSendable_onxt (s : StreamReceiver) :
    s.getSendable.2.onxt = s.onxt ∨ s.getSendable.2.onxt = s.sendUna := by
  have honxt : s.persistState.recoverNext.onxt = s.onxt ∨
      s.persistState.recoverNext.onxt = s.sendUna := by
    rw [recoverNext_onxt]
    exact persistState_onxt s
  unfold getSendable
  simp only
  split <;> exact honxt

/-! ## Making a segment -/

/-- What a segment of `len` octets does. -/
structure Emits (s s' : StreamReceiver) (len : Int) : Prop where
  una : s'.sendUna = s.sendUna
  ring : s'.sendRing = s.sendRing
  iss : s'.iss = s.iss
  win : s'.sendWin = s.sendWin
  mss : s'.mss = s.mss
  asb : s.asb.length ≤ asbMax → s'.asb.length ≤ asbMax
  state : s'.state = s.state
  max : s'.sendMax =
    if seqLt s.sendMax (s.sendNext.add len) ∧ seqLe (s.sendNext.add len) (s.sendUna.add s.sendWin)
      then s.sendNext.add len else s.sendMax
  next : s'.sendNext =
    if seqLt (s.sendNext.add len) s.onxt then s.onxt else s.sendNext.add len

/-- A change that keeps even more than the send sequence. -/
structure SameAll (s s' : StreamReceiver) : Prop where
  same : SameSend s s'
  mss : s'.mss = s.mss
  state : s'.state = s.state
  onxt : s'.onxt = s.onxt
  cWin : s'.cWin = s.cWin

theorem SameAll.refl (s : StreamReceiver) : SameAll s s :=
  ⟨.refl s, rfl, rfl, rfl, rfl⟩

theorem SameAll.trans {s' s'' : StreamReceiver} (h : SameAll s s') (h' : SameAll s' s'') :
    SameAll s s'' :=
  ⟨h.same.trans h'.same, h'.mss.trans h.mss, h'.state.trans h.state, h'.onxt.trans h.onxt,
    h'.cWin.trans h.cWin⟩

theorem SameAll.outputBounds {s' : StreamReceiver} (h : SameAll s s') (hs : s.OutputBounds) :
    s'.OutputBounds := by
  refine ⟨h.same.bounds hs.sound, ?_, ?_, ?_⟩
  · rw [h.cWin]
    exact hs.cWin
  · rw [h.onxt, h.same.una]
    exact hs.onxt_nonneg
  · rw [h.onxt, h.same.una, h.same.queued]
    exact hs.onxt_le

theorem startRxmitTimer_all (s : StreamReceiver) : SameAll s s.startRxmitTimer := by
  unfold startRxmitTimer
  split <;> exact ⟨⟨rfl, rfl, rfl, rfl, rfl, rfl, id, id⟩, rfl, rfl, rfl, rfl⟩

theorem startAckTimer_all (s : StreamReceiver) : SameAll s s.startAckTimer := by
  unfold startAckTimer
  split <;> exact ⟨⟨rfl, rfl, rfl, rfl, rfl, rfl, id, id⟩, rfl, rfl, rfl, rfl⟩

theorem advanceHole_all (s : StreamReceiver) (len : Int) : SameAll s (s.advanceHole len) := by
  unfold advanceHole
  split <;> exact ⟨⟨rfl, rfl, rfl, rfl, rfl, rfl, id, id⟩, rfl, rfl, rfl, rfl⟩

theorem probeWindow_all (s : StreamReceiver) (flag : Flags) :
    SameAll s (s.probeWindow flag).2 := by
  unfold probeWindow
  split <;> exact ⟨⟨rfl, rfl, rfl, rfl, rfl, rfl, id, id⟩, rfl, rfl, rfl, rfl⟩

theorem canSend_all (s : StreamReceiver) (len mss : Int) (flag : Flags) :
    SameAll s (s.canSend len mss flag).2 := by
  unfold canSend updateWindow
  simp only
  repeat' split
  all_goals exact ⟨⟨rfl, rfl, rfl, rfl, rfl, rfl, id, id⟩, rfl, rfl, rfl, rfl⟩

theorem makeSegment_all (s : StreamReceiver) (len : Int) (flag : Flags) (oob : Bool) :
    SameAll s (s.makeSegment len flag oob).2 :=
  ⟨⟨rfl, rfl, rfl, rfl, rfl, rfl, id, id⟩, rfl, rfl, rfl, rfl⟩

/-- What `raiseSendMax` changes of the send sequence. -/
theorem raiseSendMax_spec (s : StreamReceiver) (seq : TCPSeq) :
    (s.raiseSendMax seq).sendMax =
        (if seqLt s.sendMax s.sendNext ∧ seqLe s.sendNext (s.sendUna.add s.sendWin)
          then s.sendNext else s.sendMax) ∧
      SameAll { s with sendMax := (s.raiseSendMax seq).sendMax } (s.raiseSendMax seq) := by
  unfold raiseSendMax
  by_cases hlt : seqLt s.sendMax s.sendNext
  · rw [if_pos hlt]
    refine ⟨?_, ⟨rfl, rfl, rfl, rfl, rfl, rfl, id, id⟩, rfl, rfl, rfl, rfl⟩
    simp only [hlt, true_and]
  · rw [if_neg hlt]
    refine ⟨?_, ⟨rfl, rfl, rfl, rfl, rfl, rfl, id, id⟩, rfl, rfl, rfl, rfl⟩
    simp only [hlt, false_and, if_false]

theorem sent_emits (s : StreamReceiver) (len : Int) (seq : TCPSeq) :
    Emits s (s.sent len seq) len := by
  obtain ⟨hmax, hraise⟩ := raiseSendMax_spec { s with sendNext := s.sendNext.add len } seq
  unfold sent
  simp only
  generalize raiseSendMax { s with sendNext := s.sendNext.add len } seq = s2 at hmax hraise ⊢
  have htimer : SameAll s2 (if s2.sendNext ≠ s2.sendUna then s2.startRxmitTimer else s2) := by
    split
    · exact startRxmitTimer_all s2
    · exact .refl s2
  generalize (if s2.sendNext ≠ s2.sendUna then s2.startRxmitTimer else s2) = s3 at htimer ⊢
  have hall := (hraise.trans htimer).trans (advanceHole_all s3 len)
  generalize s3.advanceHole len = s4 at hall ⊢
  refine ⟨hall.same.una, hall.same.ring, hall.same.iss, hall.same.win, hall.mss, hall.same.asb,
    hall.state, hall.same.max.trans hmax, ?_⟩
  have hnext4 : s4.sendNext = s.sendNext.add len := hall.same.next
  have honxt4 : s4.onxt = s.onxt := hall.onxt
  simp only [hnext4, honxt4]

/-- The send sequence after a segment, by offsets. -/
theorem emits_offsets {s' : StreamReceiver} {len : Int} (he : Emits s s' len)
    (h : s.OutputBounds) (hlo : -2 ^ 29 - 2 ^ 16 ≤ s.nextOff + len)
    (hhi : s.nextOff + len ≤ s.queued + 1) :
    s'.maxOff = (if s.maxOff < s.nextOff + len ∧ s.nextOff + len ≤ s.sendWin
      then s.nextOff + len else s.maxOff) ∧
    s'.nextOff = max (s.nextOff + len) (s.onxt - s.sendUna).toInt := by
  have hs := h.sound
  have hq := hs.queued_lt
  have ho0 := h.onxt_nonneg
  have hole := h.onxt_le
  have hmax0 := hs.max_nonneg
  have hmaxle := hs.max_le
  have hwin0 := hs.win_nonneg
  have hwin := hs.win_lt
  have hnext : s.sendNext.add len = s.sendUna.add (s.nextOff + len) := by
    rw [← add_add, ← sendNext_eq]
  have hlt : seqLt s.sendMax (s.sendNext.add len) ↔ s.maxOff < s.nextOff + len := by
    rw [sendMax_eq, hnext]
    exact seqLt_add _ (by omega) (by omega)
  have hle : seqLe (s.sendNext.add len) (s.sendUna.add s.sendWin)
      ↔ s.nextOff + len ≤ s.sendWin := by
    rw [hnext]
    exact seqLe_add _ (by omega) (by omega)
  have hval : (s.sendNext.add len - s.sendUna).toInt = s.nextOff + len := by
    rw [hnext, add_sub, toInt_ofInt (by omega) (by omega)]
  have hbehind : seqLt (s.sendNext.add len) s.onxt
      ↔ s.nextOff + len < (s.onxt - s.sendUna).toInt := by
    rw [hnext]
    conv => lhs; rw [eq_add s.sendUna s.onxt]
    exact seqLt_add _ (by omega) (by omega)
  constructor
  · change (s'.sendMax - s'.sendUna).toInt = _
    rw [he.una, he.max]
    simp only [hlt, hle]
    split
    · exact hval
    · rfl
  · change (s'.sendNext - s'.sendUna).toInt = _
    rw [he.una, he.next]
    simp only [hbehind]
    split
    · omega
    · rw [hval]
      omega

/-! ## `send` -/

theorem countOptionSize_le (h : s.asb.length ≤ asbMax) (flag : Flags) :
    s.countOptionSize flag ≤ 40 := by
  have h : s.asb.length ≤ 4 := h
  unfold countOptionSize
  simp only
  split
  · omega
  · split <;> omega

theorem openedWindow_le (s : StreamReceiver) : s.openedWindow ≤ s.sendWin := by
  unfold openedWindow
  split <;> omega

theorem openedWindow_ge (h : 0 ≤ s.sendWin) (hc : -2 ^ 29 ≤ s.cWin) :
    -2 ^ 29 ≤ s.openedWindow := by
  unfold openedWindow
  split <;> omega

theorem probeWindow_ge (h : 0 ≤ s.sendWin) (hc : -2 ^ 29 ≤ s.cWin) (flag : Flags) :
    -2 ^ 29 ≤ (s.probeWindow flag).1 := by
  unfold probeWindow
  split
  · simp only
    omega
  · exact openedWindow_ge h hc

/-- The usable window does not lead far before `sendUna`. -/
theorem useable_ge (h : s.SendBounds) {win : Int} (hlo : -2 ^ 29 ≤ win) (hhi : win ≤ 2 ^ 16) :
    -2 ^ 29 ≤ s.nextOff + s.useable win := by
  have hq := h.queued_lt
  have hn0 := h.next_nonneg
  have hnle := h.next_le
  have hdiff : (s.sendUna.add win - s.sendNext).toInt = win - s.nextOff := by
    conv => lhs; rw [sendNext_eq]
    rw [add_sub_add, toInt_ofInt (by omega) (by omega)]
  unfold useable
  simp only [hdiff]
  split
  · split <;> omega
  · split <;> omega

theorem pushFlag_fin (s : StreamReceiver) (len sendable : Int) (flag : Flags) :
    (s.pushFlag len sendable flag).fin = flag.fin := by
  unfold pushFlag
  split <;> rfl

/-- A segment carries FIN only when it carries all there is. -/
theorem sendLength_spec (s : StreamReceiver) (sendable win : Int) (flag : Flags) :
    (s.sendLength sendable win flag).1 ≤ sendable ∧
      ((s.sendLength sendable win flag).2.fin = true ↔
        flag.fin = true ∧ (s.sendLength sendable win flag).1 = sendable) := by
  unfold sendLength
  simp only
  generalize hlen : min (s.mss - s.countOptionSize flag) (min sendable (s.useable win)) = len
  refine ⟨by omega, ?_⟩
  split
  · rename_i hcut
    exact ⟨fun h => (nomatch h), fun h => absurd hcut.2 (by omega)⟩
  · rename_i hnot
    rw [pushFlag_fin] at hnot ⊢
    constructor
    · intro hfin
      have : ¬ len < sendable := fun hc => hnot ⟨hfin, hc⟩
      exact ⟨hfin, by omega⟩
    · exact fun h => h.1

/-- How far back a segment may end. -/
theorem sendLength_ge (h : s.SendBounds) {sendable win : Int} (flag : Flags)
    (hwin : -2 ^ 29 ≤ win) (hwin' : win ≤ 2 ^ 16) (hsendable : 0 ≤ s.nextOff + sendable) :
    -2 ^ 29 - 40 ≤ s.nextOff + (s.sendLength sendable win flag).1 := by
  have hopt := countOptionSize_le h.asb_le flag
  have huse := useable_ge h hwin hwin'
  have hmss := h.mss_nonneg
  have hn0 := h.next_nonneg
  unfold sendLength
  simp only
  omega

/-- What `send` does when it sends nothing. -/
structure Silent (s s' : StreamReceiver) : Prop where
  una : s'.sendUna = s.sendUna
  max : s'.sendMax = s.sendMax
  ring : s'.sendRing = s.sendRing
  iss : s'.iss = s.iss
  win : s'.sendWin = s.sendWin
  mss : s'.mss = s.mss
  asb : s.asb.length ≤ asbMax → s'.asb.length ≤ asbMax
  state : s'.state = s.state
  next : s'.sendNext = s.sendNext ∨ s'.sendNext = s.onxt

theorem Silent.trans_all {s' s'' : StreamReceiver} (h : Silent s s') (h' : SameAll s' s'') :
    Silent s s'' :=
  ⟨h'.same.una.trans h.una, h'.same.max.trans h.max, h'.same.ring.trans h.ring,
    h'.same.iss.trans h.iss, h'.same.win.trans h.win, h'.mss.trans h.mss,
    fun h0 => h'.same.asb (h.asb h0), h'.state.trans h.state,
    h.next.imp h'.same.next.trans h'.same.next.trans⟩

theorem SameAll.silent {s' : StreamReceiver} (h : SameAll s s') : Silent s s' :=
  ⟨h.same.una, h.same.max, h.same.ring, h.same.iss, h.same.win, h.mss, h.same.asb, h.state,
    .inl h.same.next⟩

theorem SameAll.trans_silent {s' s'' : StreamReceiver} (h : SameAll s s') (h' : Silent s' s'') :
    Silent s s'' :=
  ⟨h'.una.trans h.same.una, h'.max.trans h.same.max, h'.ring.trans h.same.ring,
    h'.iss.trans h.same.iss, h'.win.trans h.same.win, h'.mss.trans h.mss,
    fun h0 => h'.asb (h.same.asb h0), h'.state.trans h.state,
    h'.next.imp (fun hn => hn.trans h.same.next) (fun hn => hn.trans h.onxt)⟩

theorem SameAll.nextOff {s' : StreamReceiver} (h : SameAll s s') : s'.nextOff = s.nextOff :=
  h.same.nextOff

theorem SameAll.emits {s' s'' : StreamReceiver} {len : Int} (h : SameAll s s')
    (h' : Emits s' s'' len) : Emits s s'' len := by
  refine ⟨h'.una.trans h.same.una, h'.ring.trans h.same.ring, h'.iss.trans h.same.iss,
    h'.win.trans h.same.win, h'.mss.trans h.mss, fun h0 => h'.asb (h.same.asb h0),
    h'.state.trans h.state, ?_, ?_⟩
  · rw [h'.max, h.same.max, h.same.next, h.same.una, h.same.win]
  · rw [h'.next, h.same.next, h.onxt]

theorem postpone_silent (s : StreamReceiver) (len : Int) : Silent s (s.postpone len) := by
  unfold postpone
  simp only
  have hnext : Silent s (if seqLt s.sendNext s.onxt then { s with sendNext := s.onxt } else s) := by
    split
    · exact ⟨rfl, rfl, rfl, rfl, rfl, rfl, id, rfl, .inr rfl⟩
    · exact ⟨rfl, rfl, rfl, rfl, rfl, rfl, id, rfl, .inl rfl⟩
  generalize (if seqLt s.sendNext s.onxt then { s with sendNext := s.onxt } else s) = s1 at hnext ⊢
  have hrxmit : SameAll s1 (if 0 < len then s1.startRxmitTimer else s1) := by
    split
    · exact startRxmitTimer_all s1
    · exact .refl s1
  generalize (if 0 < len then s1.startRxmitTimer else s1) = s2 at hrxmit ⊢
  have hack : SameAll s2 (if seqLt s2.recvAcked s2.recvNext then s2.startAckTimer else s2) := by
    split
    · exact startAckTimer_all s2
    · exact .refl s2
  exact hnext.trans_all (hrxmit.trans hack)

/-- `send` sends nothing, or a segment of at most `sendable` octets from `sendNext` on. -/
theorem send_cases (s : StreamReceiver) (sendable : Int) (flag : Flags) (oob : Bool) :
    ((s.send sendable flag oob).1 = none ∧ Silent s (s.send sendable flag oob).2) ∨
      ∃ g, (s.send sendable flag oob).1 = some g ∧ Emits s (s.send sendable flag oob).2 g.len ∧
        g.len ≤ sendable ∧ (0 < g.len → g.seq = s.sendNext) ∧
        (g.flag.fin = true ↔ flag.fin = true ∧ g.len = sendable) ∧
        (s.OutputBounds → 0 ≤ s.nextOff + sendable → -2 ^ 29 - 2 ^ 16 ≤ s.nextOff + g.len) := by
  have hprobe := probeWindow_all s flag
  have hwins : s.OutputBounds →
      -2 ^ 29 ≤ (s.probeWindow flag).1 ∧ (s.probeWindow flag).1 ≤ 2 ^ 16 := by
    intro h
    have hwin := h.sound.win_lt
    have hwin0 := h.sound.win_nonneg
    have hopen := openedWindow_le s
    refine ⟨probeWindow_ge hwin0 h.cWin flag, ?_⟩
    unfold probeWindow
    split <;> simp only <;> omega
  unfold send
  simp only
  generalize (s.probeWindow flag).1 = win at hwins ⊢
  generalize (s.probeWindow flag).2 = s1 at hprobe ⊢
  obtain ⟨hlen, hfin⟩ := sendLength_spec s1 sendable win flag
  have hge : s.OutputBounds → 0 ≤ s.nextOff + sendable →
      -2 ^ 29 - 2 ^ 16 ≤ s.nextOff + (s1.sendLength sendable win flag).1 := by
    intro h hs
    have hn1 := hprobe.nextOff
    obtain ⟨hlo, hhi⟩ := hwins h
    have := sendLength_ge (hprobe.outputBounds h).sound flag hlo hhi (by omega : 0 ≤ s1.nextOff + sendable)
    omega
  generalize (s1.sendLength sendable win flag).1 = len at hlen hfin hge ⊢
  generalize (s1.sendLength sendable win flag).2 = flag1 at hfin ⊢
  split
  · exact .inl ⟨rfl, hprobe.silent⟩
  · have hcan := canSend_all s1 len (s1.mss - s.countOptionSize flag) flag1
    generalize s1.canSend len (s1.mss - s.countOptionSize flag) flag1 = can at hcan ⊢
    split
    · have hmake := (hprobe.trans hcan).trans (makeSegment_all can.2 len flag1 oob)
      refine .inr ⟨_, rfl, hmake.emits (sent_emits _ _ _), hlen, ?_, hfin, hge⟩
      intro hpos
      have hpos : 0 < len := hpos
      show (if 0 < len then can.2.sendNext else can.2.sendMax) = s.sendNext
      rw [if_pos hpos, hcan.same.next, hprobe.same.next]
    · exact .inl ⟨rfl, hprobe.trans_silent (hcan.trans_silent (postpone_silent _ _))⟩

/-! ## `output` -/

/-- A connection that waits for the end of the handshake has had nothing acknowledged. -/
def Handshake (s : StreamReceiver) : Prop :=
  s.state = .synSent ∨ s.state = .synReceived → s.sendUna = s.iss

/-- The connection as `send` finds it, with what there is to send. -/
structure Ready (s pre : StreamReceiver) (sendable : Int) (flag : Flags) : Prop where
  bounds : pre.OutputBounds
  nonneg : 0 ≤ pre.nextOff + sendable
  le : pre.nextOff + sendable ≤ s.queued + 1
  onxt : pre.onxt = s.sendNext ∨ pre.onxt = s.sendUna
  next : pre.nextOff = s.nextOff ∨ pre.nextOff ≤ s.maxOff
  whole : State.hasBeenEstablished s.state = true → 0 < sendable →
    pre.nextOff + sendable = s.queued + 1 → flag.fin = true

/-- The connection as the `output` of its state finds it. -/
def begun (s : StreamReceiver) : StreamReceiver :=
  { s with hole := none, onxt := s.sendNext }

theorem begun_bounds (h : s.SendBounds) (hsane : s.Sane) : s.begun.OutputBounds :=
  ⟨⟨h.queued_lt, h.win_nonneg, h.win_lt, h.mss_nonneg, h.asb_le, h.next_nonneg, h.next_le,
    h.max_nonneg, h.max_le⟩, hsane.cWin, h.next_nonneg, h.next_le⟩

theorem begun_sane (h : s.Sane) : s.begun.Sane :=
  ⟨h.cWin, h.holes⟩

theorem begun_prepared (s : StreamReceiver) : SamePrepared s s.begun :=
  ⟨rfl, rfl, rfl, rfl, rfl, rfl⟩

theorem begun_ready (h : s.SendBounds) (hsane : s.Sane) : Ready s s.begun 0 {} :=
  ⟨begun_bounds h hsane, by rw [Int.add_zero]; exact h.next_nonneg,
    by rw [Int.add_zero]; exact h.next_le, .inl rfl, .inl rfl, fun _ h0 => absurd h0 (by omega)⟩

/-- With SYN, there is one octet more than the send buffer holds. -/
theorem ready_syn (h : s.SendBounds) (hsane : s.Sane) (hsyn : s.sendUna = s.iss)
    (hstate : State.hasBeenEstablished s.state = false) :
    Ready s s.begun s.begun.getSendableWithSyn.1 s.begun.getSendableWithSyn.2 := by
  have hbegun := begun_ready h hsane
  have hq : 0 ≤ s.queued := Int.natCast_nonneg _
  unfold getSendableWithSyn
  split
  · exact hbegun
  · rename_i hnext
    have hnext : s.sendNext = s.iss := Classical.not_not.mp hnext
    have hzero : s.begun.nextOff = 0 := by
      show (s.sendNext - s.sendUna).toInt = 0
      rw [hnext, hsyn]
      simp
    have hcount : (1 : Int) + s.begun.sendRing.getUsed = s.queued + 1 := Int.add_comm _ _
    refine ⟨hbegun.bounds, ?_, ?_, .inl rfl, .inl rfl, fun hest => ?_⟩
    · rw [hzero, hcount]
      omega
    · rw [hzero, hcount]
      omega
    · rw [hstate] at hest
      cases hest

theorem ready_data (h : s.SendBounds) (hsane : s.Sane) (flag : Flags) :
    Ready s s.begun.getSendable.2 s.begun.getSendable.1 flag := by
  obtain ⟨hbounds, hle, hnonneg, hnext⟩ :=
    getSendable_spec (begun_bounds h hsane) (begun_sane hsane) rfl
  have hq : s.begun.queued = s.queued := rfl
  exact ⟨hbounds, hnonneg, by omega, getSendable_onxt s.begun, hnext, fun _ _ hc => by omega⟩

/-- With FIN, there is one octet more than the send buffer holds, unless a hole is sent. -/
theorem ready_fin (h : s.SendBounds) (hsane : s.Sane) (stack : Flags) :
    Ready s (s.begun.getSendableWithFin stack).2.2 (s.begun.getSendableWithFin stack).1
      (s.begun.getSendableWithFin stack).2.1 := by
  have hdata := ready_data h hsane
  obtain ⟨-, hle, -⟩ := getSendable_spec (begun_bounds h hsane) (begun_sane hsane) rfl
  have hq : s.begun.queued = s.queued := rfl
  unfold getSendableWithFin
  simp only
  split
  · have hd := hdata {}
    refine ⟨hd.bounds, ?_, ?_, hd.onxt, hd.next, fun _ h0 => absurd h0 (by simp only; omega)⟩
    · rw [Int.add_zero]
      exact hd.bounds.sound.next_nonneg
    · have hnext := hd.bounds.sound.next_le
      have hsame : s.begun.getSendable.2.queued = s.queued := by
        simp only [queued, (getSendable_prepared s.begun).ring]
        rfl
      show s.begun.getSendable.2.nextOff + 0 ≤ s.queued + 1
      omega
  · split
    · have hd := hdata { fin := true }
      refine ⟨hd.bounds, ?_, ?_, hd.onxt, hd.next, fun _ _ _ => rfl⟩
      · have := hd.nonneg
        simp only
        omega
      · simp only
        omega
    · exact hdata stack

/-- An output is a `send` of the prepared connection, or nothing. -/
theorem output_cases (s : StreamReceiver) (stack : Flags) (oob : Bool) :
    ∃ pre sendable flag, SamePrepared s pre ∧
      (s.SendBounds → s.Sane → s.Handshake → Ready s pre sendable flag) ∧
      (((s.output stack oob).1 = none ∧ Silent pre (s.output stack oob).2) ∨
        s.output stack oob = pre.send sendable flag oob) := by
  have hsyn : s.state = .synSent ∨ s.state = .synReceived →
      s.SendBounds → s.Sane → s.Handshake →
      Ready s s.begun s.begun.getSendableWithSyn.1 s.begun.getSendableWithSyn.2 := by
    intro hstate h hsane hhand
    refine ready_syn h hsane (hhand hstate) ?_
    rcases hstate with hs | hs <;> rw [hs] <;> rfl
  have hdata := (begun_prepared s).trans (getSendable_prepared s.begun)
  have hfin : SamePrepared s (s.begun.getSendableWithFin stack).2.2 := by
    unfold getSendableWithFin
    simp only
    repeat' split
    all_goals exact hdata
  have hout : s.output stack oob = State.output s.begun stack oob := rfl
  have hbegun : s.begun.state = s.state := rfl
  rw [hout]
  cases hstate : s.state
  case closed | listen =>
    refine ⟨s.begun, 0, {}, begun_prepared s, fun h hsane _ => begun_ready h hsane, .inl ?_⟩
    rw [State.output, hbegun, hstate]
    exact ⟨rfl, (SameAll.refl _).silent⟩
  case synSent | synReceived =>
    refine ⟨s.begun, _, _, begun_prepared s, hsyn (by rw [hstate]; decide), .inr ?_⟩
    rw [State.output, hbegun, hstate]
  case established | finWait2 | closeWait =>
    refine ⟨s.begun.getSendable.2, _, {}, hdata, fun h hsane _ => ready_data h hsane {}, .inr ?_⟩
    rw [State.output, hbegun, hstate]
  case finWait1 | lastAck | closing | timeWait =>
    refine ⟨_, _, _, hfin, fun h hsane _ => ready_fin h hsane stack, .inr ?_⟩
    rw [State.output, hbegun, hstate]

/-! ## The bounds after an output -/

/-- The bounds when nothing is sent. -/
theorem SendBounds.silent {s' pre : StreamReceiver} {sendable : Int} {flag : Flags}
    (h : s.SendBounds) (hprep : SamePrepared s pre) (hready : Ready s pre sendable flag)
    (hs : Silent pre s') : s'.SendBounds := by
  have hb := hready.bounds.sound
  have hqueued : s'.queued = s.queued := by simp only [queued, hs.ring, hprep.ring]
  have hqueuedPre : pre.queued = s.queued := by simp only [queued, hprep.ring]
  have hmax : s'.maxOff = s.maxOff := by
    simp only [maxOff, hs.max, hs.una, hprep.max, hprep.una]
  have hq := h.queued_lt
  have hmle := h.max_le
  have hn0 := h.next_nonneg
  have hnle := h.next_le
  have hpre0 := hb.next_nonneg
  have hprele := hb.next_le
  have hnext : 0 ≤ s'.nextOff ∧ s'.nextOff ≤ s.queued + 1 := by
    rcases hs.next with hkept | hback
    · have : s'.nextOff = pre.nextOff := by simp only [nextOff, hkept, hs.una]
      omega
    · have hsame : s'.nextOff = (pre.onxt - pre.sendUna).toInt := by
        simp only [nextOff, hback, hs.una]
      have := hready.bounds.onxt_nonneg
      have := hready.bounds.onxt_le
      omega
  refine ⟨by omega, ?_, ?_, ?_, hs.asb hb.asb_le, by omega, by omega, ?_, by omega⟩
  · rw [hs.win]
    exact hb.win_nonneg
  · rw [hs.win]
    exact hb.win_lt
  · rw [hs.mss]
    exact hb.mss_nonneg
  · rw [hmax]
    exact h.max_nonneg

/-- The bounds when a segment of `len` octets is sent, which never moves `sendMax` back. -/
theorem SendBounds.emits {s' pre : StreamReceiver} {sendable len : Int} {flag : Flags}
    (h : s.SendBounds) (hprep : SamePrepared s pre) (hready : Ready s pre sendable flag)
    (he : Emits pre s' len) (hlen : len ≤ sendable) (hge : -2 ^ 29 - 2 ^ 16 ≤ pre.nextOff + len) :
    s'.SendBounds ∧ s.maxOff ≤ s'.maxOff := by
  have hb := hready.bounds.sound
  have hqueued : s'.queued = s.queued := by simp only [queued, he.ring, hprep.ring]
  have hqueuedPre : pre.queued = s.queued := by simp only [queued, hprep.ring]
  have hmaxPre : pre.maxOff = s.maxOff := by
    simp only [StreamReceiver.maxOff, hprep.max, hprep.una]
  have hle := hready.le
  obtain ⟨hmax, hnext⟩ := emits_offsets he hready.bounds hge (by omega)
  have hq := h.queued_lt
  have hm0 := h.max_nonneg
  have hmle := h.max_le
  have honxt0 := hready.bounds.onxt_nonneg
  have honxtle := hready.bounds.onxt_le
  have hmaxle : s'.maxOff ≤ s.queued + 1 ∧ s.maxOff ≤ s'.maxOff := by
    rw [hmax]
    split <;> omega
  refine ⟨⟨by omega, ?_, ?_, ?_, he.asb hb.asb_le, by omega, by omega, by omega, by omega⟩,
    hmaxle.2⟩
  · rw [he.win]
    exact hb.win_nonneg
  · rw [he.win]
    exact hb.win_lt
  · rw [he.mss]
    exact hb.mss_nonneg

end EsOs.Net.StreamReceiver
