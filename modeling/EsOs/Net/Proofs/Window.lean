import Mathlib
import EsOs.Net.Proofs.Congestion

/-! # The congestion window stays positive

Outside of fast recovery the window grows by at most one segment for each acknowledgement and is cut
at 65535. In fast recovery without SACK the window and the octets that are not yet added back make up
at least one segment, so that deflating it leaves it positive. -/

namespace EsOs.Net

open EsOs.Lib StreamReceiver

variable {s t : StreamReceiver}

/-! ## The loops -/

/-- The loop that adds whole segments back ends, and moves octets from one count to the other. -/
theorem addBack_spec {mss : Int} (hmss : 0 < mss) (fuel : Nat) {cAcked cWin : Int}
    (hpos : 0 ≤ cAcked) (hfuel : cAcked ≤ fuel) :
    (addBack mss fuel cAcked cWin).1 = cAcked % mss ∧
      (addBack mss fuel cAcked cWin).2 = cWin + cAcked - cAcked % mss := by
  induction fuel generalizing cAcked cWin with
  | zero =>
    obtain rfl : cAcked = 0 := by omega
    simp [addBack]
  | succ fuel ih =>
    unfold addBack
    split
    · rename_i hle
      obtain ⟨h1, h2⟩ := @ih (cAcked - mss) (cWin + mss) (by omega) (by omega)
      have hmod : (cAcked - mss) % mss = cAcked % mss := Int.sub_emod_right _ _
      rw [hmod] at h1 h2
      exact ⟨h1, by rw [h2]; omega⟩
    · rename_i hlt
      have hmod : cAcked % mss = cAcked := Int.emod_eq_of_lt hpos (by omega)
      exact ⟨hmod.symm, by rw [hmod]; simp only; omega⟩

/-- The loop that opens the window ends, and does not make the window smaller. -/
theorem growWindow_spec {mss : Int} (hmss : 0 < mss) (fuel : Nat) {cAcked cWin : Int}
    (hwin : 0 < cWin) (hpos : 0 ≤ cAcked) (hfuel : cAcked < fuel) :
    (growWindow mss fuel cAcked cWin).1 < (growWindow mss fuel cAcked cWin).2 ∧
      0 ≤ (growWindow mss fuel cAcked cWin).1 ∧ cWin ≤ (growWindow mss fuel cAcked cWin).2 := by
  induction fuel generalizing cAcked cWin with
  | zero => omega
  | succ fuel ih =>
    unfold growWindow
    split
    · rename_i hle
      obtain ⟨h1, h2, h3⟩ := @ih (cAcked - cWin) (cWin + mss) (by omega) (by omega) (by omega)
      exact ⟨h1, h2, by omega⟩
    · rename_i hlt
      exact ⟨Int.not_le.mp hlt, hpos, Int.le_refl _⟩

/-! ## The invariant -/

/-- What holds of the windows between the steps. -/
structure Windows (s : StreamReceiver) : Prop where
  socket : s.socket.isSome
  mss_pos : 0 < s.mss
  mss_le : s.mss ≤ 65535
  cWin_pos : 0 < s.cWin
  cWin_lt : s.cWin < 2 ^ 31
  thresh_pos : 0 < s.ssThresh
  thresh_le : s.ssThresh ≤ 2 ^ 30
  cAcked_nonneg : 0 ≤ s.cAcked
  recovery : rxmitThresh ≤ s.dupAcks → s.sack = false → s.mss ≤ s.cWin + s.cAcked

/-- The values that the invariant is about are the same. -/
structure SameWindows (s t : StreamReceiver) : Prop where
  mss : t.mss = s.mss
  cWin : t.cWin = s.cWin
  ssThresh : t.ssThresh = s.ssThresh
  cAcked : t.cAcked = s.cAcked
  dupAcks : t.dupAcks = s.dupAcks
  sack : t.sack = s.sack
  socket : t.socket = s.socket

theorem SameWindows.of_congestion (h : t.congestion = s.congestion) : SameWindows s t :=
  ⟨congrArg Congestion.mss h, congrArg Congestion.cWin h, congrArg Congestion.ssThresh h,
    congrArg Congestion.cAcked h, congrArg Congestion.dupAcks h, congrArg Congestion.sack h,
    congrArg Congestion.socket h⟩

theorem SameWindows.trans {u : StreamReceiver} (h : SameWindows s t) (h' : SameWindows t u) :
    SameWindows s u :=
  ⟨h'.mss.trans h.mss, h'.cWin.trans h.cWin, h'.ssThresh.trans h.ssThresh,
    h'.cAcked.trans h.cAcked, h'.dupAcks.trans h.dupAcks, h'.sack.trans h.sack,
    h'.socket.trans h.socket⟩

theorem Windows.same (h : Windows s) (hsame : SameWindows s t) : Windows t := by
  obtain ⟨hmss, hwin, hthresh, hacked, hdup, hsack, hsocket⟩ := hsame
  obtain ⟨h1, h2, h3, h4, h5, h6, h7, h8, h9⟩ := h
  constructor <;> simp only [hmss, hwin, hthresh, hacked, hdup, hsack, hsocket] <;> assumption

/-- A state out of fast recovery with the given windows. -/
theorem Windows.of_idle (h : Windows s) (hmss : t.mss = s.mss) (hsocket : t.socket = s.socket)
    (hthresh : t.ssThresh = s.ssThresh) (hpos : 0 < t.cWin) (hlt : t.cWin < 2 ^ 31)
    (hacked : 0 ≤ t.cAcked) (hdup : t.dupAcks < rxmitThresh) : Windows t := by
  refine ⟨hsocket ▸ h.socket, hmss ▸ h.mss_pos, hmss ▸ h.mss_le, hpos, hlt, hthresh ▸ h.thresh_pos,
    hthresh ▸ h.thresh_le, hacked, fun hrec => ?_⟩
  omega

/-! ## Acknowledgements -/

theorem cutThresh_bounds (hmss : s.mss ≤ 65535) :
    2 * s.mss ≤ s.cutThresh.ssThresh ∧ s.cutThresh.ssThresh ≤ 2 ^ 30 := by
  have hlt := BitVec.toInt_lt (x := s.sendMax - s.sendUna)
  have hhalf : (s.sendMax - s.sendUna).toInt.tdiv 2 ≤ 2 ^ 30 := by
    by_cases hneg : 0 ≤ (s.sendMax - s.sendUna).toInt
    · rw [Int.tdiv_eq_ediv_of_nonneg hneg]
      omega
    · have hpos : 0 ≤ -(s.sendMax - s.sendUna).toInt := by omega
      have hnonpos := Int.tdiv_nonpos_of_nonneg_of_nonpos hpos (show (-2 : Int) ≤ 0 by omega)
      rw [Int.neg_tdiv_neg] at hnonpos
      omega
  unfold cutThresh
  simp only
  omega

/-- The state at the entry to fast recovery. -/
theorem Windows.entered (h : Windows s) (hmss : t.mss = s.mss) (hsocket : t.socket = s.socket)
    (hthresh : 2 * s.mss ≤ t.ssThresh ∧ t.ssThresh ≤ 2 ^ 30)
    (hwin : t.ssThresh ≤ t.cWin ∧ t.cWin ≤ t.ssThresh + 3 * s.mss) (hacked : 0 ≤ t.cAcked) :
    Windows t := by
  have h1 := h.mss_pos
  have h2 := h.mss_le
  refine ⟨hsocket ▸ h.socket, hmss ▸ h.mss_pos, hmss ▸ h.mss_le, ?_, ?_, ?_, hthresh.2, hacked, ?_⟩
  all_goals omega

/-- A duplicate that is counted. -/
theorem Windows.duplicateAck (h : Windows s) (ack : TCPSeq)
    (hok : rxmitThresh ≤ s.dupAcks → s.sack = false → s.cWin + s.mss < 2 ^ 31) :
    Windows (s.duplicateAck ack) := by
  have h3 : rxmitThresh = 3 := rfl
  have h2 : limitedThresh = 2 := rfl
  have hmss := h.mss_pos
  have hpos := h.cWin_pos
  have hlt := h.cWin_lt
  have hacked := h.cAcked_nonneg
  unfold StreamReceiver.duplicateAck
  simp only
  split
  · rename_i hrec
    have hrec : rxmitThresh ≤ s.dupAcks := by omega
    split
    · exact ⟨h.socket, hmss, h.mss_le, hpos, hlt, h.thresh_pos, h.thresh_le, hacked,
        fun _ => h.recovery hrec⟩
    · rename_i hsack
      have hsack : s.sack = false := by simpa using hsack
      have hin := h.recovery hrec hsack
      have hroom := hok hrec hsack
      refine ⟨h.socket, hmss, h.mss_le, ?_, hroom, h.thresh_pos, h.thresh_le, hacked, fun _ _ => ?_⟩
      · simp only
        omega
      · simp only
        omega
  rename_i hbefore
  split
  · split
    · exact h.of_idle rfl rfl rfl hpos hlt hacked (by simp only; omega)
    · obtain ⟨hlow, hhigh⟩ := cutThresh_bounds (s := { s with dupAcks := s.dupAcks + 1 }) h.mss_le
      split
      · exact h.entered rfl rfl ⟨hlow, hhigh⟩ ⟨Int.le_refl _, by simp only; omega⟩ hacked
      · refine h.entered rfl rfl ⟨hlow, hhigh⟩ ⟨?_, Int.le_refl _⟩ (Int.le_refl 0)
        exact Int.le_add_of_nonneg_right (show 0 ≤ 3 * s.mss by omega)
  rename_i hthird
  split
  · split
    · exact h.of_idle rfl rfl rfl hpos hlt hacked (by simp only; omega)
    · exact h.of_idle rfl rfl rfl hpos hlt hacked (by simp only; omega)
  · refine h.of_idle rfl rfl rfl hpos hlt hacked ?_
    simp only
    omega

/-- Out of fast recovery an acknowledgement of `acked` octets opens the window, at most to 65535. -/
theorem Windows.opened (h : Windows s) {ack : TCPSeq} (hdup : s.dupAcks < rxmitThresh)
    (hacked : 0 < (ack - s.sendUna).toInt) : Windows (s.openWindow ack) := by
  have hmss := h.mss_pos
  have hpos := h.cWin_pos
  have hcacked := h.cAcked_nonneg
  have hcut : ∀ {t : StreamReceiver}, t.mss = s.mss → t.socket = s.socket →
      t.ssThresh = s.ssThresh → t.dupAcks = s.dupAcks → 0 < t.cWin → 0 ≤ t.cAcked →
      Windows (if 65535 < t.cWin then { t with cWin := 65535 } else t) := by
    intro t h1 h2 h3 h4 h5 h6
    split
    · exact h.of_idle h1 h2 h3 (show (0 : Int) < 65535 by decide)
        (show (65535 : Int) < 2 ^ 31 by decide) h6 (by simp only; omega)
    · exact h.of_idle h1 h2 h3 h5 (by omega) h6 (by omega)
  unfold StreamReceiver.openWindow
  simp only
  rw [if_neg (by omega)]
  split
  · refine hcut rfl rfl rfl rfl ?_ ?_
    · simp only
      omega
    · simp only
      split <;> omega
  · obtain ⟨hlt, hnonneg, hle⟩ := growWindow_spec hmss
      (4 * s.cWin.natAbs + (s.cAcked + (ack - s.sendUna).toInt).natAbs + 4) hpos
      (show 0 ≤ s.cAcked + (ack - s.sendUna).toInt by omega) (by omega)
    exact hcut rfl rfl rfl rfl (by simp only; omega) hnonneg

/-- In fast recovery a partial acknowledgement moves octets from the window to those that are not yet
    added back. -/
theorem Windows.deflated (h : Windows s) {ack : TCPSeq} (hrec : rxmitThresh ≤ s.dupAcks)
    (hin : s.sack = false → s.mss ≤ s.cWin + s.cAcked) (hacked : 0 < (ack - s.sendUna).toInt)
    (hok : s.sack = false →
      s.cWin + s.cAcked - (s.cAcked + (ack - s.sendUna).toInt) % s.mss < 2 ^ 31) :
    Windows (s.openWindow ack) := by
  have hmss := h.mss_pos
  have hcacked := h.cAcked_nonneg
  unfold StreamReceiver.openWindow
  simp only
  rw [if_pos hrec]
  split
  · exact h
  · rename_i hsack
    have hsack : s.sack = false := by simpa using hsack
    have hin := hin hsack
    have hok := hok hsack
    obtain ⟨hrest, hwin⟩ := @addBack_spec _ hmss (s.cAcked + (ack - s.sendUna).toInt).toNat
      (s.cAcked + (ack - s.sendUna).toInt) (s.cWin - (ack - s.sendUna).toInt) (by omega) (by omega)
    have hmod := Int.emod_nonneg (s.cAcked + (ack - s.sendUna).toInt) (show s.mss ≠ 0 by omega)
    have hmod' := Int.emod_lt_of_pos (s.cAcked + (ack - s.sendUna).toInt) hmss
    refine ⟨h.socket, hmss, h.mss_le, ?_, ?_, h.thresh_pos, h.thresh_le, ?_, fun _ _ => ?_⟩
    all_goals
      simp only [hrest, hwin]
      omega

/-- An acknowledgement of `acked` octets. -/
theorem Windows.newAck (h : Windows s) {ack : TCPSeq} (hnew : ¬ seqLe ack s.sendUna)
    (hacked : 0 < (ack - s.sendUna).toInt) (hleft : 0 ≤ (s.sendMax - ack).toInt)
    (hok : rxmitThresh ≤ s.dupAcks → s.RecoveryOk ack) : Windows (s.newAck ack) := by
  have hmss := h.mss_pos
  have hthresh := h.thresh_pos
  have hthreshLe := h.thresh_le
  unfold StreamReceiver.newAck
  simp only
  split
  · rename_i hrec
    have hok := hok hrec
    unfold RecoveryOk at hok
    rw [if_neg hnew] at hok
    split
    · -- a partial acknowledgement
      rename_i hpartial
      rw [if_pos hpartial] at hok
      have hin := h.recovery hrec
      have hcount : rxmitThresh ≤ s.dupAcks + 1 := by omega
      split
      · refine Windows.deflated ?_ hcount hin hacked hok
        exact ⟨h.socket, hmss, h.mss_le, h.cWin_pos, h.cWin_lt, hthresh, hthreshLe, h.cAcked_nonneg,
          fun _ => hin⟩
      · refine Windows.deflated ?_ hcount hin hacked hok
        exact ⟨h.socket, hmss, h.mss_le, h.cWin_pos, h.cWin_lt, hthresh, hthreshLe, h.cAcked_nonneg,
          fun _ => hin⟩
    · -- fast recovery ends
      rename_i hfull
      rw [if_neg hfull] at hok
      split
      · rename_i hsack
        have := hok hsack
        exact h.of_idle rfl rfl rfl (by simp only; omega) (by simp only; omega) h.cAcked_nonneg
          (show (0 : Int) < 3 by decide)
      · exact h.of_idle rfl rfl rfl (by simp only; omega) (by simp only; omega) h.cAcked_nonneg
          (show (0 : Int) < 3 by decide)
  · refine Windows.opened ?_ (show (0 : Int) < 3 by decide) hacked
    exact h.of_idle rfl rfl rfl h.cWin_pos h.cWin_lt h.cAcked_nonneg (show (0 : Int) < 3 by decide)

/-- What `ack` does behind the congestion control leaves the windows alone. -/
theorem ack_windows {ack : TCPSeq} (hnew : ¬ seqLe ack s.sendUna) (seq : TCPSeq)
    (win sent len : Int) : SameWindows (s.newAck ack) (s.ack seq ack win sent len).2 := by
  refine ack_new_keeps (P := SameWindows (s.newAck ack)) hnew ⟨rfl, rfl, rfl, rfl, rfl, rfl, rfl⟩
    (fun hu => hu.trans ?_) (fun _ hu => hu.trans ⟨rfl, rfl, rfl, rfl, rfl, rfl, rfl⟩)
    (fun _ _ hu => hu.trans ⟨rfl, rfl, rfl, rfl, rfl, rfl, rfl⟩) (fun hu => hu.trans ?_)
    (fun hu => hu.trans ?_) sent len
  · unfold advanceUna
    simp only
    split <;> exact ⟨rfl, rfl, rfl, rfl, rfl, rfl, rfl⟩
  · unfold updateSendWin
    split <;> exact ⟨rfl, rfl, rfl, rfl, rfl, rfl, rfl⟩
  · unfold checkPersist
    simp only
    repeat' split
    all_goals exact ⟨rfl, rfl, rfl, rfl, rfl, rfl, rfl⟩

/-- The difference of two numbers that are not half the circle apart, the other way round. -/
theorem sub_toInt_neg {a b : TCPSeq} (hfar : a - b ≠ 0x80000000#32) :
    (b - a).toInt = -(a - b).toInt := by
  have hneg : b - a = -(a - b) := by bv_omega
  rw [hneg]
  exact BitVec.toInt_neg_of_ne_intMin hfar

theorem Windows.acked (h : Windows s) {ack : TCPSeq} (hmax : ¬ seqLt s.sendMax ack)
    (hok : ack - s.sendUna ≠ 0x80000000#32 ∧ ack - s.sendMax ≠ 0x80000000#32 ∧
      (rxmitThresh ≤ s.dupAcks → s.RecoveryOk ack)) (seq : TCPSeq) (win sent len : Int) :
    Windows (s.ack seq ack win sent len).2 := by
  obtain ⟨hfar, hfar', hrec⟩ := hok
  by_cases hnew : seqLe ack s.sendUna
  · unfold StreamReceiver.ack
    rw [if_pos hnew]
    split
    · exact h.of_idle rfl rfl rfl h.cWin_pos h.cWin_lt h.cAcked_nonneg (show (0 : Int) < 3 by decide)
    · split
      · exact h
      · refine h.duplicateAck ack fun hdup => ?_
        have hrec := hrec hdup
        unfold RecoveryOk at hrec
        rwa [if_pos hnew] at hrec
  · have huna := sub_toInt_neg hfar
    have hleft := sub_toInt_neg hfar'
    unfold seqLe at hnew
    unfold seqLt at hmax
    exact (h.newAck (by unfold seqLe; exact hnew) (by omega) (by omega) hrec).same
      (ack_windows hnew seq win sent len)

/-! ## Options -/

theorem bigEndian_two (bytes : List UInt8) : bigEndian (bytes.take 2) ≤ 65535 := by
  rcases bytes with _ | ⟨a, _ | ⟨b, rest⟩⟩
  · decide
  · have := a.toNat_lt
    simp [bigEndian]
    omega
  · have := a.toNat_lt
    have := b.toNat_lt
    simp [bigEndian]
    omega

/-- The options give a maximum segment size of 1 to 65535 octets. -/
theorem optionLoop_mss_range (hdr : TCPHdr) (fuel : Nat) (optlen : Int) (opt : List UInt8)
    {mss : Int} (s : StreamReceiver) (hmss : 0 < mss ∧ mss ≤ 65535) :
    0 < (optionLoop hdr fuel optlen opt mss s).2.1 ∧
      (optionLoop hdr fuel optlen opt mss s).2.1 ≤ 65535 := by
  induction fuel generalizing optlen opt mss s with
  | zero => exact hmss
  | succ fuel ih =>
    have hvalue := bigEndian_two (opt.drop 2)
    unfold optionLoop
    simp only
    repeat' split
    all_goals
      first
        | exact hmss
        | exact ih _ _ _ hmss
        | exact ih _ _ _ (by omega)

theorem getDefaultMSS_range (hsocket : s.socket.isSome) :
    0 < s.getDefaultMSS ∧ s.getDefaultMSS ≤ 65535 := by
  unfold getDefaultMSS
  split
  · split <;> omega
  · rename_i hnone
    rw [hnone] at hsocket
    cases hsocket

theorem updateBlock_windows (s : StreamReceiver) (ack start fin : TCPSeq) :
    SameWindows s (s.updateBlock ack start fin) := by
  unfold updateBlock
  simp only
  repeat' split
  all_goals exact ⟨rfl, rfl, rfl, rfl, rfl, rfl, rfl⟩

theorem updateScoreboard_windows (s : StreamReceiver) (ack : TCPSeq)
    (blocks : List (TCPSeq × TCPSeq)) : SameWindows s (s.updateScoreboard ack blocks) := by
  have hblocks : ∀ t, SameWindows s t →
      SameWindows s (blocks.foldl (fun s b => s.updateBlock ack b.1 b.2) t) := by
    induction blocks with
    | nil => exact fun t ht => ht
    | cons b blocks ih => exact fun t ht => ih _ (ht.trans (updateBlock_windows t ack b.1 b.2))
  have hsame := hblocks s ⟨rfl, rfl, rfl, rfl, rfl, rfl, rfl⟩
  unfold updateScoreboard
  split
  · exact ⟨rfl, rfl, rfl, rfl, rfl, rfl, rfl⟩
  · exact hsame.trans ⟨rfl, rfl, rfl, rfl, rfl, rfl, rfl⟩

theorem Windows.option (h : Windows s) (hdr : TCPHdr) : Windows (s.option hdr).2 := by
  have hloop : Windows (optionLoop hdr (hdr.hdrSize + 1) (hdr.hdrSize - 20) hdr.opt s.getDefaultMSS
      s).2.2 := by
    refine optionLoop_keeps (P := Windows) (fun t ht => ?_)
      (fun t ack blocks ht => ht.same (updateScoreboard_windows t ack blocks)) hdr _ _ _ _ h
    exact ⟨ht.socket, ht.mss_pos, ht.mss_le, ht.cWin_pos, ht.cWin_lt, ht.thresh_pos, ht.thresh_le,
      ht.cAcked_nonneg, fun _ hsack => nomatch hsack⟩
  have hmss := optionLoop_mss_range hdr (hdr.hdrSize + 1) (hdr.hdrSize - 20) hdr.opt s
    (getDefaultMSS_range h.socket)
  unfold StreamReceiver.option
  simp only
  generalize optionLoop hdr (hdr.hdrSize + 1) (hdr.hdrSize - 20) hdr.opt s.getDefaultMSS s = r
    at hloop hmss ⊢
  obtain ⟨ok, mss, t⟩ := r
  simp only at hloop hmss ⊢
  have h1 := hloop.mss_pos
  have h2 := hloop.mss_le
  have h3 := hloop.cAcked_nonneg
  have hdef : defSsthresh = 65535 := rfl
  split
  · exact hloop
  · split
    · -- a SYN, an old one too, sets the windows anew
      refine ⟨hloop.socket, ?_, ?_, ?_, ?_, ?_, ?_, h3, fun _ _ => ?_⟩
      all_goals
        simp only
        omega
    · exact hloop

/-! ## Timeouts and outputs -/

theorem Windows.expired (h : Windows s) : Windows s.expired.2 := by
  have hmss := h.mss_pos
  have hle := h.mss_le
  have hdefault := getDefaultMSS_range h.socket
  have hcount : Windows (countTimeout { s with rxmitTimer := none }) := by
    have hsame : getDefaultMSS { s with rxmitTimer := none } = s.getDefaultMSS := rfl
    unfold countTimeout
    simp only [hsame]
    refine ⟨h.socket, ?_, ?_, h.cWin_pos, h.cWin_lt, h.thresh_pos, h.thresh_le, h.cAcked_nonneg,
      fun hdup hsack => ?_⟩
    · simp only
      split <;> omega
    · simp only
      split <;> omega
    · have hin := h.recovery hdup hsack
      simp only
      split <;> omega
  unfold StreamReceiver.expired
  simp only
  split
  · exact h.same ⟨rfl, rfl, rfl, rfl, rfl, rfl, rfl⟩
  split
  · exact h.same (.of_congestion (abort_congestion { s with rxmitTimer := none }))
  generalize countTimeout { s with rxmitTimer := none } = t at hcount ⊢
  split
  · exact hcount.same (.of_congestion (abortWith_congestion t _))
  · have h1 := hcount.mss_pos
    have h2 := hcount.mss_le
    obtain ⟨hlow, hhigh⟩ := cutThresh_bounds (s := { t with sendNext := t.sendUna, rttTiming := 0 })
      hcount.mss_le
    refine ⟨hcount.socket, hcount.mss_pos, hcount.mss_le, hcount.mss_pos, ?_, ?_, hhigh,
      hcount.cAcked_nonneg, fun hdup => absurd hdup (show ¬ (3 : Int) ≤ 0 by decide)⟩
    · exact Int.lt_of_le_of_lt hcount.mss_le (by decide)
    · exact Int.lt_of_lt_of_le (show 0 < 2 * t.mss by omega) hlow

theorem Windows.output (h : Windows s) (stack : Flags) (oob : Bool) :
    Windows (s.output stack oob).2 := by
  have hsame := output_output s stack oob
  refine ⟨hsame.socket ▸ h.socket, hsame.mss ▸ h.mss_pos, hsame.mss ▸ h.mss_le,
    hsame.cWin ▸ h.cWin_pos, hsame.cWin ▸ h.cWin_lt, hsame.ssThresh ▸ h.thresh_pos,
    hsame.ssThresh ▸ h.thresh_le, hsame.cAcked ▸ h.cAcked_nonneg, fun hdup hsack => ?_⟩
  rw [hsame.mss, hsame.cWin, hsame.cAcked]
  rcases hsame.dupAcks with hkept | hnone
  · exact h.recovery (hkept ▸ hdup) (hsame.sack ▸ hsack)
  · rw [hnone] at hdup
    exact absurd hdup (by decide)

/-! ## Runs -/

theorem step_windows (h : Windows s) {op : CongestionOp} (hallowed : s.CongestionAllowed op)
    (hok : s.WindowOk op) : Windows (s.congestionStep op) := by
  cases op with
  | ack seq ack win sent len => exact h.acked hallowed hok seq win sent len
  | option hdr => exact h.option hdr
  | output stack oob => exact h.output stack oob
  | expired => exact h.expired
  | other next => exact h.same (.of_congestion hallowed)

theorem run_windows (hrun : congestionSystem.RunWith WindowOk s) : Windows s := by
  refine hrun.invariant Windows ?_ ?_
  · rintro s ⟨hsocket, hpos, hle, hwin, hthresh, hacked⟩
    have hdef : defSsthresh = 65535 := rfl
    refine ⟨hsocket, hpos, hle, ?_, ?_, ?_, ?_, hacked, fun _ _ => ?_⟩
    all_goals omega
  · rintro s op s' h hok ⟨hallowed, rfl⟩
    exact step_windows h hallowed hok

theorem Windows.loopsEnd (h : Windows s) {acked : Int} (hacked : 0 < acked) : s.LoopsEnd acked := by
  have hmss := h.mss_pos
  have hcacked := h.cAcked_nonneg
  have hsum : 0 ≤ s.cAcked + acked := by omega
  obtain ⟨hrest, -⟩ := @addBack_spec _ hmss (s.cAcked + acked).toNat _ (s.cWin - acked) hsum
    (by omega)
  obtain ⟨hgrown, -⟩ := growWindow_spec hmss
    (4 * s.cWin.natAbs + (s.cAcked + acked).natAbs + 4) h.cWin_pos hsum (by omega)
  have hmod := Int.emod_lt_of_pos (s.cAcked + acked) hmss
  unfold LoopsEnd
  simp only
  omega

/-- Along every run whose steps meet the condition the windows are positive and in the range of an
    `s32`, and the loops of `openWindow` end. -/
theorem windows_in_range (hrun : congestionSystem.RunWith WindowOk s) :
    s.WindowsInRange ∧ ∀ acked, 0 < acked → s.LoopsEnd acked := by
  have h := run_windows hrun
  have := h.thresh_le
  exact ⟨⟨h.cWin_pos, h.cWin_lt, h.thresh_pos, by omega⟩, fun _ hacked => h.loopsEnd hacked⟩

/-! ## A window of no octets -/

/-- A step with nothing to check but the acknowledgement. -/
def plainStep (s : StreamReceiver) (op : CongestionOp) : Option StreamReceiver :=
  match op with
  | .ack _ n _ _ _ => if seqLt s.sendMax n then none else some (s.congestionStep op)
  | .other _ => none
  | _ => some (s.congestionStep op)

theorem reachable_of_plain {ops : List CongestionOp} (hs : congestionSystem.Reachable s)
    (hrun : ops.foldlM plainStep s = some t) : congestionSystem.Reachable t := by
  induction ops generalizing s with
  | nil =>
    cases hrun
    exact hs
  | cons op ops ih =>
    rw [List.foldlM_cons, Option.bind_eq_bind, Option.bind_eq_some_iff] at hrun
    obtain ⟨mid, hstep, hrest⟩ := hrun
    refine ih (hs.next (l := op) trivial ?_) hrest
    unfold plainStep at hstep
    cases op with
    | ack seq ack win sent len =>
      simp only at hstep
      split at hstep
      · cases hstep
      · rename_i hmax
        cases hstep
        exact ⟨hmax, rfl⟩
    | other next => cases hstep
    | option hdr | output stack oob | expired =>
      cases hstep
      exact ⟨trivial, rfl⟩

/-- A connection with SACK and segments of 10 octets, whose user has written 600. -/
def smallSegments : StreamReceiver :=
  { create ⟨true, 1024, 1024, true, 0⟩ 0 with
    state := .established
    sack := true
    mss := 10
    cWin := 20
    sendWin := 1000
    sendRing := ⟨fun _ => 0, 1024, 0, 600⟩ }

theorem smallSegments_start {ok : StreamReceiver → CongestionOp → Prop} :
    congestionSystem.RunWith ok smallSegments :=
  .start ⟨rfl, by decide, by decide, by decide, by decide, by decide⟩

theorem windows_in_range_sent :
    (smallSegments.congestionStep (.output {} false)).WindowsInRange ∧
      ∀ acked, 0 < acked → (smallSegments.congestionStep (.output {} false)).LoopsEnd acked :=
  windows_in_range (smallSegments_start.next (l := .output {} false) trivial ⟨trivial, rfl⟩)

/-- An acknowledgement without text, of `sent` octets. -/
def ackOf (ack : TCPSeq) (sent : Int) : CongestionOp :=
  .ack 0 ack 1000 sent 0

/-- The options of a segment with two SACK blocks. -/
def sackOf (ack : TCPSeq) (start1 finish1 start2 finish2 : UInt8) : CongestionOp :=
  .option ⟨0, ack, { ack := true }, 1000, 0, 40,
    [1, 1, 5, 18, 0, 0, 0, start1, 0, 0, 0, finish1, 0, 0, 0, start2, 0, 0, 0, finish2]⟩

def sendOne : CongestionOp :=
  .output {} false

/-- Two segments are lost, the fourth duplicate finds the pipe full, and the acknowledgement that
    ends recovery carries SACK blocks. -/
def twoLost : List CongestionOp :=
  [sendOne, sendOne, ackOf 10 10, sendOne, sendOne, ackOf 20 10, sendOne, sendOne, ackOf 30 10,
    sendOne, sendOne, ackOf 40 10, sendOne, sendOne, ackOf 50 10, sendOne, sendOne, ackOf 60 10,
    sendOne, sendOne,
    sackOf 60 70 80 90 100, ackOf 60 0, sendOne, sackOf 60 70 80 90 100, ackOf 60 0, sendOne,
    sackOf 60 70 80 90 100, ackOf 60 0, sendOne,
    sackOf 140 70 80 90 100, ackOf 140 80]

theorem window_closed : ∃ s, congestionSystem.Reachable s ∧ s.cWin = 0 ∧ 0 < s.mss := by
  have hrun : (twoLost.foldlM plainStep smallSegments).any
      (fun s => decide (s.cWin = 0 ∧ 0 < s.mss)) = true := by
    decide +kernel
  obtain ⟨t, ht, hwin⟩ := (Option.any_eq_true _ _).mp hrun
  exact ⟨t, reachable_of_plain smallSegments_start ht, of_decide_eq_true hwin⟩

end EsOs.Net
