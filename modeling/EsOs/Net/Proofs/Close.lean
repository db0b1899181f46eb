import Mathlib
import EsOs.Net.Proofs.Acked

/-! # The acknowledgement of FIN

The invariant of the send sequence along the runs of a connection, and with it the closing
transitions. `ack` answers `true` also for an acknowledgement of nothing new, and so do the states
that ask it whether FIN is acknowledged. -/

namespace EsOs.Net

open EsOs.Lib StreamReceiver

variable {s s' : StreamReceiver} {fin : Option TCPSeq}

/-- The send sequence of a connection whose last FIN has the number `fin`. -/
structure Sound (fin : Option TCPSeq) (s : StreamReceiver) : Prop where
  bounds : s.SendBounds
  fits : s.sendRing.used ≤ s.sendRing.size
  size : s.sendRing.size < 2 ^ 30
  handshake : s.Handshake
  whole : State.hasBeenEstablished s.state = true → s.Complete →
    ∃ f d, fin = some f ∧ 0 ≤ d ∧ d ≤ 2 ^ 30 ∧ f = s.sendUna.add (s.queued - d)

/-- The state is kept, or the connection is closed, or it was and is past the handshake. -/
def StateKept (s s' : StreamReceiver) : Prop :=
  s'.state = s.state ∨ s'.state = .closed ∨
    (State.hasBeenEstablished s.state = true ∧ State.hasBeenEstablished s'.state = true)

theorem handshake_of_established (h : State.hasBeenEstablished s.state = true) : s.Handshake := by
  rintro (hs | hs) <;> rw [hs] at h <;> cases h

theorem Sound.same (h : Sound fin s) (hsame : SameSend s s') (hstate : StateKept s s') :
    Sound fin s' := by
  refine ⟨hsame.bounds h.bounds, ?_, ?_, ?_, ?_⟩
  · rw [hsame.ring]
    exact h.fits
  · rw [hsame.ring]
    exact h.size
  · intro hs
    rcases hstate with hkept | hclosed | ⟨-, hest⟩
    · rw [hsame.una, hsame.iss]
      exact h.handshake (hkept ▸ hs)
    · rw [hclosed] at hs
      rcases hs with hs | hs <;> cases hs
    · exact handshake_of_established hest hs
  · intro hest hcomplete
    have hest' : State.hasBeenEstablished s.state = true := by
      rcases hstate with hkept | hclosed | ⟨hest', -⟩
      · exact hkept ▸ hest
      · rw [hclosed] at hest
        cases hest
      · exact hest'
    have hcomplete' : s.Complete := by
      unfold StreamReceiver.Complete at hcomplete ⊢
      rwa [hsame.maxOff, hsame.nextOff, hsame.queued] at hcomplete
    rw [hsame.una, hsame.queued]
    exact h.whole hest' hcomplete'

theorem Sound.input (h : Sound fin s) (hsame : SameInput s s') : Sound fin s' :=
  h.same hsame.same (.inl hsame.state)

/-- An acknowledgement after the handshake. -/
theorem Sound.acked {ack : TCPSeq} {win : Int} (h : Sound fin s)
    (hest : State.hasBeenEstablished s.state = true)
    (he : Acked s s' ack win (ack - s.sendUna).toInt)
    (hpos : 0 < (ack - s.sendUna).toInt) (hle : (ack - s.sendUna).toInt ≤ s.maxOff)
    (hwin : 0 ≤ win) (hwin' : win < 2 ^ 16) : Sound fin s' := by
  have hb := h.bounds
  refine ⟨he.bounds hb hpos hle (Int.le_refl _) hwin hwin', ?_, ?_, ?_, ?_⟩
  · have hused := he.used
    have hsize := he.size
    have hfits := h.fits
    unfold queued at hused
    omega
  · rw [he.size]
    exact h.size
  · exact handshake_of_established (he.state ▸ hest)
  · intro _ hcomplete
    have hmax := he.maxOff hb hpos hle
    have hnext := he.nextOff hb hpos hle
    have hused := he.used
    have hq0 : 0 ≤ s.queued := Int.natCast_nonneg _
    have hmle := hb.max_le
    have hnle := hb.next_le
    have hcomplete' : s.Complete ∧ s'.queued = s.queued - (ack - s.sendUna).toInt := by
      unfold StreamReceiver.Complete at hcomplete ⊢
      omega
    obtain ⟨f, d, hfin, hd0, hd, hf⟩ := h.whole hest hcomplete'.1
    refine ⟨f, d, hfin, hd0, hd, ?_⟩
    have hack : s.sendUna.add (s.queued - d) =
        (s.sendUna.add (ack - s.sendUna).toInt).add (s'.queued - d) := by
      rw [add_add, hcomplete'.2]
      congr 1
      omega
    rw [hf, he.una, hack, ← eq_add]

/-- The acknowledgement of SYN, which takes no octet of the send buffer. -/
theorem Acked.sound {ack : TCPSeq} {win : Int} (hb : s.SendBounds)
    (hfits : s.sendRing.used ≤ s.sendRing.size) (hsize : s.sendRing.size < 2 ^ 30)
    (hest : State.hasBeenEstablished s.state = true)
    (he : Acked s s' ack win ((ack - s.sendUna).toInt - 1))
    (hpos : 0 < (ack - s.sendUna).toInt) (hle : (ack - s.sendUna).toInt ≤ s.maxOff)
    (hwin : 0 ≤ win) (hwin' : win < 2 ^ 16) : Sound fin s' := by
  refine ⟨he.bounds hb hpos hle (by omega) hwin hwin', ?_, ?_, ?_, ?_⟩
  · have hused := he.used
    have hsize := he.size
    unfold queued at hused
    omega
  · rw [he.size]
    exact hsize
  · exact handshake_of_established (he.state ▸ hest)
  · intro _ hcomplete
    have hmax := he.maxOff hb hpos hle
    have hnext := he.nextOff hb hpos hle
    have hused := he.used
    have hq0 : 0 ≤ s.queued := Int.natCast_nonneg _
    have hmle := hb.max_le
    have hnle := hb.next_le
    unfold StreamReceiver.Complete at hcomplete
    omega

/-! ## Input -/

/-- The end of an input. FIN is processed only after the handshake. -/
theorem Sound.textAndFin (h : Sound fin s) (m : List UInt8) (g : Segment)
    {next : StreamReceiver → State} (hnext : ∀ t, State.hasBeenEstablished (next t) = true)
    (hfin : g.flag.fin = true → State.hasBeenEstablished s.state = true) :
    Sound fin (s.textAndFin m g next).2 := by
  refine h.same (textAndFin_same s m g next) ?_
  rcases textAndFin_state s m g next with hkept | hclosed | ⟨hf, t, -, hstate⟩
  · exact .inl hkept
  · exact .inr (.inl hclosed)
  · exact .inr (.inr ⟨hfin hf, hstate ▸ hnext t⟩)

/-- What the closing transitions need of an arriving segment. Where an acknowledgement is processed,
    it is not `2 ^ 31` octets away from `sendUna`, and in the states that wait for the
    acknowledgement of FIN it is newer than `sendUna`. FIN does not take the connection out of the
    handshake, and the segment that completes it has good options. -/
structure InputOk (s : StreamReceiver) (hdr : TCPHdr) (m : List UInt8) : Prop where
  far : hdr.flag.ack = true → hdr.ack - s.sendUna ≠ 0x80000000#32
  newer : s.state = .finWait1 ∨ s.state = .closing ∨ s.state = .lastAck →
    (∃ g s', s.check hdr m none = .go g s') → seqLt s.sendUna hdr.ack
  syn : s.state = .synReceived →
    (hdr.flag.fin = true → hdr.flag.ack = true ∧ seqLt s.iss hdr.ack) ∧
      (hdr.flag.ack = true → seqLt s.iss hdr.ack → (s.option hdr).1 = true)

/-- An acknowledgement that passed the checks after the handshake. -/
theorem Sound.ackSegment {hdr : TCPHdr} {g : Segment} (h : Sound fin s)
    (hest : State.hasBeenEstablished s.state = true)
    (hfar : hdr.ack - s.sendUna ≠ 0x80000000#32) (hmax : ¬ seqLt s.sendMax hdr.ack) :
    Sound fin (s.ackSegment hdr g).2 ∧ (s.ackSegment hdr g).2.state = s.state := by
  have hwin : ((hdr.win.toNat : Nat) : Int) < 2 ^ 16 := by
    have := hdr.win.isLt
    omega
  rcases ack_cases s g.seq hdr.ack hdr.win.toNat (hdr.ack - s.sendUna).toInt g.len with
    ⟨-, hsame⟩ | ⟨hnew, he, -⟩
  · exact ⟨h.input hsame, hsame.state⟩
  · obtain ⟨hpos, hle⟩ := accepted_offset h.bounds hfar hnew hmax
    exact ⟨h.acked hest he hpos hle (Int.natCast_nonneg _) hwin, he.state⟩

/-- In the states that wait for it, `ack` finds FIN acknowledged only if it is. -/
theorem ackSegment_fin {hdr : TCPHdr} {g : Segment} (h : Sound fin s)
    (hest : State.hasBeenEstablished s.state = true)
    (hnewer : seqLt s.sendUna hdr.ack) (hmax : ¬ seqLt s.sendMax hdr.ack)
    (hacked : (s.ackSegment hdr g).1 = true) : ∃ f, fin = some f ∧ seqLe (f + 1) hdr.ack := by
  have hb := h.bounds
  have hq := hb.queued_lt
  have hq0 : 0 ≤ s.queued := Int.natCast_nonneg _
  have hpos : 0 < (hdr.ack - s.sendUna).toInt := hnewer
  have hhi := BitVec.toInt_lt (x := hdr.ack - s.sendUna)
  have hack := eq_add s.sendUna hdr.ack
  have hfar : hdr.ack - s.sendUna ≠ 0x80000000#32 := by
    intro hc
    rw [hc] at hpos
    exact absurd hpos (by decide)
  have hnew : ¬ seqLe hdr.ack s.sendUna := not_seqLe_of_seqLt hnewer
  obtain ⟨-, hle⟩ := accepted_offset hb hfar hnew hmax
  rcases ack_cases s g.seq hdr.ack hdr.win.toNat (hdr.ack - s.sendUna).toInt g.len with
    ⟨hold, -⟩ | ⟨-, -, hres⟩
  · exact absurd hold hnew
  · have hlt : s.queued < (hdr.ack - s.sendUna).toInt := by
      have : (s.ackSegment hdr g).1 = decide (s.queued < (hdr.ack - s.sendUna).toInt) := hres
      rw [hacked] at this
      exact of_decide_eq_true this.symm
    have hmaxle := hb.max_le
    have hall : (hdr.ack - s.sendUna).toInt = s.queued + 1 := by omega
    obtain ⟨f, d, hfin, hd0, hd, hf⟩ := h.whole hest (.inl (by omega))
    refine ⟨f, hfin, ?_⟩
    rw [hf, add_one, hack, hall]
    exact (seqLe_add _ (by omega) (by omega)).mpr (by omega)

/-- An input that is over with the checks. -/
theorem Sound.over {hdr : TCPHdr} {m : List UInt8} {err : Option Errno} {reply : Bool}
    (h : Sound fin s) (hc : s.check hdr m err = .stop reply s') : Sound fin s' := by
  obtain ⟨hsame, hstate⟩ := check_over hc
  exact h.same hsame (hstate.imp_right .inl)

/-- The connection after the checks and `ack`. -/
theorem Sound.go {hdr : TCPHdr} {m : List UInt8} {err : Option Errno} {g : Segment}
    (h : Sound fin s) (hest : State.hasBeenEstablished s.state = true) (hok : InputOk s hdr m)
    (hc : s.check hdr m err = .go g s') :
    Sound fin (s'.ackSegment hdr g).2 ∧ (s'.ackSegment hdr g).2.state = s.state := by
  obtain ⟨hsame, hmax, hack, -⟩ := check_go hc
  have hfar := hok.far hack
  rw [← hsame.same.una] at hfar
  rw [← hsame.same.max] at hmax
  obtain ⟨hs, hstate⟩ := (h.input hsame).ackSegment (g := g) (hsame.state ▸ hest) hfar hmax
  exact ⟨hs, hstate.trans hsame.state⟩

theorem Sound.setState (h : Sound fin s) (hest : State.hasBeenEstablished s.state = true)
    {state : State} (hnext : State.hasBeenEstablished state = true) :
    Sound fin (s.setState state) :=
  h.same (setState_same s state) (.inr (.inr ⟨hest, by rw [setState_state]; exact hnext⟩))

theorem Sound.abort (h : Sound fin s) : Sound fin s.abort :=
  h.same (abort_same s) (.inr (.inl (abort_state s)))

theorem Sound.abortWith (h : Sound fin s) (err : Option Errno) :
    Sound fin (StreamReceiver.abort { s with err := err }) :=
  h.same (abortWith_same s err) (.inr (.inl (abort_state _)))

/-- The states from `established` to `timeWait` except the last. -/
theorem input_established {hdr : TCPHdr} {m : List UInt8} (h : Sound fin s)
    (hest : State.hasBeenEstablished s.state = true) (hok : InputOk s hdr m) :
    Sound fin (s.input hdr m).2 := by
  have hgo : ∀ {err g s'}, s.check hdr m err = .go g s' →
      Sound fin (s'.ackSegment hdr g).2 ∧
        State.hasBeenEstablished (s'.ackSegment hdr g).2.state = true := by
    intro err g s' hc
    obtain ⟨hs, hstate⟩ := h.go hest hok hc
    exact ⟨hs, hstate ▸ hest⟩
  unfold StreamReceiver.input
  cases hstate : s.state <;> simp only
  case closed | listen | synSent | synReceived =>
    rw [hstate] at hest
    cases hest
  case established =>
    unfold StateEstablished.input
    split
    · rename_i hc
      exact h.over hc
    · rename_i hc
      obtain ⟨hs, hs'⟩ := hgo hc
      exact hs.textAndFin m _ (fun _ => rfl) fun _ => hs'
  case finWait1 =>
    unfold StateFinWait1.input
    split
    · rename_i hc
      exact h.over hc
    · rename_i g t hc
      obtain ⟨hs, hs'⟩ := hgo hc
      simp only
      refine Sound.textAndFin ?_ m _ (fun t => ?_) fun _ => ?_
      · split
        · exact hs.setState hs' rfl
        · exact hs
      · split <;> rfl
      · split
        · rw [setState_state]
          rfl
        · exact hs'
  case finWait2 =>
    unfold StateFinWait2.input
    split
    · rename_i hc
      exact h.over hc
    · rename_i hc
      obtain ⟨hs, hs'⟩ := hgo hc
      exact hs.textAndFin m _ (fun _ => rfl) fun _ => hs'
  case closeWait =>
    unfold StateCloseWait.input
    split
    · rename_i hc
      exact h.over hc
    · rename_i hc
      exact (hgo hc).1
  case lastAck =>
    unfold StateLastAck.input
    split
    · rename_i hc
      exact h.over hc
    · rename_i hc
      obtain ⟨hs, -⟩ := hgo hc
      simp only
      split
      · exact hs.abortWith none
      · exact hs
  case closing =>
    unfold StateClosing.input
    split
    · rename_i hc
      exact h.over hc
    · rename_i g t hc
      obtain ⟨hs, hs'⟩ := hgo hc
      simp only
      split
      · have herr : Sound fin { (t.ackSegment hdr g).2 with err := none } :=
          hs.input ⟨⟨rfl, rfl, rfl, rfl, rfl, rfl, id, id⟩, rfl⟩
        exact herr.setState hs' rfl
      · exact hs
  case timeWait =>
    unfold StateTimeWait.input
    split
    · exact h.abort
    · split
      · rename_i hc
        exact h.over hc
      · rename_i hc
        obtain ⟨hs, -⟩ := hgo hc
        exact hs.input ⟨⟨rfl, rfl, rfl, rfl, rfl, rfl, id, id⟩, rfl⟩

theorem trim_input (s : StreamReceiver) (g : Segment) : SameInput s (s.trim g).2.2 :=
  ⟨trim_same s g, trim_state s g⟩

/-- The acknowledgement of SYN takes a `synReceived` connection past the handshake. -/
theorem Sound.synAcked {hdr : TCPHdr} (h : Sound fin s) (huna : s.sendUna = s.iss)
    (hack : seqLt s.iss hdr.ack) (hfar : hdr.ack - s.sendUna ≠ 0x80000000#32)
    (hmax : ¬ seqLt s.sendMax hdr.ack) (g : Segment) :
    ∃ s1, s.synAcked hdr g = ((hdr.ack - s.sendUna).toInt - 1, s1) ∧
      State.hasBeenEstablished s1.state = true ∧
      ∀ s2, SameInput s1 s2 → Sound fin
        (s2.ack g.seq hdr.ack hdr.win.toNat ((hdr.ack - s.sendUna).toInt - 1) g.len).2 ∧
        (s2.ack g.seq hdr.ack hdr.win.toNat ((hdr.ack - s.sendUna).toInt - 1) g.len).2.state =
          s1.state := by
  have hwin : ((hdr.win.toNat : Nat) : Int) < 2 ^ 16 := by
    have := hdr.win.isLt
    omega
  have hset := setState_same s (if s.shutwr then .finWait1 else .established)
  have hmss := setState_mss s (if s.shutwr then .finWait1 else .established)
  have hasb := setState_asb s (if s.shutwr then .finWait1 else .established)
  have hst := setState_state s (if s.shutwr then .finWait1 else .established)
  unfold StreamReceiver.synAcked
  simp only [if_pos hack, if_pos huna]
  generalize s.setState (if s.shutwr then .finWait1 else .established) = t at hset hmss hasb hst ⊢
  refine ⟨_, rfl, ?_, ?_⟩
  · simp only [hst]
    split <;> rfl
  · intro s2 hin
    have hb := h.bounds
    have hb1 : SendBounds { t with
        sendWin := hdr.win.toNat, sendWL1 := g.seq, sendWL2 := hdr.ack
        sendMaxWin := hdr.win.toNat } := by
      refine ⟨?_, Int.natCast_nonneg _, hwin, hmss ▸ hb.mss_nonneg, hasb ▸ hb.asb_le, ?_, ?_, ?_, ?_⟩
      · simp only [queued, hset.ring]
        exact hb.queued_lt
      · simp only [nextOff, hset.next, hset.una]
        exact hb.next_nonneg
      · simp only [nextOff, queued, hset.next, hset.una, hset.ring]
        exact hb.next_le
      · simp only [maxOff, hset.max, hset.una]
        exact hb.max_nonneg
      · simp only [maxOff, queued, hset.max, hset.una, hset.ring]
        exact hb.max_le
    have hb2 := hin.same.bounds hb1
    have huna2 : s2.sendUna = s.sendUna := hin.same.una.trans hset.una
    have hmax2 : s2.sendMax = s.sendMax := hin.same.max.trans hset.max
    have hring2 : s2.sendRing = s.sendRing := hin.same.ring.trans hset.ring
    have hlt2 : seqLt s2.sendUna hdr.ack := by
      rw [huna2, huna]
      exact hack
    have hest2 : State.hasBeenEstablished s2.state = true := by
      rw [hin.state]
      simp only [hst]
      split <;> rfl
    have hnew := not_seqLe_of_seqLt hlt2
    obtain ⟨hpos, hle⟩ := accepted_offset hb2 (huna2.symm ▸ hfar) hnew (hmax2.symm ▸ hmax)
    have hsent : (hdr.ack - s.sendUna).toInt = (hdr.ack - s2.sendUna).toInt := by rw [huna2]
    rw [hsent]
    rcases ack_cases s2 g.seq hdr.ack hdr.win.toNat ((hdr.ack - s2.sendUna).toInt - 1) g.len with
      ⟨hold, -⟩ | ⟨-, he, -⟩
    · exact absurd hold hnew
    · exact ⟨Acked.sound hb2 (hring2 ▸ h.fits) (hring2 ▸ h.size) hest2 he hpos hle
        (Int.natCast_nonneg _) hwin, he.state.trans hin.state⟩

/-- In `synReceived` the connection goes on with a segment that acknowledges SYN. -/
theorem input_synReceived {hdr : TCPHdr} {m : List UInt8} (h : Sound fin s)
    (hstate : s.state = .synReceived) (hok : InputOk s hdr m) :
    Sound fin (s.input hdr m).2 := by
  have huna : s.sendUna = s.iss := h.handshake (.inr hstate)
  obtain ⟨hfinOk, hoptOk⟩ := hok.syn hstate
  unfold StreamReceiver.input
  rw [hstate]
  simp only
  unfold StateSynReceived.input
  split
  · rename_i hc
    obtain ⟨hsame, hkept⟩ := checkSyn_over hc
    exact h.same hsame (hkept.imp_right .inl)
  · rename_i g s1 hc
    obtain ⟨hin, hg, hrange⟩ := checkSyn_go hc
    obtain ⟨hgack, hgfin⟩ := trim_flags s (segment hdr m)
    rw [← hg] at hgack hgfin
    have h1 := h.input hin
    have huna1 : s1.sendUna = s1.iss := hin.same.una.trans (huna.trans hin.same.iss.symm)
    split
    · rename_i hflag
      have hack : hdr.flag.ack = true := hgack ▸ hflag
      have hmax : ¬ seqLt s1.sendMax hdr.ack := by
        rw [hin.same.max]
        exact fun hlt => hrange ⟨hack, .inr hlt⟩
      have hfar1 : hdr.ack - s1.sendUna ≠ 0x80000000#32 := hin.same.una ▸ hok.far hack
      by_cases hsyn : seqLt s1.iss hdr.ack
      · obtain ⟨s2, heq, hest, hnext⟩ := h1.synAcked huna1 hsyn hfar1 hmax g
        have hright : (s2.option hdr).1 = true :=
          (option_ok s2 s hdr).trans (hoptOk hack (hin.same.iss ▸ hsyn))
        obtain ⟨hs, hst⟩ := hnext (s2.option hdr).2
          ⟨(option_same s2 hdr).1, (option_same s2 hdr).2⟩
        simp only [heq]
        rw [if_neg (by rw [hright]; simp)]
        exact hs.textAndFin m g (fun _ => rfl) fun _ => hst ▸ hest
      · -- nothing new is acknowledged
        have hnofin : g.flag.fin = true → False := fun hf =>
          hsyn (by rw [hin.same.iss]; exact (hfinOk (hgfin hf)).2)
        have hold : seqLe hdr.ack s1.sendUna := by
          have hnot : ¬ seqLt hdr.ack s1.sendUna := by
            rw [hin.same.una]
            exact fun hlt => hrange ⟨hack, .inl hlt⟩
          rw [huna1] at hnot hfar1 ⊢
          exact seqLe_of_not hnot hsyn hfar1
        obtain ⟨hsame2, hstate2⟩ := option_same s1 hdr
        have h2 : Sound fin (s1.option hdr).2 := h1.input ⟨hsame2, hstate2⟩
        have hold2 : seqLe hdr.ack (s1.option hdr).2.sendUna := by
          rw [hsame2.una]
          exact hold
        unfold StreamReceiver.synAcked
        simp only [if_neg hsyn]
        generalize (s1.option hdr).2 = s2 at h2 hold2 ⊢
        split
        · exact h2
        · rcases ack_cases s2 g.seq hdr.ack hdr.win.toNat
              (hdr.ack - s1.sendUna).toInt g.len with ⟨-, hsame⟩ | ⟨hnew, -⟩
          · exact (h2.input hsame).textAndFin m g (fun _ => rfl) fun hf => absurd (hnofin hf) id
          · exact absurd hold2 hnew
    · rename_i hnoack
      have hnofin : g.flag.fin = true → False := by
        intro hf
        have := (hfinOk (hgfin hf)).1
        rw [hgack] at hnoack
        exact hnoack this
      exact h1.textAndFin m g (fun _ => rfl) fun hf => absurd (hnofin hf) id

/-- The acknowledgement of SYN in `synSent` moves `sendUna` by one. -/
theorem Sound.opened {win : Int} (h : Sound fin s) (hmax : 0 < s.maxOff) (hwin : 0 ≤ win)
    (hwin' : win < 2 ^ 16) (huna : s'.sendUna = s.sendUna + 1)
    (hnext : s'.sendNext = if seqLt s.sendNext (s.sendUna + 1) then s.sendUna + 1 else s.sendNext)
    (hmax' : s'.sendMax = s.sendMax) (hring : s'.sendRing = s.sendRing) (hw : s'.sendWin = win)
    (hmss : s'.mss = s.mss) (hasb : s'.asb = s.asb) (hiss : s'.iss = s.iss)
    (hstate : s'.state = .established) : Sound fin s' := by
  have hb := h.bounds
  have hone : (s.sendUna + 1 - s.sendUna).toInt = 1 := by
    have : s.sendUna + 1 - s.sendUna = 1#32 := by bv_omega
    rw [this]
    decide
  have hq0 : 0 ≤ s.queued := Int.natCast_nonneg _
  have he : Acked { s with state := .established } s' (s.sendUna + 1) win
      ((s.sendUna + 1 - s.sendUna).toInt - 1) := by
    refine ⟨huna, hnext, hmax', ?_, by rw [hring], hiss, .inr hw, fun h0 => hmss ▸ h0,
      fun h0 => hasb ▸ h0, hstate⟩
    show (s'.sendRing.used : Int) = s.queued - min s.queued _
    rw [hring, hone]
    show s.queued = _
    omega
  exact Acked.sound (s := { s with state := .established })
    ⟨hb.queued_lt, hb.win_nonneg, hb.win_lt, hb.mss_nonneg, hb.asb_le, hb.next_nonneg, hb.next_le,
      hb.max_nonneg, hb.max_le⟩ h.fits h.size rfl he
    (by show 0 < (s.sendUna + 1 - s.sendUna).toInt; omega)
    (by show (s.sendUna + 1 - s.sendUna).toInt ≤ s.maxOff; omega) hwin hwin'

/-- A simultaneous open: SYN is received and is sent once more. -/
theorem Sound.reopened (h : Sound fin s) (hstate : s.state = .synSent)
    (huna : s'.sendUna = s.sendUna) (hnext : s'.sendNext = s.sendUna)
    (hmax : s'.sendMax = s.sendMax) (hring : s'.sendRing = s.sendRing)
    (hw : s'.sendWin = s.sendWin) (hmss : s'.mss = s.mss) (hasb : s'.asb = s.asb)
    (hiss : s'.iss = s.iss) (hstate' : s'.state = .synReceived) : Sound fin s' := by
  have hb := h.bounds
  have hq0 : 0 ≤ s.queued := Int.natCast_nonneg _
  have hzero : s'.nextOff = 0 := by
    simp only [nextOff, hnext, huna, BitVec.sub_self, BitVec.toInt_zero]
  have hqueued : s'.queued = s.queued := by simp only [queued, hring]
  have hmaxOff : s'.maxOff = s.maxOff := by simp only [maxOff, hmax, huna]
  refine ⟨⟨hqueued ▸ hb.queued_lt, hw ▸ hb.win_nonneg, hw ▸ hb.win_lt, hmss ▸ hb.mss_nonneg,
    hasb ▸ hb.asb_le, by omega, by omega, hmaxOff ▸ hb.max_nonneg, ?_⟩, hring ▸ h.fits,
    hring ▸ h.size, ?_, ?_⟩
  · rw [hmaxOff, hqueued]
    exact hb.max_le
  · intro _
    rw [huna, hiss]
    exact h.handshake (.inl hstate)
  · intro hest
    rw [hstate'] at hest
    cases hest

theorem takeSyn_input (s : StreamReceiver) (seq : TCPSeq) : SameInput s (s.takeSyn seq) :=
  ⟨⟨rfl, rfl, rfl, rfl, rfl, rfl, id, id⟩, rfl⟩

/-- The acknowledgement of SYN takes a `synSent` connection to `established`. -/
theorem answered_established {hdr : TCPHdr} (h : Sound fin s) (hack : hdr.flag.ack = true)
    (hlt : seqLt s.iss hdr.ack) (hmax : 0 < s.maxOff) :
    Sound fin (s.answered hdr) ∧ (s.answered hdr).state = .established ∧
      (s.answered hdr).sendUna = s.sendUna + 1 ∧ (s.answered hdr).sendMax = s.sendMax := by
  have hwin : ((hdr.win.toNat : Nat) : Int) < 2 ^ 16 := by
    have := hdr.win.isLt
    omega
  have hrtt : SameInput s (if s.rttTiming ≠ 0 ∧ seqLt s.rttSeq hdr.ack then
      s.updateRto (s.now - s.rttTiming) else s) := by
    split
    · exact updateRto_same s _
    · exact .refl s
  unfold answered
  rw [if_pos ⟨hack, hlt⟩]
  simp only
  generalize (if s.rttTiming ≠ 0 ∧ seqLt s.rttSeq hdr.ack then
      s.updateRto (s.now - s.rttTiming) else s) = s1 at hrtt ⊢
  have h1 := h.input hrtt
  have hmax1 : 0 < s1.maxOff := by
    rw [hrtt.same.maxOff]
    exact hmax
  generalize hs2 : { s1 with
    sendUna := s1.sendUna + 1
    sendNext := if seqLt s1.sendNext (s1.sendUna + 1) then s1.sendUna + 1 else s1.sendNext } = s2
  have hset := setState_same s2 .established
  have hstate := setState_state s2 .established
  have hmss := setState_mss s2 .established
  have hasb := setState_asb s2 .established
  generalize s2.setState .established = s3 at hset hstate hmss hasb ⊢
  subst hs2
  exact ⟨h1.opened hmax1 (Int.natCast_nonneg _) hwin hset.una hset.next hset.max hset.ring rfl hmss
      hasb hset.iss hstate, hstate, hset.una.trans (hrtt.same.una ▸ rfl),
    hset.max.trans hrtt.same.max⟩

/-- Without it, the connection is `synReceived` and sends its SYN once more. -/
theorem answered_synReceived {hdr : TCPHdr} (h : Sound fin s) (hstate : s.state = .synSent)
    (hnot : ¬ (hdr.flag.ack = true ∧ seqLt s.iss hdr.ack)) : Sound fin (s.answered hdr) := by
  have hset := setState_same s .synReceived
  have hstate' := setState_state s .synReceived
  have hmss := setState_mss s .synReceived
  have hasb := setState_asb s .synReceived
  unfold answered
  rw [if_neg hnot]
  generalize s.setState .synReceived = s1 at hset hstate' hmss hasb ⊢
  exact h.reopened hstate hset.una rfl hset.max hset.ring hset.win hmss hasb hset.iss hstate'

/-- The rest of the segment when SYN is acknowledged. -/
theorem Sound.afterSyn {hdr : TCPHdr} (h : Sound fin s) (m : List UInt8)
    (hest : State.hasBeenEstablished s.state = true)
    (hfar : hdr.ack - s.sendUna ≠ 0x80000000#32) : Sound fin (s.afterSyn hdr m).2 := by
  have htrim := trim_input s (segment hdr m)
  unfold StreamReceiver.afterSyn
  simp only
  generalize s.trim (segment hdr m) = t at htrim ⊢
  obtain ⟨accepted, g, s1⟩ := t
  simp only at htrim ⊢
  have h1 := h.input htrim
  split
  · exact h1
  · split
    · exact h1
    · split
      · exact h1.input ⟨⟨rfl, rfl, rfl, rfl, rfl, rfl, id, id⟩, rfl⟩
      · rename_i hmax
        have hest1 : State.hasBeenEstablished s1.state = true := htrim.state ▸ hest
        obtain ⟨hs, hst⟩ := h1.ackSegment (g := g) hest1 (htrim.same.una ▸ hfar) hmax
        exact hs.textAndFin m g (fun _ => rfl) fun _ => hst ▸ hest1

/-- The rest of a segment that carries no acknowledgement. -/
theorem Sound.afterSyn_noack {hdr : TCPHdr} (h : Sound fin s) (m : List UInt8)
    (hack : hdr.flag.ack = false) : Sound fin (s.afterSyn hdr m).2 := by
  have htrim := trim_input s (segment hdr m)
  obtain ⟨hgack, -⟩ := trim_flags s (segment hdr m)
  unfold StreamReceiver.afterSyn
  simp only
  generalize s.trim (segment hdr m) = t at htrim hgack ⊢
  obtain ⟨accepted, g, s1⟩ := t
  simp only at htrim hgack ⊢
  have h1 := h.input htrim
  have hgack : g.flag.ack = false := hgack.trans hack
  split
  · exact h1
  · exact h1

theorem input_synSent {hdr : TCPHdr} {m : List UInt8} (h : Sound fin s)
    (hstate : s.state = .synSent) (hok : InputOk s hdr m) : Sound fin (s.input hdr m).2 := by
  have huna : s.sendUna = s.iss := h.handshake (.inl hstate)
  unfold StreamReceiver.input
  rw [hstate]
  simp only
  unfold StateSynSent.input
  split
  · exact h
  · rename_i hrange
    split
    · split
      · exact h.abortWith _
      · exact h
    · split
      · exact h
      · obtain ⟨hopt, hoptState⟩ := option_same (s.takeSyn hdr.seq) hdr
        have hin := (takeSyn_input s hdr.seq).trans ⟨hopt, hoptState⟩
        simp only
        generalize (s.takeSyn hdr.seq).option hdr = o at hin ⊢
        obtain ⟨ok, s1⟩ := o
        simp only at hin ⊢
        have h1 := h.input hin
        have huna1 : s1.sendUna = s1.iss := hin.same.una.trans (huna.trans hin.same.iss.symm)
        split
        · by_cases hsyn : hdr.flag.ack = true ∧ seqLt s1.iss hdr.ack
          · -- SYN is acknowledged
            obtain ⟨hack, hlt⟩ := hsyn
            have hfar1 : hdr.ack - s1.sendUna ≠ 0x80000000#32 := by
              rw [hin.same.una]
              exact hok.far hack
            have hlt1 : seqLt s1.sendUna hdr.ack := huna1 ▸ hlt
            have hmax1 : ¬ seqLt s1.sendMax hdr.ack := by
              rw [hin.same.max]
              exact fun hc => hrange ⟨hack, .inr hc⟩
            obtain ⟨hpos, hle⟩ := accepted_offset h1.bounds hfar1 (not_seqLe_of_seqLt hlt1) hmax1
            obtain ⟨h2, hst2, huna2, -⟩ := answered_established h1 hack hlt (by omega)
            refine h2.afterSyn m (by rw [hst2]; rfl) ?_
            have hq := h1.bounds.queued_lt
            have hmle := h1.bounds.max_le
            have hdist : (hdr.ack - (s1.answered hdr).sendUna).toInt =
                (hdr.ack - s1.sendUna).toInt - 1 := by
              have hone : s1.sendUna + 1 = s1.sendUna.add 1 := rfl
              rw [huna2, hone]
              conv => lhs; rw [eq_add s1.sendUna hdr.ack]
              exact add_sub_add_toInt _ (by omega) (by omega)
            intro hc
            rw [hc] at hdist
            have : ((0x80000000#32 : BitVec 32).toInt) = -2 ^ 31 := by decide
            omega
          · -- a simultaneous open: an acknowledgement would be one of SYN
            refine (answered_synReceived h1 (hin.state.trans hstate) hsyn).afterSyn_noack m ?_
            cases hack : hdr.flag.ack
            · rfl
            · have hlt : ¬ seqLt s.iss hdr.ack := fun hc =>
                hsyn ⟨hack, by rw [hin.same.iss]; exact hc⟩
              have hnle : ¬ seqLe hdr.ack s.iss := fun hc => hrange ⟨hack, .inl hc⟩
              refine absurd (seqLe_of_not (fun hc => hnle ?_) hlt (huna ▸ hok.far hack)) hnle
              exact Int.le_of_lt hc
        · exact h1

theorem Sound.arrived {hdr : TCPHdr} {m : List UInt8} (h : Sound fin s) (hok : InputOk s hdr m) :
    Sound fin (s.input hdr m).2 := by
  cases hstate : s.state
  case closed | listen =>
    unfold StreamReceiver.input
    rw [hstate]
    exact h
  case synSent => exact input_synSent h hstate hok
  case synReceived => exact input_synReceived h hstate hok
  all_goals exact input_established h (by rw [hstate]; rfl) hok

/-! ## The user and the timers -/

theorem Ring.write_used (r : Ring) (src : List UInt8) (h : r.used ≤ r.size) :
    r.used ≤ (r.write src).2.used ∧ (r.write src).2.used ≤ (r.write src).2.size ∧
      (r.write src).2.size = r.size := by
  unfold Ring.write
  simp only
  generalize hcount : (if r.size < r.used + src.length then r.size - r.used else src.length) = count
  have hle : r.used + count ≤ r.size := by
    rw [← hcount]
    split <;> omega
  by_cases hzero : count = 0
  · rw [if_pos hzero]
    exact ⟨Nat.le_refl _, h, rfl⟩
  · rw [if_neg hzero]
    exact ⟨Nat.le_add_right _ _, hle, rfl⟩

/-- The bounds when bytes are written to the send buffer. -/
theorem StreamReceiver.SendBounds.write (h : s.SendBounds) (hfits : s.sendRing.used ≤ s.sendRing.size)
    (hsize : s.sendRing.size < 2 ^ 30) (data : List UInt8) :
    (s.write data).SendBounds ∧ (s.write data).sendRing.used ≤ (s.write data).sendRing.size ∧
      (s.write data).sendRing.size < 2 ^ 30 ∧ s.queued ≤ (s.write data).queued := by
  unfold StreamReceiver.write
  split
  · exact ⟨h, hfits, hsize, Int.le_refl _⟩
  · simp only
    split
    · exact ⟨h, hfits, hsize, Int.le_refl _⟩
    · rename_i socket _ _
      have hfits := Ring.write_used s.sendRing
        (data.take (socket.sendBufferSize - s.sendRing.getUsed).toNat) hfits
      generalize s.sendRing.write
        (data.take (socket.sendBufferSize - s.sendRing.getUsed).toNat) = w at hfits ⊢
      obtain ⟨hge, hle, hsizeEq⟩ := hfits
      have hq : s.queued = s.sendRing.used := rfl
      have hq' : ∀ t : StreamReceiver, queued { t with sendRing := w.2 } = w.2.used := fun _ => rfl
      have hn : ∀ t : StreamReceiver, nextOff { t with sendRing := w.2 } = t.nextOff := fun _ => rfl
      have hm : ∀ t : StreamReceiver, maxOff { t with sendRing := w.2 } = t.maxOff := fun _ => rfl
      have hnle := h.next_le
      have hmle := h.max_le
      refine ⟨⟨?_, h.win_nonneg, h.win_lt, h.mss_nonneg, h.asb_le, h.next_nonneg, ?_,
        h.max_nonneg, ?_⟩, hle, hsizeEq ▸ hsize, ?_⟩
      · rw [hq']
        omega
      · rw [hq', hn]
        omega
      · rw [hq', hm]
        omega
      · rw [hq']
        omega

theorem write_sequence (s : StreamReceiver) (data : List UInt8) :
    (s.write data).sendUna = s.sendUna ∧ (s.write data).iss = s.iss ∧
      (s.write data).state = s.state ∧ (s.write data).nextOff = s.nextOff ∧
      (s.write data).maxOff = s.maxOff := by
  unfold StreamReceiver.write
  split
  · exact ⟨rfl, rfl, rfl, rfl, rfl⟩
  · simp only
    split <;> exact ⟨rfl, rfl, rfl, rfl, rfl⟩

/-- What is written is not yet sent. -/
theorem Sound.write (h : Sound fin s) (data : List UInt8) : Sound fin (s.write data) := by
  obtain ⟨hb, hfits, hsize, hgrown⟩ := h.bounds.write h.fits h.size data
  obtain ⟨huna, hiss, hstate, hnext, hmax⟩ := write_sequence s data
  refine ⟨hb, hfits, hsize, ?_, ?_⟩
  · intro hs
    rw [huna, hiss]
    exact h.handshake (hstate ▸ hs)
  · intro hest hcomplete
    have hnle := h.bounds.next_le
    have hmle := h.bounds.max_le
    unfold StreamReceiver.Complete at hcomplete
    rw [hnext, hmax] at hcomplete
    obtain ⟨f, d, hfin, hd0, hd, hf⟩ := h.whole (hstate ▸ hest) (by unfold StreamReceiver.Complete; omega)
    refine ⟨f, d, hfin, hd0, hd, ?_⟩
    rw [hf, huna]
    congr 2
    omega

theorem Sound.stateClose (h : Sound fin s) : Sound fin (State.close s) := by
  unfold State.close
  cases hstate : s.state <;> simp only
  case listen | synSent => exact h.abort
  case established | closeWait => exact h.setState (by rw [hstate]; rfl) rfl
  all_goals exact h

theorem Sound.close (h : Sound fin s) : Sound fin s.close := by
  unfold StreamReceiver.close
  split
  · split
    · exact h
    · exact h.abort
  · exact Sound.stateClose (h.input ⟨⟨rfl, rfl, rfl, rfl, rfl, rfl, id, id⟩, rfl⟩)

/-- The bounds when `sendNext` goes back to `sendUna`. -/
theorem StreamReceiver.SendBounds.rewound (h : s.SendBounds) (huna : s'.sendUna = s.sendUna)
    (hnext : s'.sendNext = s.sendUna) (hmax : s'.sendMax = s.sendMax)
    (hring : s'.sendRing = s.sendRing) (hw : s'.sendWin = s.sendWin)
    (hmss : 0 ≤ s'.mss) (hasb : s'.asb = s.asb) : s'.SendBounds ∧ s'.nextOff = 0 := by
  have hq0 : 0 ≤ s.queued := Int.natCast_nonneg _
  have hzero : s'.nextOff = 0 := by
    simp only [nextOff, hnext, huna, BitVec.sub_self, BitVec.toInt_zero]
  have hqueued : s'.queued = s.queued := by simp only [queued, hring]
  have hmaxOff : s'.maxOff = s.maxOff := by simp only [maxOff, hmax, huna]
  refine ⟨⟨hqueued ▸ h.queued_lt, hw ▸ h.win_nonneg, hw ▸ h.win_lt, hmss,
    hasb ▸ h.asb_le, by omega, by omega, hmaxOff ▸ h.max_nonneg, ?_⟩, hzero⟩
  rw [hmaxOff, hqueued]
  exact h.max_le

/-- `sendNext` goes back to `sendUna`. -/
theorem Sound.rewound (h : Sound fin s) (huna : s'.sendUna = s.sendUna)
    (hnext : s'.sendNext = s.sendUna) (hmax : s'.sendMax = s.sendMax)
    (hring : s'.sendRing = s.sendRing) (hiss : s'.iss = s.iss) (hw : s'.sendWin = s.sendWin)
    (hmss : 0 ≤ s'.mss) (hasb : s'.asb = s.asb) (hstate : s'.state = s.state) : Sound fin s' := by
  obtain ⟨hb, hzero⟩ := h.bounds.rewound huna hnext hmax hring hw hmss hasb
  have hq0 : 0 ≤ s.queued := Int.natCast_nonneg _
  have hqueued : s'.queued = s.queued := by simp only [queued, hring]
  have hmaxOff : s'.maxOff = s.maxOff := by simp only [maxOff, hmax, huna]
  refine ⟨hb, hring ▸ h.fits, hring ▸ h.size, ?_, ?_⟩
  · intro hs
    rw [huna, hiss]
    exact h.handshake (hstate ▸ hs)
  · intro hest hcomplete
    unfold StreamReceiver.Complete at hcomplete
    rw [hzero, hqueued, hmaxOff] at hcomplete
    rw [huna, hqueued]
    exact h.whole (hstate ▸ hest) (by unfold StreamReceiver.Complete; omega)

theorem countTimeout_same (s : StreamReceiver) : SameInput s s.countTimeout := by
  refine ⟨⟨rfl, rfl, rfl, rfl, rfl, rfl, ?_, id⟩, rfl⟩
  intro h0
  unfold StreamReceiver.countTimeout
  simp only
  split
  · exact Int.le_min.mpr ⟨getDefaultMSS_nonneg s, h0⟩
  · exact h0

theorem Sound.countTimeout (h : Sound fin s) : Sound fin s.countTimeout :=
  h.input (countTimeout_same s)

theorem Sound.expired (h : Sound fin s) : Sound fin s.expired.2 := by
  have h1 : Sound fin { s with rxmitTimer := none } :=
    h.input ⟨⟨rfl, rfl, rfl, rfl, rfl, rfl, id, id⟩, rfl⟩
  have h2 := h1.countTimeout
  unfold StreamReceiver.expired
  simp only
  split
  · exact h1
  · split
    · exact h1.abort
    · split
      · exact h2.abortWith _
      · exact h2.rewound rfl rfl rfl rfl rfl rfl h2.bounds.mss_nonneg rfl rfl

theorem Sound.delayedAck (h : Sound fin s) : Sound fin s.delayedAck.2 := by
  unfold StreamReceiver.delayedAck
  simp only
  split <;> exact h.input ⟨⟨rfl, rfl, rfl, rfl, rfl, rfl, id, id⟩, rfl⟩

theorem read_state (s : StreamReceiver) (size : Int) : (s.read size).2.state = s.state := by
  unfold StreamReceiver.read
  simp only
  repeat' split
  all_goals rfl

theorem Sound.error (h : Sound fin s) (code : Errno) : Sound fin (s.error code) := by
  unfold StreamReceiver.error
  split
  · exact h
  · exact h.abortWith _

/-- A new connection of a socket that will connect. -/
theorem Sound.create (socket : Socket) (now : Int) (hsize : socket.sendBufferSize < 2 ^ 30) :
    Sound fin (StreamReceiver.create socket now) := by
  have hq : (StreamReceiver.create socket now).queued = 0 := rfl
  have hn : (StreamReceiver.create socket now).nextOff = 0 := by
    show ((0 : TCPSeq) - 0).toInt = 0
    decide
  have hm : (StreamReceiver.create socket now).maxOff = 0 := by
    show ((0 : TCPSeq) - 0).toInt = 0
    decide
  refine ⟨⟨by omega, ?_, ?_, ?_, Nat.zero_le _, by omega, by omega, by omega, by omega⟩,
    Nat.zero_le _, ?_, ?_, ?_⟩
  · show (0 : Int) ≤ 536
    omega
  · show (536 : Int) < 2 ^ 16
    omega
  · show (0 : Int) ≤ 536
    omega
  · show socket.sendBufferSize.toNat < 2 ^ 30
    omega
  · rintro (hs | hs) <;> cases hs
  · intro hest
    cases hest

/-- The send sequence begins at `isn`. -/
theorem Sound.begin (h : Sound fin s) (isn : TCPSeq) {fin' : Option TCPSeq}
    (huna : s'.sendUna = isn) (hnext : s'.sendNext = isn) (hmax : s'.sendMax = isn)
    (hiss : s'.iss = isn) (hring : s'.sendRing = s.sendRing) (hwin : s'.sendWin = s.sendWin)
    (hasb : s'.asb.length ≤ asbMax) (hmss : 0 ≤ s'.mss)
    (hstate : State.hasBeenEstablished s'.state = false) : Sound fin' s' := by
  have hb := h.bounds
  have hq0 : 0 ≤ s.queued := Int.natCast_nonneg _
  have hqueued : s'.queued = s.queued := by simp only [queued, hring]
  have hn : s'.nextOff = 0 := by simp only [nextOff, hnext, huna, BitVec.sub_self, BitVec.toInt_zero]
  have hm : s'.maxOff = 0 := by simp only [maxOff, hmax, huna, BitVec.sub_self, BitVec.toInt_zero]
  refine ⟨⟨hqueued ▸ hb.queued_lt, hwin ▸ hb.win_nonneg, hwin ▸ hb.win_lt, hmss, hasb, by omega,
    by omega, by omega, by omega⟩, hring ▸ h.fits, hring ▸ h.size, ?_, ?_⟩
  · intro _
    rw [huna, hiss]
  · intro hest
    rw [hstate] at hest
    cases hest

theorem Sound.connect (h : Sound fin s) {isn : TCPSeq} {mtu : Int} {fin' : Option TCPSeq}
    (hclosed : s.state = .closed) (hmtu : 68 ≤ mtu) : Sound fin' (s.connect isn mtu) := by
  obtain ⟨mss, hpos, hconnect⟩ := exists_connect hclosed isn mtu
  rw [hconnect]
  generalize hs1 : { s.initRto with
    iss := isn, sendUna := isn, sendNext := isn, sendMax := isn, sendUp := isn, sendFack := isn
    rxmitData := 0, sendAwin := 0, sendRecover := isn, lastSack := isn, mss := mss } = s1
  have hmss : 0 ≤ s1.mss := by
    rw [← hs1]
    exact hpos hmtu
  have hset := setState_same s1 .synSent
  have hstate := setState_state s1 .synSent
  have hm := setState_mss s1 .synSent
  generalize s1.setState .synSent = s2 at hset hstate hm ⊢
  refine h.begin isn ?_ ?_ ?_ ?_ ?_ ?_ (hset.asb ?_) (hm ▸ hmss) (by rw [hstate]; rfl)
  · rw [hset.una, ← hs1]
  · rw [hset.next, ← hs1]
  · rw [hset.max, ← hs1]
  · rw [hset.iss, ← hs1]
  · rw [hset.ring, ← hs1]
    rfl
  · rw [hset.win, ← hs1]
    rfl
  · rw [← hs1]
    exact h.bounds.asb_le

/-- A new connection for a SYN. -/
theorem Sound.child (socket : Socket) (now : Int) {hdr : TCPHdr} {isn : TCPSeq} {mtu : Int}
    (hsize : socket.sendBufferSize < 2 ^ 30) (hmtu : 68 ≤ mtu)
    (hok : (StreamReceiver.child socket now hdr isn mtu).1 = true) :
    Sound fin (StreamReceiver.child socket now hdr isn mtu).2 := by
  have hcreate : Sound fin _ := Sound.create socket now hsize
  have hdef : 0 ≤ (if socket.ipv4 then mtu - 20 - 20 else mtu - 40 - 20) := by
    split <;> omega
  unfold StreamReceiver.child at hok ⊢
  simp only at hok ⊢
  generalize hs1 : { StreamReceiver.create socket now with
    mss := if socket.ipv4 = true then mtu - 20 - 20 else mtu - 40 - 20
    cWin := 2 * if socket.ipv4 = true then mtu - 20 - 20 else mtu - 40 - 20
    ssThresh := defSsthresh, iss := isn, recvAcked := hdr.seq, irs := hdr.seq
    recvNext := hdr.seq + 1, recvUp := hdr.seq + 1, sendUna := isn, sendNext := isn
    sendMax := isn, sendUp := isn, lastSack := isn, sendFack := isn, sendRecover := isn
    rxmitData := 0, sendAwin := 0 } = s1 at hok ⊢
  have hmss : 0 ≤ s1.mss := by
    rw [← hs1]
    exact hdef
  obtain ⟨hopt, -⟩ := option_same s1 hdr
  split at hok
  · rename_i hright
    rw [if_pos hright]
    have hset := hopt.trans (setState_same (s1.option hdr).2 .synReceived)
    have hstate := setState_state (s1.option hdr).2 .synReceived
    have hm := setState_mss (s1.option hdr).2 .synReceived
    simp only
    generalize (s1.option hdr).2.setState .synReceived = s2 at hset hstate hm ⊢
    refine hcreate.begin isn ?_ ?_ ?_ ?_ ?_ ?_ (hset.asb ?_) (hset.mss hmss)
      (by rw [hstate]; rfl)
    · rw [hset.una, ← hs1]
    · rw [hset.next, ← hs1]
    · rw [hset.max, ← hs1]
    · rw [hset.iss, ← hs1]
    · rw [hset.ring, ← hs1]
    · rw [hset.win, ← hs1]
    · rw [← hs1]
      exact Nat.zero_le _
  · cases hok

/-! ## Output -/

/-- A step that keeps what `Sound` says of the send buffer. -/
theorem Sound.sequence (h : Sound fin s) {fin' : Option TCPSeq} (hb : s'.SendBounds)
    (huna : s'.sendUna = s.sendUna) (hring : s'.sendRing = s.sendRing) (hiss : s'.iss = s.iss)
    (hstate : s'.state = s.state)
    (hwhole : State.hasBeenEstablished s.state = true → s'.Complete →
      ∃ f d, fin' = some f ∧ 0 ≤ d ∧ d ≤ 2 ^ 30 ∧ f = s.sendUna.add (s.queued - d)) :
    Sound fin' s' := by
  refine ⟨hb, hring ▸ h.fits, hring ▸ h.size, ?_, ?_⟩
  · intro hs
    rw [huna, hiss]
    exact h.handshake (hstate ▸ hs)
  · intro hest hcomplete
    have hqueued : s'.queued = s.queued := by simp only [queued, hring]
    rw [huna, hqueued]
    exact hwhole (hstate ▸ hest) hcomplete

/-- An output that sends nothing. -/
theorem Sound.silent (h : Sound fin s) {pre : StreamReceiver} {sendable : Int} {flag : Flags}
    (hprep : SamePrepared s pre) (hready : Ready s pre sendable flag) (hs : Silent pre s') :
    Sound fin s' := by
  have hb := hready.bounds.sound
  have hqueued : s'.queued = s.queued := by simp only [queued, hs.ring, hprep.ring]
  have hqueuedPre : pre.queued = s.queued := by simp only [queued, hprep.ring]
  have hmaxPre : pre.maxOff = s.maxOff := by simp only [maxOff, hprep.max, hprep.una]
  have hmax : s'.maxOff = s.maxOff := by
    simp only [maxOff, hs.max, hs.una, hprep.max, hprep.una]
  have hq := h.bounds.queued_lt
  have hq0 : 0 ≤ s.queued := Int.natCast_nonneg _
  have hmle := h.bounds.max_le
  have hn0 := h.bounds.next_nonneg
  have hnle := h.bounds.next_le
  have hpre0 := hb.next_nonneg
  have hprele := hb.next_le
  have hnext : s'.nextOff = s.nextOff ∨ 0 ≤ s'.nextOff ∧ s'.nextOff ≤ s.maxOff := by
    rcases hs.next with hkept | hback
    · have : s'.nextOff = pre.nextOff := by simp only [nextOff, hkept, hs.una]
      have := hready.next
      omega
    · rcases hready.onxt with honxt | honxt
      · refine .inl ?_
        simp only [nextOff, hback, honxt, hs.una, hprep.una]
      · refine .inr ?_
        have : s'.nextOff = 0 := by
          simp only [nextOff, hback, honxt, hs.una, hprep.una, BitVec.sub_self, BitVec.toInt_zero]
        have := h.bounds.max_nonneg
        omega
  refine h.sequence (h.bounds.silent hprep hready hs)
    (hs.una.trans hprep.una) (hs.ring.trans hprep.ring) (hs.iss.trans hprep.iss)
    (hs.state.trans hprep.state) fun hest hcomplete => ?_
  unfold StreamReceiver.Complete at hcomplete
  exact h.whole hest (by unfold StreamReceiver.Complete; omega)

/-- An output that sends a segment of `len` octets. `carries` says whether it has text, SYN or FIN,
    and FIN among them; `fin'` is the last FIN then. -/
theorem Sound.emits (h : Sound fin s) {pre : StreamReceiver} {sendable len : Int}
    {flag gflag : Flags} (hprep : SamePrepared s pre) (hready : Ready s pre sendable flag)
    (he : Emits pre s' len) (hlen : len ≤ sendable)
    (hfin : gflag.fin = true ↔ flag.fin = true ∧ len = sendable)
    (hge : -2 ^ 29 - 2 ^ 16 ≤ pre.nextOff + len) :
    Sound (if 0 < len ∧ gflag.fin = true then some (pre.sendNext.add (len - 1)) else fin) s' := by
  have hb := hready.bounds.sound
  have hqueued : s'.queued = s.queued := by simp only [queued, he.ring, hprep.ring]
  have hqueuedPre : pre.queued = s.queued := by simp only [queued, hprep.ring]
  have hmaxPre : pre.maxOff = s.maxOff := by simp only [StreamReceiver.maxOff, hprep.max, hprep.una]
  have hle := hready.le
  obtain ⟨hmax, hnext⟩ := emits_offsets he hready.bounds hge (by omega)
  have hq0 : 0 ≤ s.queued := Int.natCast_nonneg _
  have hq := h.bounds.queued_lt
  have hm0 := h.bounds.max_nonneg
  have hmle := h.bounds.max_le
  have hn0 := h.bounds.next_nonneg
  have hnle := h.bounds.next_le
  have hpre0 := hb.next_nonneg
  have hprele := hb.next_le
  have honxt0 := hready.bounds.onxt_nonneg
  have honxtle := hready.bounds.onxt_le
  have honxt : (pre.onxt - pre.sendUna).toInt = s.nextOff ∨ (pre.onxt - pre.sendUna).toInt = 0 := by
    rcases hready.onxt with ho | ho
    · exact .inl (by rw [ho, hprep.una]; rfl)
    · exact .inr (by rw [ho, hprep.una, BitVec.sub_self, BitVec.toInt_zero])
  have hreadyNext := hready.next
  have hmaxle : s'.maxOff ≤ s.queued + 1 ∧ 0 ≤ s'.maxOff ∧
      (s'.maxOff = s.queued + 1 → s.maxOff = s.queued + 1 ∨ pre.nextOff + len = s.queued + 1) := by
    rw [hmax]
    split <;> omega
  refine h.sequence (h.bounds.emits hprep hready he hlen hge).1
    (he.una.trans hprep.una) (he.ring.trans hprep.ring) (he.iss.trans hprep.iss)
    (he.state.trans hprep.state) fun hest hcomplete => ?_
  unfold StreamReceiver.Complete at hcomplete
  by_cases hcarries : 0 < len ∧ gflag.fin = true
  · rw [if_pos hcarries]
    refine ⟨_, s.queued + 1 - (pre.nextOff + len), rfl, by omega, by omega, ?_⟩
    rw [sendNext_eq pre, add_add, hprep.una]
    congr 1
    omega
  · rw [if_neg hcarries]
    refine h.whole hest ?_
    unfold StreamReceiver.Complete
    by_cases hpos : 0 < len
    · have hnofin : pre.nextOff + len ≠ s.queued + 1 := by
        intro hc
        have hall : len = sendable := by omega
        exact hcarries ⟨hpos, hfin.mpr ⟨hready.whole hest (by omega) (by omega), hall⟩⟩
      omega
    · omega

theorem emitted_recv (c : Connection) (segment : Option Sent) (recv : StreamReceiver) :
    (c.emitted segment recv).recv = recv := by
  unfold Connection.emitted
  split
  · rfl
  · split <;> rfl

theorem Sound.output {c : Connection} (h : Sound c.fin c.recv) (hsane : c.recv.Sane)
    (stack : Flags) (oob : Bool) :
    Sound (c.emitted (c.recv.output stack oob).1 (c.recv.output stack oob).2).fin
      (c.recv.output stack oob).2 := by
  obtain ⟨pre, sendable, flag, hprep, hready, hcases⟩ := output_cases c.recv stack oob
  have hready := hready h.bounds hsane h.handshake
  rcases hcases with ⟨hnone, hs⟩ | hsend
  · rw [hnone]
    exact h.silent hprep hready hs
  · rw [hsend]
    rcases send_cases pre sendable flag oob with
      ⟨hnone, hs⟩ | ⟨g, hsome, he, hlen, hseq, hfin, hge⟩
    · rw [hnone]
      exact h.silent hprep hready hs
    · rw [hsome]
      have hsound := h.emits hprep hready he hlen hfin (hge hready.bounds hready.nonneg)
      unfold Connection.emitted
      simp only
      by_cases hpos : 0 < g.len
      · simp only [if_pos hpos, hseq hpos]
        simpa only [hpos, true_and] using hsound
      · simp only [if_neg hpos]
        simp only [hpos, false_and, if_false] at hsound
        exact hsound

/-! ## Runs -/

/-- The condition on a step: a good segment arrives, or what is sent again was sent before. -/
def CloseOk (c : Connection) : ConnOp → Prop
  | .input hdr m => InputOk c.recv hdr m
  | .output _ _ => c.recv.Sane
  | _ => True

theorem run_sound {c : Connection} (h : Sound c.fin c.recv) {op : ConnOp} (hok : CloseOk c op)
    (hmtu : ∀ isn mtu, op = .connect isn mtu → 68 ≤ mtu) :
    Sound (c.run op).fin (c.run op).recv := by
  cases op with
  | input hdr m => exact h.arrived hok
  | output stack oob =>
    unfold Connection.run
    simp only
    rw [emitted_recv]
    exact h.output hok stack oob
  | expired => exact h.expired
  | delayedAck => exact h.delayedAck
  | read size => exact h.input ⟨read_same _ _, read_state _ _⟩
  | write data => exact h.write data
  | close => exact h.close
  | shutdownOutput => exact Sound.stateClose (h.input ⟨⟨rfl, rfl, rfl, rfl, rfl, rfl, id, id⟩, rfl⟩)
  | shutdownInput => exact h.input ⟨⟨rfl, rfl, rfl, rfl, rfl, rfl, id, id⟩, rfl⟩
  | connect isn mtu =>
    unfold Connection.run
    simp only
    split
    · rename_i hclosed
      exact h.connect hclosed (hmtu isn mtu rfl)
    · exact h
  | error code => exact h.error code
  | tick ticks => exact h.input ⟨⟨rfl, rfl, rfl, rfl, rfl, rfl, id, id⟩, rfl⟩

theorem sound_of_runWith {c : Connection} (hrun : Connection.system.RunWith CloseOk c) :
    Sound c.fin c.recv := by
  refine hrun.invariant (fun c => Sound c.fin c.recv) ?_ ?_
  · rintro c ⟨⟨socket, now, -, hsize, hfresh⟩, -⟩
    rcases hfresh with hnew | ⟨hdr, isn, mtu, hmtu, hright, hnew⟩
    · rw [hnew]
      exact Sound.create socket now hsize
    · rw [hnew]
      exact Sound.child socket now hsize hmtu hright
  · rintro c op c' h hok ⟨rfl, hmtu⟩
    exact run_sound h hok hmtu

/-- What an arriving segment does after the checks does not depend on the error code of a reset. -/
theorem check_go_err {hdr : TCPHdr} {m : List UInt8} {err : Option Errno} {g : Segment}
    (h : s.check hdr m err = .go g s') (err' : Option Errno) : s.check hdr m err' = .go g s' := by
  unfold check at h ⊢
  simp only at h ⊢
  split at h
  · cases h
  · rename_i hrst
    rw [if_neg hrst]
    exact h

/-- The transitions that an acknowledgement causes in the states that wait for the acknowledgement
    of FIN. Only `lastAck` can be closed by something else, which does not pass the checks. -/
def ClosesByAck (s : StreamReceiver) (hdr : TCPHdr) (m : List UInt8) : Prop :=
  let state := (s.input hdr m).2.state
  (s.state = .finWait1 ∧ (state = .finWait2 ∨ state = .timeWait)) ∨
    (s.state = .closing ∧ state = .timeWait) ∨
    (s.state = .lastAck ∧ state = .closed ∧ ∃ g s', s.check hdr m none = .go g s')

/-- They happen only when `ack` finds FIN acknowledged. -/
theorem ackSegment_of_closes {hdr : TCPHdr} {m : List UInt8} (h : ClosesByAck s hdr m) :
    (s.state = .finWait1 ∨ s.state = .closing ∨ s.state = .lastAck) ∧
      ∃ g s', s.check hdr m none = .go g s' ∧
        (s'.state = s.state → (s'.ackSegment hdr g).2.state = s'.state →
          (s'.ackSegment hdr g).1 = true) := by
  unfold ClosesByAck StreamReceiver.input at h
  rcases h with ⟨hstate, hnext⟩ | ⟨hstate, hnext⟩ | ⟨hstate, hnext, g, s', hc⟩
  · rw [hstate] at hnext
    simp only [StateFinWait1.input] at hnext
    refine ⟨.inl hstate, ?_⟩
    cases hc : s.check hdr m (some .econnreset) with
    | stop reply s' =>
      rw [hc] at hnext
      obtain ⟨-, hkept⟩ := check_over hc
      simp only at hnext
      rw [hstate] at hkept
      rcases hkept with hk | hk <;> rw [hk] at hnext <;> rcases hnext with hn | hn <;> cases hn
    | go g s' =>
      refine ⟨g, s', check_go_err hc none, ?_⟩
      intro hs' hack
      rw [hstate] at hs'
      rw [hc] at hnext
      simp only at hnext
      cases hres : (s'.ackSegment hdr g).1
      · rw [hres] at hnext
        simp only [Bool.false_eq_true, if_false] at hnext
        rw [hs'] at hack
        rcases textAndFin_state (s'.ackSegment hdr g).2 m g
            (fun s => if s.state = .finWait1 then .closing else .timeWait) with
          hk | hk | ⟨-, t, ht, hk⟩
        · rw [hk, hack] at hnext
          rcases hnext with hn | hn <;> cases hn
        · rw [hk] at hnext
          rcases hnext with hn | hn <;> cases hn
        · rw [hk, if_pos (ht.trans hack)] at hnext
          rcases hnext with hn | hn <;> cases hn
      · rfl
  · rw [hstate] at hnext
    simp only [StateClosing.input] at hnext
    refine ⟨.inr (.inl hstate), ?_⟩
    cases hc : s.check hdr m none with
    | stop reply s' =>
      rw [hc] at hnext
      obtain ⟨-, hkept⟩ := check_over hc
      simp only at hnext
      rw [hstate] at hkept
      rcases hkept with hk | hk <;> rw [hk] at hnext <;> cases hnext
    | go g s' =>
      refine ⟨g, s', rfl, ?_⟩
      intro hs' hack
      rw [hstate] at hs'
      rw [hc] at hnext
      simp only at hnext
      cases hres : (s'.ackSegment hdr g).1
      · rw [hres] at hnext
        simp only [Bool.false_eq_true, if_false] at hnext
        rw [hack, hs'] at hnext
        cases hnext
      · rfl
  · rw [hstate] at hnext
    simp only [StateLastAck.input] at hnext
    refine ⟨.inr (.inr hstate), g, s', hc, ?_⟩
    intro hs' hack
    rw [hstate] at hs'
    rw [hc] at hnext
    simp only at hnext
    cases hres : (s'.ackSegment hdr g).1
    · rw [hres] at hnext
      simp only [Bool.false_eq_true, if_false] at hnext
      rw [hack, hs'] at hnext
      cases hnext
    · rfl

/-- In a run of good steps, a closing transition is caused only by a segment that acknowledges the
    FIN this side has sent. -/
theorem closes_after_fin_acked {c : Connection} (hrun : Connection.system.RunWith CloseOk c)
    (hdr : TCPHdr) (m : List UInt8) (hok : CloseOk c (.input hdr m))
    (hcloses : ClosesByAck c.recv hdr m) : ∃ f, c.fin = some f ∧ seqLe (f + 1) hdr.ack := by
  have h := sound_of_runWith hrun
  obtain ⟨hstate, g, s', hc, hacked⟩ := ackSegment_of_closes hcloses
  obtain ⟨hsame, hmax, hack, -⟩ := check_go hc
  have hest : State.hasBeenEstablished c.recv.state = true := by
    rcases hstate with hs | hs | hs <;> rw [hs] <;> rfl
  have hnewer : seqLt c.recv.sendUna hdr.ack := hok.newer hstate ⟨g, s', hc⟩
  have h' := h.input hsame
  have hest' : State.hasBeenEstablished s'.state = true := hsame.state ▸ hest
  have hfar : hdr.ack - s'.sendUna ≠ 0x80000000#32 := by
    rw [hsame.same.una]
    exact hok.far hack
  have hmax' : ¬ seqLt s'.sendMax hdr.ack := by
    rw [hsame.same.max]
    exact hmax
  have hnewer' : seqLt s'.sendUna hdr.ack := by
    rw [hsame.same.una]
    exact hnewer
  exact ackSegment_fin h' hest' hnewer' hmax'
    (hacked hsame.state (h'.ackSegment hest' hfar hmax').2)

/-! ## A connection that has sent FIN -/

/-- A header without options. -/
def bareHdr (seq ack : TCPSeq) (flag : Flags) : TCPHdr :=
  ⟨seq, ack, flag, 1000, 0, 20, []⟩

/-- The first 20 bytes of a message hold the header. -/
def bareMsg : List UInt8 := List.replicate 20 0

/-- The steps up to the first FIN of a connection that sends no text. -/
def finOps : List ConnOp :=
  [.connect 0 1500, .output {} false, .input (bareHdr 100 1 { syn := true, ack := true }) bareMsg,
    .shutdownOutput, .output {} false]

def finSent : Connection :=
  finOps.foldl Connection.run ⟨StreamReceiver.create ⟨true, 8, 8, true, 0⟩ 0, 0, [], none⟩

theorem finSent_run : Connection.system.RunWith CloseOk finSent := by
  have hsane : ∀ s : StreamReceiver, s.scoreboard = [] → -2 ^ 29 ≤ s.cWin → s.Sane := by
    intro s hnone hwin
    refine ⟨hwin, ?_⟩
    rw [hnone]
    exact fun hole hmem => absurd hmem List.not_mem_nil
  have hstart : Connection.system.RunWith CloseOk
      ⟨StreamReceiver.create ⟨true, 8, 8, true, 0⟩ 0, 0, [], none⟩ :=
    .start ⟨⟨_, _, by decide, by decide, .inl rfl⟩, rfl, rfl, rfl⟩
  have hconnect := Connection.runWith_run hstart (.connect 0 1500) trivial
    (by rintro _ _ ⟨⟩; decide)
  have hsyn := Connection.runWith_run hconnect (.output {} false)
    (hsane _ (by decide +kernel) (by decide +kernel)) (by rintro _ _ ⟨⟩)
  have hopen := Connection.runWith_run hsyn
    (.input (bareHdr 100 1 { syn := true, ack := true }) bareMsg)
    ⟨fun _ => by decide +kernel, fun hs => absurd hs (by decide +kernel),
      fun hs => absurd hs (by decide +kernel)⟩
    (by rintro _ _ ⟨⟩)
  have hshut := Connection.runWith_run hopen .shutdownOutput trivial (by rintro _ _ ⟨⟩)
  exact Connection.runWith_run hshut (.output {} false)
    (hsane _ (by decide +kernel) (by decide +kernel)) (by rintro _ _ ⟨⟩)

/-- The acknowledgement of FIN closes the connection. -/
theorem closes_after_fin_acked_once :
    ∃ f, finSent.fin = some f ∧ seqLe (f + 1) (bareHdr 101 2 { ack := true }).ack :=
  closes_after_fin_acked finSent_run (bareHdr 101 2 { ack := true }) bareMsg
    ⟨fun _ => by decide +kernel, fun _ _ => by decide +kernel, fun hs => absurd hs (by decide +kernel)⟩
    (.inl ⟨by decide +kernel, .inl (by decide +kernel)⟩)

/-- A duplicate of the acknowledgement before FIN closes it too. -/
theorem closes_before_fin_acked :
    ∃ c, Connection.system.Reachable c ∧
      ClosesByAck c.recv (bareHdr 101 1 { ack := true }) bareMsg ∧
      ¬ ∃ f, c.fin = some f ∧ seqLe (f + 1) (bareHdr 101 1 { ack := true }).ack := by
  refine ⟨finSent, finSent_run.reachable, .inl ⟨by decide +kernel, .inl (by decide +kernel)⟩, ?_⟩
  rintro ⟨f, hf, hle⟩
  have hfin : finSent.fin = some 1 := by decide +kernel
  rw [hfin] at hf
  cases hf
  exact absurd hle (by decide)

end EsOs.Net
