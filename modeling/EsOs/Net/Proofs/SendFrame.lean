import Mathlib
import EsOs.Net.Connection
import EsOs.Net.Proofs.Ring
import EsOs.Net.Proofs.Trim

/-! # What does not touch the send sequence

Most routines of a connection leave the send buffer and the send sequence variables alone. -/

namespace EsOs.Net

/-! ## Comparing sequence numbers by their offsets -/

theorem eq_add (a b : TCPSeq) : b = a.add (b - a).toInt := by
  simp only [TCPSeq.add, BitVec.ofInt_toInt]
  bv_omega

theorem add_sub_add_toInt (a : TCPSeq) {x y : Int} (hlo : -2 ^ 31 ≤ x - y) (hhi : x - y < 2 ^ 31) :
    (a.add x - a.add y).toInt = x - y := by
  rw [add_sub_add, toInt_ofInt hlo hhi]

theorem seqLt_add (a : TCPSeq) {x y : Int} (hlo : -2 ^ 31 ≤ y - x) (hhi : y - x < 2 ^ 31) :
    seqLt (a.add x) (a.add y) ↔ x < y := by
  rw [seqLt, add_sub_add_toInt a hlo hhi]
  omega

theorem seqLe_add (a : TCPSeq) {x y : Int} (hlo : -2 ^ 31 ≤ y - x) (hhi : y - x < 2 ^ 31) :
    seqLe (a.add x) (a.add y) ↔ x ≤ y := by
  rw [seqLe, add_sub_add_toInt a hlo hhi]
  omega

theorem not_seqLe_of_seqLt {a b : TCPSeq} (h : seqLt a b) : ¬ seqLe b a := by
  intro hc
  have hlo := BitVec.le_toInt (b - a)
  have hhi := BitVec.toInt_lt (x := b - a)
  have hpos : 0 < (b - a).toInt := h
  rw [eq_add a b] at hc
  conv at hc => rhs; rw [← add_zero a]
  rw [seqLe_add _ (by omega) (by omega)] at hc
  omega

theorem seqLe_of_not {a b : TCPSeq} (h : ¬ seqLt b a) (h' : ¬ seqLt a b)
    (hfar : b - a ≠ 0x80000000#32) : seqLe b a := by
  have hlo := BitVec.le_toInt (b - a)
  have hne : (b - a).toInt ≠ -2 ^ 31 := by
    intro hc
    exact hfar (BitVec.eq_of_toInt_eq (hc.trans (by decide)))
  have hnonpos : (b - a).toInt ≤ 0 := Int.not_lt.mp h'
  rw [eq_add a b]
  conv => rhs; rw [← add_zero a]
  exact (seqLe_add _ (by omega) (by omega)).mpr (by omega)

namespace StreamReceiver

/-- The send buffer, the send sequence variables and the send window are the same. A maximum segment
    size that is not negative stays so, and the stored blocks stay within their array. -/
structure SameSend (s s' : StreamReceiver) : Prop where
  una : s'.sendUna = s.sendUna
  next : s'.sendNext = s.sendNext
  max : s'.sendMax = s.sendMax
  ring : s'.sendRing = s.sendRing
  iss : s'.iss = s.iss
  win : s'.sendWin = s.sendWin
  mss : 0 ≤ s.mss → 0 ≤ s'.mss
  asb : s.asb.length ≤ asbMax → s'.asb.length ≤ asbMax

namespace SameSend

variable {s s' s'' : StreamReceiver}

theorem refl (s : StreamReceiver) : SameSend s s :=
  ⟨rfl, rfl, rfl, rfl, rfl, rfl, id, id⟩

theorem trans (h : SameSend s s') (h' : SameSend s' s'') : SameSend s s'' :=
  ⟨h'.una.trans h.una, h'.next.trans h.next, h'.max.trans h.max, h'.ring.trans h.ring,
    h'.iss.trans h.iss, h'.win.trans h.win, fun h0 => h'.mss (h.mss h0),
    fun h0 => h'.asb (h.asb h0)⟩

end SameSend

variable {s : StreamReceiver}

/-! ## Timers and states -/

theorem startRxmitTimer_same (s : StreamReceiver) : SameSend s s.startRxmitTimer := by
  unfold startRxmitTimer
  split <;> exact ⟨rfl, rfl, rfl, rfl, rfl, rfl, id, id⟩

theorem startAckTimer_same (s : StreamReceiver) : SameSend s s.startAckTimer := by
  unfold startAckTimer
  split <;> exact ⟨rfl, rfl, rfl, rfl, rfl, rfl, id, id⟩

theorem start_same (state : State) (s : StreamReceiver) : SameSend s (State.start state s) := by
  cases state
  case timeWait =>
    have h := startRxmitTimer_same { s.stopRxmitTimer.stopAckTimer with shutrd := true, rto := 2 * msl }
    exact ⟨h.una, h.next, h.max, h.ring, h.iss, h.win, h.mss, h.asb⟩
  all_goals exact ⟨rfl, rfl, rfl, rfl, rfl, rfl, id, id⟩

theorem setState_same (s : StreamReceiver) (state : State) : SameSend s (s.setState state) := by
  unfold setState
  split
  · exact .refl s
  · have h := start_same state { s with state := state }
    exact ⟨h.una, h.next, h.max, h.ring, h.iss, h.win, h.mss, h.asb⟩

/-- A connection that is opened starts from its sequence number, with some segment size. -/
theorem exists_connect {s : StreamReceiver} (hclosed : s.state = .closed) (isn : TCPSeq)
    (mtu : Int) : ∃ mss, (68 ≤ mtu → 0 ≤ mss) ∧
      s.connect isn mtu = setState { s.initRto with
        iss := isn, sendUna := isn, sendNext := isn, sendMax := isn, sendUp := isn, sendFack := isn
        rxmitData := 0, sendAwin := 0, sendRecover := isn, lastSack := isn, mss := mss } .synSent := by
  unfold StreamReceiver.connect
  rw [if_pos hclosed]
  refine ⟨_, fun hmtu => ?_, rfl⟩
  split
  · split <;> omega
  · exact Int.le_refl 0

theorem startRxmitTimer_state (s : StreamReceiver) : s.startRxmitTimer.state = s.state := by
  unfold startRxmitTimer
  split <;> rfl

theorem startRxmitTimer_mss (s : StreamReceiver) : s.startRxmitTimer.mss = s.mss := by
  unfold startRxmitTimer
  split <;> rfl

theorem startRxmitTimer_asb (s : StreamReceiver) : s.startRxmitTimer.asb = s.asb := by
  unfold startRxmitTimer
  split <;> rfl

@[simp] theorem setState_state (s : StreamReceiver) (state : State) :
    (s.setState state).state = state := by
  unfold setState
  split
  · assumption
  · cases state
    case timeWait => exact startRxmitTimer_state _
    all_goals rfl

theorem setState_mss (s : StreamReceiver) (state : State) : (s.setState state).mss = s.mss := by
  unfold setState
  split
  · rfl
  · cases state
    case timeWait => exact startRxmitTimer_mss _
    all_goals rfl

theorem setState_asb (s : StreamReceiver) (state : State) : (s.setState state).asb = s.asb := by
  unfold setState
  split
  · rfl
  · cases state
    case timeWait => exact startRxmitTimer_asb _
    all_goals rfl

theorem abort_same (s : StreamReceiver) : SameSend s s.abort :=
  (setState_same s .closed).trans ⟨rfl, rfl, rfl, rfl, rfl, rfl, id, id⟩

@[simp] theorem abort_state (s : StreamReceiver) : s.abort.state = .closed :=
  setState_state s .closed

theorem abortWith_same (s : StreamReceiver) (err : Option Errno) :
    SameSend s (abort { s with err := err }) := by
  have h := abort_same { s with err := err }
  exact ⟨h.una, h.next, h.max, h.ring, h.iss, h.win, h.mss, h.asb⟩

theorem reset_same (s : StreamReceiver) (seq : TCPSeq) (err : Option Errno) :
    SameSend s (s.reset seq err) := by
  unfold reset
  split
  · exact abortWith_same s _
  · exact .refl s

/-! ## Receiving -/

theorem urg_same (s : StreamReceiver) (g : Segment) : SameSend s (s.urg g) := by
  unfold urg
  split <;> exact ⟨rfl, rfl, rfl, rfl, rfl, rfl, id, id⟩

theorem urg_state (s : StreamReceiver) (g : Segment) : (s.urg g).state = s.state := by
  unfold urg
  split <;> rfl

theorem trim_same (s : StreamReceiver) (g : Segment) : SameSend s (s.trim g).2.2 := by
  unfold trim
  simp only
  split
  · exact .refl s
  · split <;> exact ⟨rfl, rfl, rfl, rfl, rfl, rfl, id, id⟩

theorem trim_state (s : StreamReceiver) (g : Segment) : (s.trim g).2.2.state = s.state := by
  unfold trim
  simp only
  split
  · rfl
  · split <;> rfl

/-- What `text` may do to the connection: it aborts, or changes what is received. -/
theorem text_cases (s : StreamReceiver) (m : List UInt8) (g : Segment) :
    ((s.text m g).1 = false ∧ (s.text m g).2.2 = abort { s with err := some .econnaborted }) ∨
      ((s.text m g).2.2.state = s.state ∧ SameSend s (s.text m g).2.2 ∧
        ((s.text m g).2.1.flag.fin = true → g.flag.fin = true)) := by
  unfold text
  by_cases hshut : s.shutrd ∧ 0 < (if g.flag.fin then g.len - 1 else g.len)
  · simp only [if_pos hshut]
    exact .inl ⟨trivial, trivial⟩
  · simp only [if_neg hshut]
    refine .inr ?_
    by_cases hnext : s.recvNext = g.seq
    · simp only [if_pos hnext]
      by_cases hadv : 0 < (if g.flag.fin then g.len - 1 else g.len)
      · simp only [if_pos hadv]
        exact ⟨trivial, ⟨rfl, rfl, rfl, rfl, rfl, rfl, id, Ring.writeAt_length _ _ _ (by decide)⟩, id⟩
      · simp only [if_neg hadv]
        exact ⟨trivial, .refl s, id⟩
    · simp only [if_neg hnext]
      refine ⟨trivial, ⟨rfl, rfl, rfl, rfl, rfl, rfl, id, Ring.writeAt_length _ _ _ (by decide)⟩, ?_⟩
      intro hfin
      by_cases h : g.flag.fin
      · exact h
      · rwa [if_neg h] at hfin

theorem text_same (s : StreamReceiver) (m : List UInt8) (g : Segment) :
    SameSend s (s.text m g).2.2 := by
  rcases text_cases s m g with ⟨-, h⟩ | ⟨-, h, -⟩
  · rw [h]
    exact abortWith_same s _
  · exact h

/-- The state at the end of an input is the old one, `closed`, or the one after FIN. -/
theorem textAndFin_state (s : StreamReceiver) (m : List UInt8) (g : Segment)
    (next : StreamReceiver → State) :
    (s.textAndFin m g next).2.state = s.state ∨ (s.textAndFin m g next).2.state = .closed ∨
      (g.flag.fin = true ∧ ∃ s', s'.state = s.state ∧
        (s.textAndFin m g next).2.state = next s') := by
  have hurg : (if g.flag.urg then s.urg g else s).state = s.state := by
    split
    · exact urg_state s g
    · rfl
  unfold textAndFin
  simp only
  generalize (if g.flag.urg then s.urg g else s) = s1 at hurg
  rcases text_cases s1 m g with ⟨hfalse, habort⟩ | ⟨hstate, -, hfin⟩
  · rw [if_pos hfalse, habort]
    exact .inr (.inl (abort_state _))
  · split
    · exact .inl (hstate.trans hurg)
    · split
      · rename_i hfin'
        exact .inr (.inr ⟨hfin hfin', (s1.text m g).2.2.finReceived, hstate.trans hurg,
          setState_state _ _⟩)
      · exact .inl (hstate.trans hurg)

theorem textAndFin_same (s : StreamReceiver) (m : List UInt8) (g : Segment)
    (next : StreamReceiver → State) : SameSend s (s.textAndFin m g next).2 := by
  have hurg : SameSend s (if g.flag.urg then s.urg g else s) := by
    split
    · exact urg_same s g
    · exact .refl s
  unfold textAndFin
  simp only
  generalize (if g.flag.urg then s.urg g else s) = s1 at hurg
  have htext := hurg.trans (text_same s1 m g)
  split
  · exact htext
  · split
    · have hset := setState_same (s1.text m g).2.2.finReceived
        (next (s1.text m g).2.2.finReceived)
      exact htext.trans ⟨hset.una, hset.next, hset.max, hset.ring, hset.iss, hset.win, hset.mss,
        hset.asb⟩
    · exact htext

theorem canSend_same (s : StreamReceiver) (len mss : Int) (flag : Flags) :
    SameSend s (s.canSend len mss flag).2 := by
  unfold canSend updateWindow
  simp only
  repeat' split
  all_goals exact ⟨rfl, rfl, rfl, rfl, rfl, rfl, id, id⟩

theorem read_same (s : StreamReceiver) (size : Int) : SameSend s (s.read size).2 := by
  unfold read
  simp only
  repeat' split
  all_goals exact ⟨rfl, rfl, rfl, rfl, rfl, rfl, id, id⟩

end StreamReceiver

end EsOs.Net
