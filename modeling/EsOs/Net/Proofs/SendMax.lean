import Mathlib
import EsOs.Net.Proofs.Acked

/-! # What `sendMax` covers

`sendMax` moves only when a segment is sent that ends inside the send window, and then to the end of
that segment. A window probe ends behind the window; the source leaves it out on purpose. -/

namespace EsOs.Net

open EsOs.Lib StreamReceiver

variable {s s' : StreamReceiver}

/-- `sendMax` and the initial sequence number are the same. -/
structure SameMax (s s' : StreamReceiver) : Prop where
  max : s'.sendMax = s.sendMax
  iss : s'.iss = s.iss

theorem SameMax.refl (s : StreamReceiver) : SameMax s s :=
  ⟨rfl, rfl⟩

theorem SameMax.trans {s'' : StreamReceiver} (h : SameMax s s') (h' : SameMax s' s'') :
    SameMax s s'' :=
  ⟨h'.max.trans h.max, h'.iss.trans h.iss⟩

theorem SameMax.of_same (h : SameSend s s') : SameMax s s' :=
  ⟨h.max, h.iss⟩

/-! ## Steps that do not send -/

theorem SameMax.textAndFin {t : StreamReceiver} (h : SameMax s t) (m : List UInt8) (g : Segment)
    (next : StreamReceiver → State) : SameMax s (t.textAndFin m g next).2 :=
  h.trans (.of_same (textAndFin_same t m g next))

theorem SameMax.setState {t : StreamReceiver} (h : SameMax s t) (state : State) :
    SameMax s (t.setState state) :=
  h.trans (.of_same (setState_same t state))

theorem SameMax.abort {t : StreamReceiver} (h : SameMax s t) : SameMax s t.abort :=
  h.trans (.of_same (abort_same t))

theorem SameMax.abortWith {t : StreamReceiver} (h : SameMax s t) (err : Option Errno) :
    SameMax s (StreamReceiver.abort { t with err := err }) :=
  h.trans (.of_same (abortWith_same t err))

theorem SameMax.stateClose {t : StreamReceiver} (h : SameMax s t) :
    SameMax s (State.close t) := by
  unfold State.close
  cases t.state <;> simp only
  case listen | synSent => exact h.abort
  case established | closeWait => exact h.setState _
  all_goals exact h

/-- What an output does to `sendMax`: it stays, or moves forward to the end of the segment. A segment
    with text, SYN or FIN that ends inside the send window does not end behind it. -/
structure Covers (s : StreamReceiver) (segment : Option Sent) (s' : StreamReceiver) : Prop where
  iss : s'.iss = s.iss
  forward : s'.sendMax = s.sendMax ∨ seqLt s.sendMax s'.sendMax
  covers : ∀ g, segment = some g → 0 < g.len →
    seqLe (g.seq.add g.len) (s.sendUna.add s.sendWin) →
    s'.sendMax = g.seq.add g.len ∨
      (s'.sendMax = s.sendMax ∧ ¬ seqLt s.sendMax (g.seq.add g.len))

/-- `max` counts the octets up to `sendMax`, and every segment but the window probes ends there or
    before. -/
structure Counted (c : Connection) : Prop where
  max : c.recv.sendMax = c.recv.iss.add c.max
  covered : ∀ t ∈ c.sent, t.probe = false → t.finish ≤ c.max

theorem Counted.moved {c : Connection} {recv : StreamReceiver} (h : Counted c)
    (hsame : SameMax c.recv recv) : Counted (c.moved recv) := by
  have hzero : (recv.sendMax - c.recv.sendMax).toInt = 0 := by
    rw [hsame.max, BitVec.sub_self, BitVec.toInt_zero]
  have hmax : (c.moved recv).max = c.max := by
    unfold Connection.moved
    simp only
    omega
  refine ⟨?_, ?_⟩
  · rw [hmax]
    exact (hsame.max.trans h.max).trans (hsame.iss ▸ rfl)
  · rw [hmax]
    exact h.covered

theorem Counted.emitted {c : Connection} {segment : Option Sent} {recv : StreamReceiver}
    (h : Counted c) (hcov : Covers c.recv segment recv) : Counted (c.emitted segment recv) := by
  have hmax : recv.sendMax = recv.iss.add (c.max + (recv.sendMax - c.recv.sendMax).toInt) := by
    rw [hcov.iss, ← add_add, ← h.max]
    exact eq_add _ _
  have hforward : 0 ≤ (recv.sendMax - c.recv.sendMax).toInt := by
    rcases hcov.forward with hsame | hlt
    · have hzero : (recv.sendMax - c.recv.sendMax).toInt = 0 := by
        rw [hsame, BitVec.sub_self, BitVec.toInt_zero]
      omega
    · exact Int.le_of_lt hlt
  have hmoved : Counted (c.moved recv) := by
    refine ⟨hmax, ?_⟩
    intro t ht hprobe
    have := h.covered t ht hprobe
    show t.finish ≤ c.max + _
    omega
  unfold Connection.emitted
  split
  · exact hmoved
  · rename_i g
    split
    · rename_i hpos
      refine ⟨hmoved.max, ?_⟩
      intro t ht hprobe
      rcases List.mem_cons.mp ht with rfl | hold
      · show c.max + (g.seq.add g.len - c.recv.sendMax).toInt ≤
          c.max + (recv.sendMax - c.recv.sendMax).toInt
        have hwin : seqLe (g.seq.add g.len) (c.recv.sendUna.add c.recv.sendWin) := by
          simpa [Connection.transmitted] using hprobe
        rcases hcov.covers g rfl hpos hwin with hend | ⟨hsame, hnot⟩
        · have hsame : (g.seq.add g.len - c.recv.sendMax).toInt =
              (recv.sendMax - c.recv.sendMax).toInt := by rw [hend]
          omega
        · have : (g.seq.add g.len - c.recv.sendMax).toInt ≤ 0 := Int.not_lt.mp hnot
          omega
      · exact hmoved.covered t hold hprobe
    · exact hmoved

end EsOs.Net
