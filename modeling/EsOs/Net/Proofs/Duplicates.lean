import EsOs.Net.SackOption
import EsOs.Net.Proofs.Congestion
import EsOs.Net.Proofs.Window

/-! # When fast recovery begins

`dupAcks` runs ahead of the duplicates that have come only where the first one is taken for the
second. -/

namespace EsOs.Net

open EsOs.Lib StreamReceiver

variable {s t : StreamReceiver}

/-! ## What an acknowledgement does to the counter -/

/-- What an acknowledgement can do: reset the counter, pass uncounted, be counted, come in fast
    recovery, or begin it. -/
def AckEffect (s s' : StreamReceiver) (n : TCPSeq) (win len : Int) : Prop :=
  (s'.dupAcks = 0 ∧ s'.ssThresh = s.ssThresh) ∨
    (seqLe n s.sendUna ∧ ¬ s.Duplicate n win len ∧ s.sendUna ≠ s.sendMax ∧
      s'.dupAcks = s.dupAcks ∧ s'.ssThresh = s.ssThresh) ∨
    (s.Duplicate n win len ∧ s.dupAcks < 2 ∧ s'.dupAcks = s.dupAcks + 1 ∧
      s'.ssThresh = s.ssThresh) ∨
    (rxmitThresh ≤ s.dupAcks ∧ rxmitThresh ≤ s'.dupAcks) ∨
    (s.Duplicate n win len ∧ s.dupAcks < rxmitThresh ∧ s'.dupAcks = rxmitThresh ∧
      (s.dupAcks = 2 ∨ s.Evidence))

/-- The condition of `CountOk`, of the connection alone. -/
def FirstOk (s : StreamReceiver) (n : TCPSeq) : Prop :=
  (s.sack = false ∧ (s.sendFack - s.sendUna).toInt ≤ limitedThresh * s.mss) ∨
    (s.sack = true ∧ s.Evidence) ∨ seqLe n (s.sendRecover - 1)

theorem duplicateAck_effect {n : TCPSeq} {win len : Int} (hneg : 0 ≤ s.dupAcks)
    (hdup : s.dupAcks < rxmitThresh → s.Duplicate n win len)
    (hok : s.dupAcks = 0 → FirstOk s n) : AckEffect s (s.duplicateAck n) n win len := by
  have h3 : rxmitThresh = 3 := rfl
  have h2 : limitedThresh = 2 := rfl
  unfold duplicateAck
  simp only
  split
  · -- in fast recovery already
    rename_i hrec
    split
    · exact .inr (.inr (.inr (.inl ⟨by omega, by simp only; omega⟩)))
    · exact .inr (.inr (.inr (.inl ⟨by omega, by simp only; omega⟩)))
  rename_i hbefore
  have hdup : s.Duplicate n win len := by
    by_cases hlt : s.dupAcks < rxmitThresh
    · exact hdup hlt
    · omega
  split
  · rename_i hthird
    split
    · exact .inl ⟨rfl, rfl⟩
    · have hevidence : s.dupAcks = 2 ∨ s.Evidence := by
        rcases hthird with hcount | hsack
        · exact .inl (by omega)
        · exact .inr hsack.2
      split
      · exact .inr (.inr (.inr (.inr ⟨hdup, by omega, rfl, hevidence⟩)))
      · rename_i hsack
        have hcount : s.dupAcks + 1 = rxmitThresh := by
          rcases hthird with hcount | hboth
          · exact hcount
          · exact absurd hboth.1 hsack
        exact .inr (.inr (.inr (.inr ⟨hdup, by omega, hcount, hevidence⟩)))
  rename_i hthird
  split
  · rename_i hsecond
    split
    · exact .inl ⟨rfl, rfl⟩
    · rename_i hrecover
      have hone : s.dupAcks ≠ 0 := by
        intro hzero
        rcases hok hzero with ⟨hsack, hfack⟩ | hboth | hold
        · rcases hsecond with hcount | hyes | hmore
          · omega
          · rw [hsack] at hyes
            cases hyes
          · omega
        · exact hthird (.inr hboth)
        · exact hrecover hold
      refine .inr (.inr (.inl ⟨hdup, by omega, ?_, rfl⟩))
      simp only
      omega
  · exact .inr (.inr (.inl ⟨hdup, by omega, rfl, rfl⟩))

theorem newAck_effect (n : TCPSeq) :
    (s.newAck n).dupAcks = 0 ∧ (s.newAck n).ssThresh = s.ssThresh ∨
      rxmitThresh ≤ s.dupAcks ∧ rxmitThresh ≤ (s.newAck n).dupAcks := by
  have hopen : ∀ t : StreamReceiver, (t.openWindow n).dupAcks = t.dupAcks ∧
      (t.openWindow n).ssThresh = t.ssThresh := by
    intro t
    unfold openWindow
    simp only
    repeat' split
    all_goals exact ⟨rfl, rfl⟩
  unfold newAck
  simp only
  split
  · rename_i hrec
    have hcount : rxmitThresh ≤ s.dupAcks + 1 := by omega
    split
    · refine .inr ⟨hrec, ?_⟩
      rw [(hopen _).1]
      split <;> exact hcount
    · split <;> exact .inl ⟨rfl, rfl⟩
  · exact .inl ⟨(hopen _).1, (hopen _).2⟩

theorem ack_effect {n : TCPSeq} {win len : Int} (hneg : 0 ≤ s.dupAcks)
    (hok : s.Duplicate n win len → s.dupAcks = 0 → FirstOk s n) (seq : TCPSeq) (sent : Int) :
    AckEffect s (s.ack seq n win sent len).2 n win len := by
  by_cases hold : seqLe n s.sendUna
  · unfold StreamReceiver.ack
    rw [if_pos hold]
    split
    · exact .inl ⟨rfl, rfl⟩
    rename_i hout
    split
    · rename_i hpass
      refine .inr (.inl ⟨hold, ?_, fun hsame => hout ⟨hpass.1, hsame⟩, rfl, rfl⟩)
      rintro ⟨hsame, -, hwin, hlen⟩
      rcases hpass.2 with h | h | h
      · exact h hwin
      · exact h hlen
      · exact h hsame
    · rename_i hcount
      have hdup : s.dupAcks < rxmitThresh → s.Duplicate n win len := by
        intro hlt
        refine ⟨?_, fun hsame => hout ⟨hlt, hsame⟩, ?_, ?_⟩
        · exact Decidable.byContradiction fun hc => hcount ⟨hlt, .inr (.inr hc)⟩
        · exact Decidable.byContradiction fun hc => hcount ⟨hlt, .inl hc⟩
        · exact Decidable.byContradiction fun hc => hcount ⟨hlt, .inr (.inl hc)⟩
      refine duplicateAck_effect hneg hdup fun hzero => hok (hdup ?_) hzero
      rw [hzero]
      decide
  · have hsame := ack_windows hold seq win sent len
    rcases newAck_effect (s := s) n with ⟨hzero, hthresh⟩ | ⟨hrec, hrec'⟩
    · exact .inl ⟨hsame.dupAcks.trans hzero, hsame.ssThresh.trans hthresh⟩
    · exact .inr (.inr (.inr (.inl ⟨hrec, hsame.dupAcks ▸ hrec'⟩)))

/-! ## The other steps -/

theorem option_dupAcks (s : StreamReceiver) (hdr : TCPHdr) : (s.option hdr).2.dupAcks = s.dupAcks := by
  have hloop : (optionLoop hdr (hdr.hdrSize + 1) (hdr.hdrSize - 20) hdr.opt s.getDefaultMSS
      s).2.2.dupAcks = s.dupAcks :=
    optionLoop_keeps (P := fun t => t.dupAcks = s.dupAcks) (fun _ ht => ht)
      (fun t ack blocks ht => (updateScoreboard_windows t ack blocks).dupAcks.trans ht) hdr _ _ _ _ rfl
  unfold StreamReceiver.option
  simp only
  repeat' split
  all_goals exact hloop

theorem expired_dupAcks (s : StreamReceiver) :
    s.expired.2.dupAcks = s.dupAcks ∨ s.expired.2.dupAcks = 0 := by
  unfold StreamReceiver.expired
  simp only
  split
  · exact .inl rfl
  split
  · exact .inl (congrArg Congestion.dupAcks (abort_congestion { s with rxmitTimer := none }))
  split
  · exact .inl (congrArg Congestion.dupAcks (abortWith_congestion _ _))
  · exact .inr rfl

/-- A step that is no acknowledgement keeps the counter or resets it. -/
theorem step_dupAcks {op : CongestionOp} (hallowed : s.CongestionAllowed op)
    (hop : ∀ seq ack win sent len, op ≠ .ack seq ack win sent len) :
    (s.congestionStep op).dupAcks = s.dupAcks ∨ (s.congestionStep op).dupAcks = 0 := by
  cases op with
  | ack seq ack win sent len => exact absurd rfl (hop seq ack win sent len)
  | option hdr => exact .inl (option_dupAcks s hdr)
  | output stack oob => exact (output_output s stack oob).dupAcks
  | expired => exact expired_dupAcks s
  | other next => exact .inl (congrArg Congestion.dupAcks hallowed)

namespace Duplicates

variable {d : Duplicates}

/-! ## Runs -/

/-- Out of fast recovery the counter is not ahead of the duplicates that `n` counts. -/
def Behind (d : Duplicates) (n : Nat) : Prop :=
  0 ≤ d.recv.dupAcks ∧ (d.recv.dupAcks < rxmitThresh → d.recv.dupAcks ≤ n)

theorem run_recv (d : Duplicates) (op : CongestionOp) :
    (d.run op).recv = d.recv.congestionStep op := by
  unfold run
  cases op with
  | ack seq ack win sent len =>
    simp only
    split
    · split <;> rfl
    · rfl
  | _ => rfl

theorem run_behind_other {n : Nat} (h : d.Behind n) {op : CongestionOp}
    (hallowed : d.recv.CongestionAllowed op)
    (hop : ∀ seq ack win sent len, op ≠ .ack seq ack win sent len) : (d.run op).Behind n := by
  obtain ⟨hneg, hle⟩ := h
  unfold Behind
  rw [run_recv]
  rcases step_dupAcks hallowed hop with hsame | hzero
  · rw [hsame]
    exact ⟨hneg, hle⟩
  · rw [hzero]
    exact ⟨Int.le_refl 0, fun _ => Int.natCast_nonneg n⟩

section Ack

variable {seq ack : TCPSeq} {win sent len : Int}

/-- An acknowledgement, when the duplicates are `k` after it. -/
theorem run_behind_ack {n k : Nat} (h : d.Behind n) (hok : d.CountOk (.ack seq ack win sent len))
    (hdup : d.recv.Duplicate ack win len → k = n + 1)
    (hpass : seqLe ack d.recv.sendUna → ¬ d.recv.Duplicate ack win len →
      d.recv.sendUna ≠ d.recv.sendMax →
      n ≤ k ∨ d.recv.dupAcks = 0 ∨ rxmitThresh ≤ d.recv.dupAcks) :
    (d.run (.ack seq ack win sent len)).Behind k := by
  obtain ⟨hneg, hle⟩ := h
  have h3 : rxmitThresh = 3 := rfl
  unfold Behind
  rw [run_recv]
  have heffect : AckEffect d.recv (d.recv.congestionStep (.ack seq ack win sent len)) ack win len :=
    ack_effect hneg hok seq sent
  rcases heffect with ⟨hzero, -⟩ | ⟨hold, hnot, hout, hsame, -⟩ | ⟨hd, hlt, hcount, -⟩ | ⟨hrec, hrec'⟩ |
    ⟨hd, hlt, hthree, -⟩
  · rw [hzero]
    omega
  · rw [hsame]
    have := hpass hold hnot hout
    omega
  · rw [hcount]
    have := hdup hd
    omega
  · omega
  · rw [hthree]
    omega

/-- An acknowledgement that begins fast recovery is a duplicate, the third one counted or one with
    evidence. -/
theorem starts_ack {n : Nat} (h : d.Behind n) (hok : d.CountOk (.ack seq ack win sent len))
    (hstarts : d.Starts (.ack seq ack win sent len)) :
    d.recv.Duplicate ack win len ∧ (3 ≤ n + 1 ∨ d.recv.Evidence) := by
  obtain ⟨hneg, hle⟩ := h
  have h3 : rxmitThresh = 3 := rfl
  obtain ⟨hbefore, hafter⟩ := hstarts
  rw [run_recv] at hafter
  have heffect : AckEffect d.recv (d.recv.congestionStep (.ack seq ack win sent len)) ack win len :=
    ack_effect hneg hok seq sent
  rcases heffect with ⟨hzero, hthresh⟩ | ⟨-, -, -, hsame, hthresh⟩ | ⟨-, hlt, hcount, hthresh⟩ |
    ⟨hrec, -⟩ | ⟨hd, -, -, htwo | hevidence⟩
  · rcases hafter with hthree | hcut
    · omega
    · exact absurd hthresh hcut
  · rcases hafter with hthree | hcut
    · omega
    · exact absurd hthresh hcut
  · rcases hafter with hthree | hcut
    · omega
    · exact absurd hthresh hcut
  · omega
  · exact ⟨hd, .inl (by omega)⟩
  · exact ⟨hd, .inr hevidence⟩

theorem run_duplicate (hd : d.recv.Duplicate ack win len) :
    (d.run (.ack seq ack win sent len)).count = d.count + 1 ∧
      (d.run (.ack seq ack win sent len)).row = d.row + 1 := by
  have hold : seqLe ack d.recv.sendUna := by
    rw [hd.1, seqLe, BitVec.sub_self]
    decide
  unfold run
  simp only [if_pos hold, if_pos hd, and_self]

theorem run_passed (hold : seqLe ack d.recv.sendUna) (hnot : ¬ d.recv.Duplicate ack win len) :
    (d.run (.ack seq ack win sent len)).count = d.count ∧
      (d.run (.ack seq ack win sent len)).row = 0 := by
  unfold run
  simp only [if_pos hold, if_neg hnot, and_self]

end Ack

/-- No other step begins fast recovery. -/
theorem not_starts_other {op : CongestionOp} (hallowed : d.recv.CongestionAllowed op)
    (hop : ∀ seq ack win sent len, op ≠ .ack seq ack win sent len) : ¬ d.Starts op := by
  rintro ⟨hbefore, hafter⟩
  have h3 : rxmitThresh = 3 := rfl
  have hthree : rxmitThresh ≤ (d.run op).recv.dupAcks := by
    cases op with
    | ack seq ack win sent len => exact absurd rfl (hop seq ack win sent len)
    | _ => exact hafter
  rw [run_recv] at hthree
  rcases step_dupAcks hallowed hop with hsame | hzero <;> omega

theorem run_other {op : CongestionOp} (hop : ∀ seq ack win sent len, op ≠ .ack seq ack win sent len) :
    (d.run op).count = d.count ∧ (d.run op).row = d.row := by
  cases op with
  | ack seq ack win sent len => exact absurd rfl (hop seq ack win sent len)
  | _ => exact ⟨rfl, rfl⟩

theorem count_behind (hrun : system.RunWith CountOk d) : d.Behind d.count := by
  refine hrun.invariant (fun d => d.Behind d.count) ?_ ?_
  · rintro d ⟨hzero, -, -⟩
    unfold Behind
    omega
  · rintro d op d' h hok ⟨hallowed, rfl⟩
    cases op with
    | ack seq ack win sent len =>
      exact run_behind_ack h hok (fun hd => (run_duplicate hd).1)
        (fun hold hnot _ => .inl (Nat.le_of_eq (run_passed hold hnot).1.symm))
    | _ =>
      rw [(run_other (by rintro _ _ _ _ _ ⟨⟩)).1]
      exact run_behind_other h hallowed (by rintro _ _ _ _ _ ⟨⟩)

theorem row_behind (hrun : system.RunWith (fun d op => d.CountOk op ∧ d.RowOk op) d) :
    d.Behind d.row := by
  refine hrun.invariant (fun d => d.Behind d.row) ?_ ?_
  · rintro d ⟨hzero, -, -⟩
    unfold Behind
    omega
  · rintro d op d' h ⟨hok, hrow⟩ ⟨hallowed, rfl⟩
    cases op with
    | ack seq ack win sent len =>
      exact run_behind_ack h hok (fun hd => (run_duplicate hd).2)
        (fun hold hnot hout => .inr (hrow hold hnot hout))
    | _ =>
      rw [(run_other (by rintro _ _ _ _ _ ⟨⟩)).2]
      exact run_behind_other h hallowed (by rintro _ _ _ _ _ ⟨⟩)

/-- In a run in which the first duplicate is never taken for the second, fast recovery begins with
    the third duplicate since the last acknowledgement of new data, or with evidence; and with the
    third one in a row when no other acknowledgement comes between the counted ones. -/
theorem fast_recovery_starts (op : CongestionOp) (hallowed : d.recv.CongestionAllowed op)
    (hok : d.CountOk op) (hstarts : d.Starts op) :
    (system.RunWith CountOk d → 3 ≤ (d.run op).count ∨ d.recv.Evidence) ∧
      (system.RunWith (fun d op => d.CountOk op ∧ d.RowOk op) d →
        3 ≤ (d.run op).row ∨ d.recv.Evidence) := by
  cases op with
  | ack seq ack win sent len =>
    constructor
    · intro hrun
      obtain ⟨hd, hthree⟩ := starts_ack (count_behind hrun) hok hstarts
      rwa [(run_duplicate hd).1]
    · intro hrun
      obtain ⟨hd, hthree⟩ := starts_ack (row_behind hrun) hok hstarts
      rwa [(run_duplicate hd).2]
  | _ => exact absurd hstarts (not_starts_other hallowed (by rintro _ _ _ _ _ ⟨⟩))

/-- `smallSegments` without SACK, with two segments outstanding. -/
def twoOutstanding : Duplicates :=
  ⟨(({ smallSegments with sack := false }).congestionStep sendOne).congestionStep sendOne, 0, 0⟩

theorem fast_recovery_starts_third :
    3 ≤ (((twoOutstanding.run (ackOf 0 0)).run (ackOf 0 0)).run (ackOf 0 0)).row := by
  let ok := fun (d : Duplicates) op => d.CountOk op ∧ d.RowOk op
  have hinit : system.init twoOutstanding := ⟨by decide +kernel, rfl, rfl⟩
  have hone : system.RunWith ok (twoOutstanding.run (ackOf 0 0)) :=
    (System.RunWith.start hinit).next (l := ackOf 0 0)
      (show CountOk twoOutstanding _ ∧ RowOk twoOutstanding _ by decide +kernel)
      ⟨show ¬ seqLt _ _ by decide +kernel, rfl⟩
  have htwo : system.RunWith ok ((twoOutstanding.run (ackOf 0 0)).run (ackOf 0 0)) :=
    hone.next (l := ackOf 0 0)
      (show CountOk (twoOutstanding.run _) _ ∧ RowOk (twoOutstanding.run _) _ by decide +kernel)
      ⟨show ¬ seqLt _ _ by decide +kernel, rfl⟩
  rcases (fast_recovery_starts (ackOf 0 0) (show ¬ seqLt _ _ by decide +kernel)
    (by decide +kernel) (by decide +kernel)).2 htwo with hrow | hevidence
  · exact hrow
  · exact absurd hevidence (by decide +kernel)

/-- With SACK the second duplicate begins fast recovery. -/
theorem second_duplicate_starts :
    ∃ d, system.Reachable d ∧ d.recv.CongestionAllowed (ackOf 0 0) ∧ d.Starts (ackOf 0 0) ∧
      (d.run (ackOf 0 0)).count = 2 ∧ ¬ d.recv.Evidence := by
  let start : Duplicates := ⟨(smallSegments.congestionStep sendOne).congestionStep sendOne, 0, 0⟩
  have hinit : system.init start := ⟨by decide +kernel, rfl, rfl⟩
  have hone : system.step start (ackOf 0 0) (start.run (ackOf 0 0)) :=
    ⟨show ¬ seqLt _ _ by decide +kernel, rfl⟩
  refine ⟨start.run (ackOf 0 0), (System.RunWith.start hinit).next trivial hone,
    show ¬ seqLt _ _ by decide +kernel, ?_⟩
  decide +kernel

end Duplicates

end EsOs.Net
