import EsOs.Net.DhcpLease
import EsOs.Net.Proofs.Dhcp

/-!
# When a DHCP lease is kept

The client keeps its lease as long as the server repeats the times of the first acknowledgement and
answers before the time of rebinding.
-/

namespace EsOs.Net.DHCPControl

open EsOs.Lib

theorem span_le (n : Nat) : span n ≤ n * TICKS_PER_SECOND := by
  have hle : Int.bmod n 0x100000000 ≤ n := by
    rw [Int.bmod_def]
    split <;> omega
  exact Int.mul_le_mul_of_nonneg_right hle (by decide)

/-- A positive time is as it says. -/
theorem span_eq {n : Nat} (h : n < 0x100000000) (hpos : 0 < span n) :
    span n = n * TICKS_PER_SECOND := by
  have hdef := Int.bmod_def n 0x100000000
  have hsmall : 0 < Int.bmod n 0x100000000 := by
    unfold span TICKS_PER_SECOND at hpos
    omega
  have heq : Int.bmod n 0x100000000 = n := by
    split at hdef <;> omega
  unfold span
  rw [heq]

namespace Client

variable {s : Client} {a : Answer} {time : Int} {reply : Reply}

/-- The last answer is an acknowledgement with the timers of the client. -/
structure Holds (s : Client) (a : Answer) : Prop where
  acked : s.acked = some a
  renewal : s.info.renewal = a.info.renewal
  rebinding : s.info.rebinding = a.info.rebinding
  lease : s.info.lease = a.info.lease
  renewal_le : s.info.renewal ≤ s.info.rebinding
  rebinding_le : s.info.rebinding ≤ s.info.lease
  lease_lt : s.info.lease < 0x100000000
  naked : s.naked = false

/-- What holds at the calls of `read` of a client whose events are expected. -/
def Good (s : Client) : Prop :=
  match s.phase with
  | .requesting _ => s.now ≤ s.clock
  | .settling till => ∃ a, s.Holds a ∧ s.now = a.answered ∧ s.now ≤ s.clock ∧
      s.clock + s.timeout = till ∧ till ≤ a.answered + a.info.lease * TICKS_PER_SECOND
  | .bound => ∃ a, s.Holds a ∧ s.epoch = a.answered ∧ s.epoch ≤ s.clock ∧
      s.clock + s.timeout = s.epoch + span s.info.renewal
  | .renewing => ∃ a, s.Holds a ∧ s.epoch = a.answered ∧ s.epoch ≤ s.now ∧ s.now ≤ s.clock ∧
      s.clock + s.timeout ≤ s.epoch + span s.info.rebinding
  | .expecting => ∃ a, s.Holds a ∧ s.epoch = a.answered ∧ s.epoch ≤ s.clock ∧
      s.clock < s.epoch + span s.info.rebinding ∧
      s.clock + s.timeout = s.epoch + span s.info.rebinding
  | .stopped => True
  | _ => False

/-! ## The heads of the loops -/

theorem clock_add (clock till : Int) : clock + (till - clock) = till := by
  omega

theorem Holds.mono {s' : Client} (h : s.Holds a) (hinfo : s'.info = s.info)
    (hacked : s'.acked = s.acked) (hnaked : s'.naked = s.naked) : s'.Holds a := by
  obtain ⟨hacked', hrenewal, hrebinding, hlease, hrenewal_le, hrebinding_le, hlt, hnaked'⟩ := h
  rw [← hinfo] at hrenewal hrebinding hlease hrenewal_le hrebinding_le hlt
  exact ⟨hacked.trans hacked', hrenewal, hrebinding, hlease, hrenewal_le, hrebinding_le, hlt,
    hnaked.trans hnaked'⟩

theorem good_expect (h : s.Holds a) (hepoch : s.epoch = a.answered) (hfrom : s.epoch ≤ s.clock)
    (htill : s.clock < s.epoch + span s.info.rebinding) : s.expect.Good := by
  unfold expect
  rw [if_pos htill]
  exact ⟨a, h.mono rfl rfl rfl, hepoch, hfrom, htill, clock_add _ _⟩

/-- A request of Renewing is waited for until Rebinding at most. -/
theorem good_renew (h : s.Holds a) (hepoch : s.epoch = a.answered) (hfrom : s.epoch ≤ s.clock)
    (htill : s.clock < s.epoch + span s.info.rebinding) : s.renew.Good := by
  have hunit : TICKS_PER_SECOND = 10000000 := rfl
  have hwait : (s.epoch + span s.info.rebinding - s.clock).tdiv 2 =
      (s.epoch + span s.info.rebinding - s.clock) / 2 := Int.tdiv_eq_ediv_of_nonneg (by omega)
  unfold renew
  simp only [if_pos htill, hwait]
  split
  · exact good_expect (h.mono rfl rfl rfl) hepoch hfrom htill
  · refine ⟨a, h.mono rfl rfl rfl, hepoch, hfrom, Int.le_refl _, ?_⟩
    simp only [reads]
    omega

/-- A client that has been answered waits for the time of renewal, or renews. -/
theorem good_bind (h : s.Holds a) (hnow : s.now = a.answered) (hfrom : s.now ≤ s.clock)
    (htime : s.RenewsInTime s.now s.clock) : s.bind.Good := by
  unfold bind
  simp only
  split
  · refine ⟨a, h.mono rfl rfl rfl, hnow, hfrom, ?_⟩
    simp only [reads]
    omega
  · rename_i hlate
    exact good_renew (h.mono rfl rfl rfl) hnow hfrom (htime (Int.not_lt.mp hlate))

/-! ## One event -/

theorem hears_quiet (h : Quiet reply) : s.hears reply = s := by
  cases reply with
  | nothing => rfl
  | offer => rfl
  | ack _ _ => exact absurd h id
  | nak => exact absurd h id

/-- An acknowledgement with the same times takes the place of the last one. -/
theorem Holds.hears_ack {info : DHCPInfo} {answered : Int} (h : s.Holds a)
    (hrenewal : (timers info).renewal = s.info.renewal)
    (hrebinding : (timers info).rebinding = s.info.rebinding) (hlease : info.lease = s.info.lease) :
    (s.hears (.ack info answered)).Holds ⟨timers info, answered⟩ :=
  ⟨rfl, hrenewal.symm, hrebinding.symm, hlease.symm, h.renewal_le, h.rebinding_le, h.lease_lt, rfl⟩

theorem good_requesting {count : Nat} (hphase : s.phase = .requesting count) (hnow : s.now ≤ s.clock)
    (hfrom : s.clock ≤ time) (hexpected : s.Expected (.read time reply))
    (hreturns : s.Returns time reply) :
    (({ s with clock := time }.hears reply).resume reply).Good := by
  have htime : s.now ≤ time := hnow.trans hfrom
  unfold Expected at hexpected
  obtain ⟨-, -, -, hreply⟩ := hreturns
  unfold resume
  cases reply with
  | nothing =>
    simp only [hears, hphase]
    split
    · exact htime
    · exact trivial
  | offer =>
    simp only [hears, hphase, Good]
    exact htime
  | nak =>
    simp only [hears, hphase]
    exact trivial
  | ack info answered =>
    simp only [hphase] at hexpected
    simp only [hears, hphase]
    obtain ⟨hrenewal, hrebinding⟩ := timers_ordered info
    split
    · exact trivial
    · rename_i hlease
      obtain ⟨hanswered, hends⟩ := hexpected.resolve_left hlease
      exact ⟨⟨timers info, answered⟩, ⟨rfl, rfl, rfl, rfl, hrenewal, hrebinding, hreply.2, rfl⟩,
        hanswered.symm, htime, rfl, hends⟩

theorem good_renewing (hphase : s.phase = .renewing) (hgood : s.Good)
    (hexpected : s.Expected (.read time reply)) (hfrom : s.clock ≤ time) :
    (({ s with clock := time }.hears reply).resume reply).Good := by
  simp only [Good, hphase] at hgood
  obtain ⟨a, hholds, hepoch, hsince, hnow, htill⟩ := hgood
  simp only [Expected, hphase] at hexpected
  unfold resume
  cases reply with
  | ack info answered =>
    obtain ⟨hanswered, hrenewal, hrebinding, hlease, htime⟩ := hexpected
    simp only [hears, hphase]
    exact good_bind ((hholds.hears_ack hrenewal hrebinding hlease).mono rfl rfl rfl) hanswered.symm
      (hnow.trans hfrom) htime
  | nak =>
    simp only [hears, hphase]
    exact trivial
  | nothing =>
    simp only [hears, hphase]
    exact good_renew (hholds.mono rfl rfl rfl) hepoch (hsince.trans (hnow.trans hfrom)) hexpected
  | offer =>
    simp only [hears, hphase]
    exact good_renew (hholds.mono rfl rfl rfl) hepoch (hsince.trans (hnow.trans hfrom)) hexpected

theorem good_read (hgood : s.Good) (hexpected : s.Expected (.read time reply))
    (hreturns : s.Returns time reply) :
    (({ s with clock := time }.hears reply).resume reply).Good := by
  have hfrom : s.clock ≤ time := hreturns.2.1
  obtain ⟨phase, hphase⟩ : ∃ phase, s.phase = phase := ⟨_, rfl⟩
  cases phase with
  | requesting count =>
    simp only [Good, hphase] at hgood
    exact good_requesting hphase hgood hfrom hexpected hreturns
  | renewing => exact good_renewing hphase hgood hexpected hfrom
  | settling till =>
    simp only [Good, hphase] at hgood
    obtain ⟨a, hholds, hnow, hsince, htill, hends⟩ := hgood
    simp only [Expected, hphase] at hexpected
    rw [hears_quiet hexpected.1]
    simp only [resume, hphase, sleeps]
    split
    · simp only [Good]
      exact ⟨a, hholds.mono rfl rfl rfl, hnow, hsince.trans hfrom, clock_add _ _, hends⟩
    · rename_i hlate
      exact good_bind (hholds.mono rfl rfl rfl) hnow (hsince.trans hfrom)
        (hexpected.2 (Int.not_lt.mp hlate))
  | bound =>
    simp only [Good, hphase] at hgood
    obtain ⟨a, hholds, hepoch, hsince, htill⟩ := hgood
    simp only [Expected, hphase] at hexpected
    rw [hears_quiet hexpected.1]
    simp only [resume, hphase, sleeps]
    split
    · simp only [Good]
      exact ⟨a, hholds.mono rfl rfl rfl, hepoch, hsince.trans hfrom, clock_add _ _⟩
    · rename_i hlate
      exact good_renew (hholds.mono rfl rfl rfl) hepoch (hsince.trans hfrom)
        (hexpected.2 (Int.not_lt.mp hlate))
  | expecting =>
    simp only [Good, hphase] at hgood
    obtain ⟨a, hholds, hepoch, hsince, -, -⟩ := hgood
    simp only [Expected, hphase] at hexpected
    rw [hears_quiet hexpected.1]
    simp only [resume, hphase, sleeps]
    rw [if_pos hexpected.2]
    simp only [Good]
    exact ⟨a, hholds.mono rfl rfl rfl, hepoch, hsince.trans hfrom, hexpected.2,
      clock_add _ _⟩
  | rebinding =>
    simp only [Good, hphase] at hgood
  | releasing till =>
    simp only [Good, hphase] at hgood
  | stopped => exact absurd hphase hreturns.1

theorem good_step {s' : Client} {event : Event} (hgood : s.Good) (hexpected : s.Expected event)
    (hstep : s.step event = some s') : s'.Good := by
  unfold step at hstep
  split at hstep
  · rename_i time reply
    obtain ⟨hreturns, hread⟩ := Option.ite_none_right_eq_some.mp hstep
    rw [← Option.some.inj hread]
    exact good_read hgood hexpected hreturns
  · cases hstep
    exact trivial

/-! ## The lease -/

theorem KeepsLease.of_uses (h : ¬ s.Uses) (hexpecting : s.phase ≠ .expecting)
    (hreleasing : ∀ till, s.phase ≠ .releasing till) : s.KeepsLease where
  timers := fun huses => absurd huses h
  expects := fun hphase => absurd hphase hexpecting
  rebinds := fun till hphase => absurd hphase (hreleasing till)
  ends := fun huses => absurd huses h
  refusal := fun _ => h

/-- The times of an answer that the client holds. -/
theorem Holds.keepsLease (h : s.Holds a) (hbase : s.base = a.answered)
    (hexpecting : s.phase = .expecting →
      s.clock + s.timeout = a.answered + a.info.rebinding * TICKS_PER_SECOND)
    (hreleasing : ∀ till, s.phase ≠ .releasing till)
    (hends : s.clock + s.timeout ≤ a.answered + a.info.lease * TICKS_PER_SECOND) : s.KeepsLease := by
  have hone : ∀ {b}, s.acked = some b → b = a := fun hb =>
    Option.some.inj (hb.symm.trans h.acked)
  refine ⟨fun _ => ⟨a, h.acked, h.renewal, h.rebinding, h.lease, hbase⟩, ?_, ?_, ?_, ?_⟩
  · rintro hphase b hb
    rw [hone hb]
    exact hexpecting hphase
  · exact fun till hphase => absurd hphase (hreleasing till)
  · rintro - b hb
    rw [hone hb]
    exact hends
  · intro hnaked
    exact absurd (h.naked.symm.trans hnaked) Bool.false_ne_true

/-- The times of renewal and of rebinding are not behind the end of the lease. -/
theorem Holds.span_le_lease {n : Nat} (h : s.Holds a) (hn : n ≤ s.info.lease) :
    span n ≤ a.info.lease * TICKS_PER_SECOND := by
  have hle : n ≤ a.info.lease := h.lease ▸ hn
  exact (span_le n).trans (Int.mul_le_mul_of_nonneg_right (Int.ofNat_le.mpr hle) (by decide))

theorem Good.keepsLease (h : s.Good) : s.KeepsLease := by
  cases hphase : s.phase with
  | requesting count =>
    exact .of_uses (by unfold Uses; rw [hphase]; exact id) (by rw [hphase]; nofun)
      (by rw [hphase]; nofun)
  | stopped =>
    exact .of_uses (by unfold Uses; rw [hphase]; exact id) (by rw [hphase]; nofun)
      (by rw [hphase]; nofun)
  | settling till =>
    simp only [Good, hphase] at h
    obtain ⟨a, hholds, hnow, -, htill, hends⟩ := h
    exact hholds.keepsLease (by simp only [base, hphase]; exact hnow) (by rw [hphase]; nofun)
      (by rw [hphase]; nofun) (htill ▸ hends)
  | bound =>
    simp only [Good, hphase] at h
    obtain ⟨a, hholds, hepoch, -, htill⟩ := h
    have hspan := hholds.span_le_lease (hholds.renewal_le.trans hholds.rebinding_le)
    exact hholds.keepsLease (by simp only [base, hphase]; exact hepoch) (by rw [hphase]; nofun)
      (by rw [hphase]; nofun) (by omega)
  | renewing =>
    simp only [Good, hphase] at h
    obtain ⟨a, hholds, hepoch, -, -, htill⟩ := h
    have hspan := hholds.span_le_lease hholds.rebinding_le
    exact hholds.keepsLease (by simp only [base, hphase]; exact hepoch) (by rw [hphase]; nofun)
      (by rw [hphase]; nofun) (by omega)
  | expecting =>
    simp only [Good, hphase] at h
    obtain ⟨a, hholds, hepoch, hsince, hlate, htill⟩ := h
    have hspan := hholds.span_le_lease hholds.rebinding_le
    have hrebinding : span s.info.rebinding = a.info.rebinding * TICKS_PER_SECOND := by
      rw [span_eq (hholds.rebinding_le.trans_lt hholds.lease_lt) (by omega), hholds.rebinding]
    exact hholds.keepsLease (by simp only [base, hphase]; exact hepoch)
      (fun _ => by rw [htill, hepoch, hrebinding]) (by rw [hphase]; nofun) (by omega)
  | rebinding =>
    simp only [Good, hphase] at h
  | releasing till =>
    simp only [Good, hphase] at h

/-- In every run whose events are expected the lease is kept, in every state. -/
theorem keepsLease_of_expected (s : Client) (h : system.RunWith Expected s) : s.KeepsLease := by
  refine Good.keepsLease (h.invariant Good ?_ ?_)
  · rintro s ⟨now, info, rfl⟩
    exact Int.le_refl now
  · exact fun s event s' hgood hexpected hstep => good_step hgood hexpected hstep

/-- A lease of 1000 seconds, of which T1 is 500 and T2 is 875, is renewed after 501 seconds for so
    many. -/
def renewal (lease : Nat) : List Event :=
  [.read 10000000 (.ack { lease := 1000 } 0), .read 100000000 .nothing, .read 5000000000 .nothing,
    .read 5010000000 (.ack { lease := lease } 5000000000)]

theorem keepsLease_renewed :
    ∃ s : Client, s.phase = .bound ∧ s.epoch = 5000000000 ∧ s.KeepsLease := by
  have hrun : (((renewal 1000).foldlM (fun s l => if Expected s l then step s l else none)
      (start 0 {})).map fun s => (s.phase, s.epoch)) = some (.bound, 5000000000) := by
    decide +kernel
  obtain ⟨s, hs, hpair⟩ := Option.map_eq_some_iff.mp hrun
  obtain ⟨hphase, hepoch⟩ := Prod.mk.inj hpair
  exact ⟨s, hphase, hepoch,
    keepsLease_of_expected s (System.runWith_of_foldlM (.start ⟨0, {}, rfl⟩) hs)⟩

/-- The second acknowledgement is for 600 seconds, and the client still goes by the first one. -/
theorem not_keepsLease_shortened : ¬ ∀ s, system.Reachable s → s.KeepsLease := by
  intro h
  have hrun : (((renewal 600).foldlM step (start 0 {})).map fun s =>
      (s.phase, s.acked.map fun a => a.info.lease, s.info.lease)) = some (.bound, some 600, 1000) := by
    decide +kernel
  obtain ⟨s, hs, hpair⟩ := Option.map_eq_some_iff.mp hrun
  obtain ⟨hphase, hrest⟩ := Prod.mk.inj hpair
  obtain ⟨hacked, hlease⟩ := Prod.mk.inj hrest
  have huses : s.Uses := by
    unfold Uses
    rw [hphase]
    exact trivial
  have hkeeps := h s (System.reachable_of_foldlM (.start ⟨0, {}, rfl⟩) hs)
  obtain ⟨a, ha, -, -, heq, -⟩ := hkeeps.timers huses
  rw [ha] at hacked
  exact absurd (hlease.symm.trans (heq.trans (Option.some.inj hacked))) (by decide)

end Client

end EsOs.Net.DHCPControl
