import Mathlib.Data.List.Perm.Subperm
import EsOs.Kernel.Alarm

/-!
# The alarm queues over any run

A queue holds each of its alarms once, in the order of their next ticks, and the alarms that name it.
An alarm that is in no queue has no next tick, and the next tick of one in the queue of those with a
start time is a number of intervals behind it, so that the catch-up of a periodic alarm keeps its
phase.
-/

namespace EsOs.Kernel

/-- What the fields of an alarm say of each other. -/
structure Alarm.Valid (v : Alarm) : Prop where
  idle : v.current = none → v.nextTick = 0
  live : ∀ q, v.current = some q → v.enabled = true ∧ 0 < v.interval ∧ 0 < v.nextTick
  place : ∀ q, v.current = some q → (q = .absolute ↔ 0 < v.start)
  phase : v.current = some .absolute →
    v.start + v.interval ≤ v.nextTick ∧ v.interval ∣ v.nextTick - v.start

namespace Alarm

variable {v : Alarm} {now : Int}

/-- The catch-up ends behind the clock, at most one interval, in the phase it began in. -/
theorem catchUp_spec {tick interval : Int} (hpos : 0 < interval) (hle : tick ≤ now) :
    now < tick + interval * ((now - tick) / interval + 1) ∧
      tick + interval * ((now - tick) / interval + 1) ≤ now + interval := by
  have hdiv := Int.mul_ediv_add_emod (now - tick) interval
  have hlow := Int.emod_nonneg (now - tick) (Int.ne_of_gt hpos)
  have hhigh := Int.emod_lt_of_pos (now - tick) hpos
  rw [Int.mul_add, Int.mul_one]
  omega

theorem epoch_le_expiration (hpos : 0 < v.interval) : v.epoch now ≤ v.expiration now := by
  unfold expiration
  dsimp only
  split
  · rename_i hcatch
    have := catchUp_spec hpos (show v.epoch now ≤ now by omega)
    omega
  · exact Int.le_refl _

theorem dvd_expiration_sub (now : Int) : v.interval ∣ v.expiration now - v.epoch now := by
  unfold expiration
  dsimp only
  split
  · rw [Int.add_comm, Int.add_sub_cancel]
    exact Int.dvd_mul_right _ _
  · rw [Int.sub_self]
    exact Int.dvd_zero _

/-- A periodic alarm is behind the clock, at most one interval if its epoch is not. -/
theorem expiration_periodic (hpos : 0 < v.interval) (hperiodic : v.periodic = true) :
    now < v.expiration now ∧
      (v.epoch now ≤ now + v.interval → v.expiration now ≤ now + v.interval) := by
  unfold expiration
  dsimp only
  split
  · rename_i hcatch
    have := catchUp_spec hpos (show v.epoch now ≤ now by omega)
    omega
  · rename_i hahead
    have : ¬ 0 ≤ now - v.epoch now := fun h => hahead ⟨hperiodic, h⟩
    exact ⟨by omega, id⟩

/-- An alarm that is put into a queue. -/
theorem Valid.queued {q : AlarmQueue} (henabled : v.enabled = true) (hpos : 0 < v.interval)
    (hnow : 0 ≤ now) (hplace : q = .absolute ↔ 0 < v.start) (hnext : 0 ≤ v.nextTick) :
    Valid { v with current := some q, nextTick := v.expiration now } := by
  have hle := @epoch_le_expiration v now hpos
  refine ⟨nofun, fun p _ => ⟨henabled, hpos, ?_⟩, fun p hp => ?_, fun hp => ?_⟩
  · show 0 < v.expiration now
    unfold epoch at hle
    split at hle
    · split at hle <;> omega
    · omega
  · cases hp
    exact hplace
  · have hq : q = .absolute := Option.some.inj hp
    have hstart := hplace.mp hq
    have hepoch : v.epoch now = v.start + v.interval := if_neg (by omega)
    have hdvd := dvd_expiration_sub (v := v) now
    rw [hepoch] at hdvd hle
    refine ⟨hle, ?_⟩
    show v.interval ∣ v.expiration now - v.start
    have hsplit : v.expiration now - v.start =
        v.expiration now - (v.start + v.interval) + v.interval := by omega
    rw [hsplit]
    exact Int.dvd_add hdvd (Int.dvd_refl _)

/-- An alarm that is in no queue. -/
theorem valid_idle (hcurrent : v.current = none) (hnext : v.nextTick = 0) : v.Valid := by
  refine ⟨fun _ => hnext, fun q hq => ?_, fun q hq => ?_, fun hq => ?_⟩ <;>
    rw [hcurrent] at hq <;> cases hq

/-- An alarm that is taken out of its queue is put back in the phase it is in. -/
theorem Valid.epoch_spec (hv : v.Valid) {q : AlarmQueue} (hq : v.current = some q) :
    v.epoch now ≤ v.nextTick ∧ v.interval ∣ v.epoch now - v.nextTick := by
  unfold epoch
  split
  · have hpos := (hv.live q hq).2.2
    rw [if_neg (by omega), Int.sub_self]
    exact ⟨Int.le_refl _, Int.dvd_zero _⟩
  · rename_i hstart
    have habsolute : q = .absolute := (hv.place q hq).mpr (by omega)
    rw [habsolute] at hq
    obtain ⟨hle, hdvd⟩ := hv.phase hq
    refine ⟨hle, ?_⟩
    have hsplit : v.start + v.interval - v.nextTick =
        v.interval - (v.nextTick - v.start) := by omega
    rw [hsplit]
    exact Int.dvd_sub (Int.dvd_refl _) hdvd

end Alarm

namespace AlarmState

variable {Id : Type*} [DecidableEq Id] {s : AlarmState Id} {a b : Id} {q : AlarmQueue} {v : Alarm}
  {now : Int}

/-- The queues are in order, and hold the alarms that name them. -/
structure Ordered (s : AlarmState Id) : Prop where
  sorted : ∀ q, (s.queues q).Pairwise fun a b => (s.alarms a).nextTick ≤ (s.alarms b).nextTick
  nodup : ∀ q, (s.queues q).Nodup
  mem : ∀ a q, a ∈ s.queues q ↔ (s.alarms a).current = some q

/-- What holds after every step. -/
structure Sound (s : AlarmState Id) : Prop extends Ordered s where
  valid : ∀ a, (s.alarms a).Valid
  clock : 0 ≤ s.clock

@[simp] theorem put_queues (s : AlarmState Id) (a : Id) (v : Alarm) :
    (s.put a v).queues = s.queues := rfl

@[simp] theorem put_clock (s : AlarmState Id) (a : Id) (v : Alarm) :
    (s.put a v).clock = s.clock := rfl

theorem put_self (s : AlarmState Id) (a : Id) (v : Alarm) : (s.put a v).alarms a = v := by
  simp [put]

theorem put_put (s : AlarmState Id) (a : Id) (v w : Alarm) :
    (s.put a v).put a w = s.put a w := by
  simp [put]

theorem put_of_ne (s : AlarmState Id) (v : Alarm) (h : b ≠ a) :
    (s.put a v).alarms b = s.alarms b := by
  simp [put, h]

@[simp] theorem setQueue_alarms (s : AlarmState Id) (q : AlarmQueue) (l : List Id) :
    (s.setQueue q l).alarms = s.alarms := rfl

theorem setQueue_self (s : AlarmState Id) (q : AlarmQueue) (l : List Id) :
    (s.setQueue q l).queues q = l := by
  simp [setQueue]

theorem setQueue_of_ne (s : AlarmState Id) (l : List Id) {p : AlarmQueue} (h : p ≠ q) :
    (s.setQueue q l).queues p = s.queues p := by
  simp [setQueue, h]

section insert

variable {f : Id → Int} {l : List Id}

theorem mem_insert : b ∈ insert f a l ↔ b = a ∨ b ∈ l := by
  induction l with
  | nil => simp [insert]
  | cons c l ih =>
    unfold insert
    split
    · rw [List.mem_cons, ih, List.mem_cons]
      exact or_left_comm
    · exact List.mem_cons

theorem nodup_insert (hl : l.Nodup) (ha : a ∉ l) : (insert f a l).Nodup := by
  induction l with
  | nil => exact List.nodup_cons.mpr ⟨List.not_mem_nil, List.nodup_nil⟩
  | cons c l ih =>
    obtain ⟨hac, hal⟩ := List.ne_and_not_mem_of_not_mem_cons ha
    obtain ⟨hc, hl⟩ := List.nodup_cons.mp hl
    unfold insert
    split
    · refine List.nodup_cons.mpr ⟨?_, ih hl hal⟩
      rw [mem_insert]
      rintro (rfl | hmem)
      · exact hac rfl
      · exact hc hmem
    · exact List.nodup_cons.mpr ⟨ha, List.nodup_cons.mpr ⟨hc, hl⟩⟩

theorem sorted_insert (hl : l.Pairwise fun b c => f b ≤ f c) :
    (insert f a l).Pairwise fun b c => f b ≤ f c := by
  induction l with
  | nil => exact List.pairwise_singleton _ _
  | cons c l ih =>
    obtain ⟨hc, hl⟩ := List.pairwise_cons.mp hl
    unfold insert
    split
    · rename_i hle
      refine List.pairwise_cons.mpr ⟨fun b hb => ?_, ih hl⟩
      rcases mem_insert.mp hb with rfl | hb
      · exact hle
      · exact hc b hb
    · rename_i hlt
      refine List.pairwise_cons.mpr ⟨fun b hb => ?_, List.pairwise_cons.mpr ⟨hc, hl⟩⟩
      rcases List.mem_cons.mp hb with rfl | hb
      · omega
      · have := hc b hb
        omega

end insert

/-- A change of an alarm that leaves its place and its next tick. -/
theorem Ordered.put (hs : s.Ordered) (hcurrent : v.current = (s.alarms a).current)
    (hnext : a ∈ s.queues .absolute ∨ a ∈ s.queues .relative →
      v.nextTick = (s.alarms a).nextTick) : (s.put a v).Ordered := by
  have hsame : ∀ q, ∀ b ∈ s.queues q,
      ((s.put a v).alarms b).nextTick = (s.alarms b).nextTick := by
    intro q b hb
    by_cases hba : b = a
    · subst hba
      rw [put_self]
      cases q with
      | absolute => exact hnext (.inl hb)
      | relative => exact hnext (.inr hb)
    · rw [put_of_ne s v hba]
  refine ⟨fun q => ?_, hs.nodup, fun b q => ?_⟩
  · refine (hs.sorted q).imp_of_mem fun hb hc hle => ?_
    rw [hsame q _ hb, hsame q _ hc]
    exact hle
  · rw [put_queues, hs.mem]
    by_cases hba : b = a
    · subst hba
      rw [put_self, hcurrent]
    · rw [put_of_ne s v hba]

/-- What a step on the alarm `a` leaves alone. -/
structure Frame (a : Id) (s s' : AlarmState Id) : Prop where
  alarms : ∀ b, b ≠ a → s'.alarms b = s.alarms b
  clock : s'.clock = s.clock

theorem Frame.refl (a : Id) (s : AlarmState Id) : Frame a s s :=
  ⟨fun _ _ => rfl, rfl⟩

theorem Frame.trans {s₁ s₂ s₃ : AlarmState Id} (h : Frame a s₁ s₂) (h' : Frame a s₂ s₃) :
    Frame a s₁ s₃ :=
  ⟨fun b hb => (h'.alarms b hb).trans (h.alarms b hb), h'.clock.trans h.clock⟩

theorem put_frame (s : AlarmState Id) (a : Id) (v : Alarm) : Frame a s (s.put a v) :=
  ⟨fun _ hb => put_of_ne s v hb, rfl⟩

/-- An alarm is taken out of its queue. -/
theorem Ordered.leave (hs : s.Ordered) (hv : v.current = none) {l : List Id}
    (hq : (s.alarms a).current = some q) (hl : l.Sublist (s.queues q))
    (hmem : ∀ b, b ∈ l ↔ b ≠ a ∧ b ∈ s.queues q) : ((s.setQueue q l).put a v).Ordered := by
  have hne : ∀ p, ∀ b ∈ (s.setQueue q l).queues p, b ≠ a ∧ b ∈ s.queues p := by
    intro p b hb
    by_cases hp : p = q
    · subst hp
      rw [setQueue_self] at hb
      exact (hmem b).mp hb
    · rw [setQueue_of_ne s l hp] at hb
      refine ⟨?_, hb⟩
      rintro rfl
      have := (hs.mem b p).mp hb
      rw [hq] at this
      exact hp (Option.some.inj this).symm
  have hsub : ∀ p, ((s.setQueue q l).queues p).Sublist (s.queues p) := by
    intro p
    by_cases hp : p = q
    · subst hp
      rw [setQueue_self]
      exact hl
    · rw [setQueue_of_ne s l hp]
  refine ⟨fun p => ?_, fun p => (hs.nodup p).sublist (hsub p), fun b p => ?_⟩
  · refine ((hs.sorted p).sublist (hsub p)).imp_of_mem fun hb hc hle => ?_
    rw [put_of_ne _ v (hne p _ hb).1, put_of_ne _ v (hne p _ hc).1]
    exact hle
  · rw [put_queues]
    by_cases hba : b = a
    · subst hba
      rw [put_self, hv]
      exact iff_of_false (fun h => (hne p b h).1 rfl) nofun
    · rw [put_of_ne _ v hba, setQueue_alarms, ← hs.mem]
      refine ⟨fun h => (hne p b h).2, fun h => ?_⟩
      by_cases hp : p = q
      · subst hp
        rw [setQueue_self]
        exact (hmem b).mpr ⟨hba, h⟩
      · rwa [setQueue_of_ne s l hp]

theorem cancel_spec (hs : s.Ordered) (a : Id) :
    (s.cancel a).Ordered ∧ Frame a s (s.cancel a) ∧
      (s.cancel a).alarms a = { s.alarms a with current := none, nextTick := 0 } := by
  generalize hv : ({ s.alarms a with current := none, nextTick := 0 } : Alarm) = v
  have hnone : v.current = none := by rw [← hv]
  cases hq : (s.alarms a).current with
  | none =>
    have hcancel : s.cancel a = s.put a v := by simp only [cancel, hq, hv]
    rw [hcancel]
    refine ⟨hs.put (hnone.trans hq.symm) fun h => ?_, put_frame s a v, put_self s a v⟩
    rcases h with h | h <;> rw [hs.mem, hq] at h <;> cases h
  | some q =>
    have hcancel : s.cancel a = (s.setQueue q ((s.queues q).erase a)).put a v := by
      simp only [cancel, hq, hv]
    rw [hcancel]
    refine ⟨hs.leave hnone hq List.erase_sublist fun b => ?_, ?_, put_self _ a v⟩
    · rw [(hs.nodup q).mem_erase_iff]
    · exact ⟨fun b hb => put_of_ne (s.setQueue q _) v hb, rfl⟩

theorem add_spec (hs : s.Ordered) (hnone : (s.alarms a).current = none)
    (hlive : (s.alarms a).enabled = true ∧ 0 < (s.alarms a).interval) (q : AlarmQueue) (now : Int) :
    (s.add q a now).Ordered ∧ Frame a s (s.add q a now) ∧
      (s.add q a now).alarms a =
        { s.alarms a with current := some q, nextTick := (s.alarms a).expiration now } := by
  have hout : ∀ p, a ∉ s.queues p := by
    intro p h
    rw [hs.mem, hnone] at h
    cases h
  unfold add
  dsimp only
  rw [if_neg (by rw [hlive.1]; have := hlive.2; simp; omega)]
  generalize hv : ({ s.alarms a with
    current := some q, nextTick := (s.alarms a).expiration now } : Alarm) = v
  have hcurrent : v.current = some q := by rw [← hv]
  have hkeep : ∀ p, ∀ b ∈ s.queues p, b ≠ a := by
    rintro p b hb rfl
    exact hout p hb
  have hsorted : ∀ p, (s.queues p).Pairwise fun b c =>
      ((s.put a v).alarms b).nextTick ≤ ((s.put a v).alarms c).nextTick := by
    intro p
    refine (hs.sorted p).imp_of_mem fun hb hc hle => ?_
    rw [put_of_ne s v (hkeep p _ hb), put_of_ne s v (hkeep p _ hc)]
    exact hle
  refine ⟨⟨fun p => ?_, fun p => ?_, fun b p => ?_⟩, ⟨fun b hb => put_of_ne s v hb, rfl⟩,
    put_self s a v⟩
  · by_cases hp : p = q
    · subst hp
      rw [setQueue_self]
      exact sorted_insert (hsorted p)
    · rw [setQueue_of_ne _ _ hp]
      exact hsorted p
  · by_cases hp : p = q
    · subst hp
      rw [setQueue_self]
      exact nodup_insert (hs.nodup p) (hout p)
    · rw [setQueue_of_ne _ _ hp]
      exact hs.nodup p
  · rw [setQueue_alarms]
    by_cases hba : b = a
    · subst hba
      rw [put_self, hcurrent]
      by_cases hp : p = q
      · subst hp
        rw [setQueue_self]
        exact iff_of_true (mem_insert.mpr (.inl rfl)) rfl
      · rw [setQueue_of_ne _ _ hp]
        exact iff_of_false (hout p) fun h => hp (Option.some.inj h).symm
    · rw [put_of_ne s v hba, ← hs.mem]
      by_cases hp : p = q
      · subst hp
        rw [setQueue_self, mem_insert]
        exact or_iff_right hba
      · rw [setQueue_of_ne _ _ hp]
        rfl

theorem add_dead (hdead : ¬ ((s.alarms a).enabled = true ∧ 0 < (s.alarms a).interval))
    (q : AlarmQueue) (now : Int) : s.add q a now = s := by
  unfold add
  refine if_pos ?_
  cases henabled : (s.alarms a).enabled with
  | false => exact .inl rfl
  | true => exact .inr (Int.le_of_not_gt fun h => hdead ⟨henabled, h⟩)

theorem add_valid (hs : s.Ordered) (hcurrent : (s.alarms a).current = none)
    (hnext : (s.alarms a).nextTick = 0) (hnow : 0 ≤ now)
    (hplace : q = .absolute ↔ 0 < (s.alarms a).start) :
    (s.add q a now).Ordered ∧ Frame a s (s.add q a now) ∧ ((s.add q a now).alarms a).Valid := by
  by_cases hlive : (s.alarms a).enabled = true ∧ 0 < (s.alarms a).interval
  · obtain ⟨hordered, hframe, ha⟩ := add_spec hs hcurrent hlive q now
    refine ⟨hordered, hframe, ?_⟩
    rw [ha]
    exact Alarm.Valid.queued hlive.1 hlive.2 hnow hplace (Int.le_of_eq hnext.symm)
  · rw [add_dead hlive]
    exact ⟨hs, Frame.refl a s, Alarm.valid_idle hcurrent hnext⟩

theorem set_valid (hs : s.Ordered) (hcurrent : (s.alarms a).current = none)
    (hnext : (s.alarms a).nextTick = 0) (hnow : 0 ≤ now) :
    (s.set a now).Ordered ∧ Frame a s (s.set a now) ∧ ((s.set a now).alarms a).Valid := by
  unfold set
  split
  · rename_i hstart
    exact add_valid hs hcurrent hnext hnow (iff_of_true rfl hstart)
  · rename_i hstart
    exact add_valid hs hcurrent hnext hnow (iff_of_false nofun hstart)

/-- An alarm is cancelled, changed and set again. -/
theorem rearm_valid (hs : s.Ordered) (hcurrent : v.current = none) (hnext : v.nextTick = 0)
    (hnow : 0 ≤ now) :
    (((s.cancel a).put a v).set a now).Ordered ∧ Frame a s (((s.cancel a).put a v).set a now) ∧
      ((((s.cancel a).put a v).set a now).alarms a).Valid := by
  obtain ⟨hordered, hframe, ha⟩ := cancel_spec hs a
  have hidle : ((s.cancel a).alarms a).current = none := by rw [ha]
  have hout : ∀ p, a ∉ (s.cancel a).queues p := by
    intro p h
    rw [hordered.mem, hidle] at h
    cases h
  have hput : ((s.cancel a).put a v).Ordered :=
    hordered.put (hcurrent.trans hidle.symm) fun h => (h.elim (hout _) (hout _)).elim
  have hself := put_self (s.cancel a) a v
  obtain ⟨hset, hframe', hvalid⟩ :=
    set_valid hput ((congrArg _ hself).trans hcurrent) ((congrArg _ hself).trans hnext) hnow
  exact ⟨hset, (hframe.trans (put_frame _ a v)).trans hframe', hvalid⟩

/-- A turn of the loop of `process` takes out an alarm that is due and comes first. A periodic one
    goes back into the queue behind the clock. -/
structure Taken (s : AlarmState Id) (q : AlarmQueue) (ticks now : Int) (a : Id)
    (s₁ : AlarmState Id) : Prop where
  mem : a ∈ s.queues q
  due : (s.alarms a).nextTick ≤ ticks
  ordered : s₁.Ordered
  frame : Frame a s s₁
  valid : (s₁.alarms a).Valid
  periodic : (s.alarms a).periodic = true →
    (s₁.alarms a).current = some q ∧ now < (s₁.alarms a).nextTick ∧
      (s₁.alarms a).nextTick ≤ now + (s.alarms a).interval ∧
      (s.alarms a).interval ∣ (s₁.alarms a).nextTick - (s.alarms a).nextTick
  oneShot : (s.alarms a).periodic = false → (s₁.alarms a).current = none

theorem take_first {ticks : Int} {s₁ : AlarmState Id} (h : s.take q ticks now = some (a, s₁)) :
    ∃ l, s.queues q = a :: l ∧ (s.alarms a).nextTick ≤ ticks ∧
      s₁ = if (s.alarms a).periodic ∧ 0 < (s.alarms a).interval then
          ((s.setQueue q l).put a { s.alarms a with current := none }).add q a now
        else (s.setQueue q l).put a { s.alarms a with current := none, nextTick := 0 } := by
  unfold take at h
  split at h
  · cases h
  · rename_i b l hl
    dsimp only at h
    split at h
    · cases h
    · rename_i hexpired
      obtain ⟨rfl, rfl⟩ := Prod.mk.inj (Option.some.inj h)
      refine ⟨l, hl, ?_, ?_⟩
      · simp [Alarm.isExpired] at hexpired
        omega
      · rw [put_self, put_put]

theorem lt_of_take_none (hs : s.Ordered) {ticks : Int} (h : s.take q ticks now = none)
    (ha : a ∈ s.queues q) : ticks < (s.alarms a).nextTick := by
  unfold take at h
  split at h
  · rename_i hl
    rw [hl] at ha
    cases ha
  · rename_i b l hl
    dsimp only at h
    split at h
    · rename_i hahead
      have hb : ticks < (s.alarms b).nextTick := by
        simp [Alarm.isExpired] at hahead
        omega
      have hsorted := hs.sorted q
      rw [hl] at hsorted ha
      rcases List.mem_cons.mp ha with rfl | ha
      · exact hb
      · exact Int.lt_of_lt_of_le hb ((List.pairwise_cons.mp hsorted).1 a ha)
    · cases h

theorem first_leave (hs : s.Ordered) {l : List Id} (hl : s.queues q = a :: l)
    (hv : v.current = none) : ((s.setQueue q l).put a v).Ordered := by
  have hmem : a ∈ s.queues q := by
    rw [hl]
    exact List.mem_cons_self
  have hnodup := hs.nodup q
  rw [hl] at hnodup
  refine hs.leave hv ((hs.mem a q).mp hmem) ?_ fun b => ?_
  · rw [hl]
    exact List.sublist_cons_self a l
  · rw [hl, List.mem_cons]
    refine ⟨fun hb => ⟨?_, .inr hb⟩, fun hb => hb.2.resolve_left hb.1⟩
    rintro rfl
    exact (List.nodup_cons.mp hnodup).1 hb

theorem leave_frame (s : AlarmState Id) (q : AlarmQueue) (l : List Id) (a : Id) (v : Alarm) :
    Frame a s ((s.setQueue q l).put a v) :=
  ⟨fun _ hb => put_of_ne (s.setQueue q l) v hb, rfl⟩

theorem take_spec (hs : s.Sound) {ticks : Int} {s₁ : AlarmState Id}
    (hclock : s.clock ≤ now) (hticks : ticks ≤ now) (h : s.take q ticks now = some (a, s₁)) :
    Taken s q ticks now a s₁ := by
  obtain ⟨l, hl, hdue, hs₁⟩ := take_first h
  have hmem : a ∈ s.queues q := by
    rw [hl]
    exact List.mem_cons_self
  have hcurrent := (hs.mem a q).mp hmem
  have hvalid := hs.valid a
  obtain ⟨henabled, hpos, hnext⟩ := hvalid.live q hcurrent
  by_cases hperiodic : (s.alarms a).periodic = true
  · rw [if_pos ⟨hperiodic, hpos⟩] at hs₁
    generalize hv : ({ s.alarms a with current := none } : Alarm) = v at hs₁
    have hself := put_self (s.setQueue q l) a v
    obtain ⟨hordered, hframe, ha⟩ := add_spec (first_leave (v := v) hs.toOrdered hl (by rw [← hv]))
      (by rw [hself, ← hv]) (by rw [hself, ← hv]; exact ⟨henabled, hpos⟩) q now
    rw [← hs₁] at hordered hframe ha
    have hrearmed : s₁.alarms a =
        { s.alarms a with current := some q, nextTick := (s.alarms a).expiration now } := by
      rw [ha, hself, ← hv]
      rfl
    obtain ⟨hepoch, hdvd⟩ : (s.alarms a).epoch now ≤ (s.alarms a).nextTick ∧ _ :=
      hvalid.epoch_spec hcurrent
    obtain ⟨hlater, hsoon⟩ : now < (s.alarms a).expiration now ∧ _ :=
      Alarm.expiration_periodic hpos hperiodic
    refine ⟨hmem, hdue, hordered, (leave_frame s q l a v).trans hframe, ?_, fun _ => ?_,
      fun hoff => ?_⟩
    · rw [hrearmed]
      exact Alarm.Valid.queued henabled hpos (Int.le_trans hs.clock hclock)
        (hvalid.place q hcurrent) (Int.le_of_lt hnext)
    · rw [hrearmed]
      refine ⟨rfl, hlater, hsoon (by omega), ?_⟩
      show (s.alarms a).interval ∣ (s.alarms a).expiration now - (s.alarms a).nextTick
      have hsplit : (s.alarms a).expiration now - (s.alarms a).nextTick =
          (s.alarms a).expiration now - (s.alarms a).epoch now +
            ((s.alarms a).epoch now - (s.alarms a).nextTick) := by omega
      rw [hsplit]
      exact Int.dvd_add (Alarm.dvd_expiration_sub now) hdvd
    · rw [hperiodic] at hoff
      cases hoff
  · rw [if_neg fun h => hperiodic h.1] at hs₁
    generalize hv : ({ s.alarms a with current := none, nextTick := 0 } : Alarm) = v at hs₁
    have hnone : v.current = none := by rw [← hv]
    have hzero : v.nextTick = 0 := by rw [← hv]
    have ha : s₁.alarms a = v := by rw [hs₁, put_self]
    refine ⟨hmem, hdue, ?_, ?_, ?_, fun hon => (hperiodic hon).elim, fun _ => ?_⟩
    · rw [hs₁]
      exact first_leave hs.toOrdered hl hnone
    · rw [hs₁]
      exact leave_frame s q l a v
    · rw [ha]
      exact Alarm.valid_idle hnone hzero
    · rw [ha]
      exact hnone

/-- A step keeps what holds, and is about one alarm. -/
theorem step_spec (hs : s.Sound) {call : AlarmCall Id} {s₁ : AlarmState Id}
    (hclock : s.clock ≤ now) (h : s.step now call = some (a, s₁)) :
    s₁.Ordered ∧ Frame a s s₁ ∧ (s₁.alarms a).Valid := by
  have hnow : 0 ≤ now := Int.le_trans hs.clock hclock
  have hcancel := cancel_spec hs.toOrdered
  cases call with
  | setPeriodic b periodic =>
    obtain ⟨rfl, rfl⟩ := Prod.mk.inj (Option.some.inj h)
    refine ⟨hs.toOrdered.put rfl fun _ => rfl, put_frame s b _, ?_⟩
    have hvalid := hs.valid b
    unfold setPeriodic
    rw [put_self]
    exact ⟨hvalid.idle, hvalid.live, hvalid.place, hvalid.phase⟩
  | setEnabled b enabled =>
    obtain ⟨rfl, rfl⟩ := Prod.mk.inj (Option.some.inj h)
    unfold setEnabled
    split
    · dsimp only
      rw [(hcancel b).2.2]
      exact rearm_valid hs.toOrdered rfl rfl hnow
    · have hput : (s.put b { s.alarms b with enabled := false }).Ordered :=
        hs.toOrdered.put rfl fun _ => rfl
      obtain ⟨hordered, hframe, hb⟩ := cancel_spec hput b
      refine ⟨hordered, (put_frame s b _).trans hframe, ?_⟩
      rw [hb]
      exact Alarm.valid_idle rfl rfl
  | setInterval b interval =>
    obtain ⟨rfl, rfl⟩ := Prod.mk.inj (Option.some.inj h)
    unfold setInterval
    split
    · dsimp only
      rw [(hcancel b).2.2]
      exact rearm_valid hs.toOrdered rfl rfl hnow
    · exact ⟨hs.toOrdered, Frame.refl b s, hs.valid b⟩
  | setStartTime b time =>
    obtain ⟨rfl, rfl⟩ := Prod.mk.inj (Option.some.inj h)
    unfold setStartTime
    dsimp only
    rw [(hcancel b).2.2]
    exact rearm_valid hs.toOrdered rfl rfl hnow
  | take q ticks =>
    simp only [step] at h
    split at h
    · rename_i hticks
      have htaken := take_spec hs hclock hticks h
      exact ⟨htaken.ordered, htaken.frame, htaken.valid⟩
    · cases h

/-- What a step leaves holds at the clock that it read. -/
theorem Sound.advance (hs : s.Sound) {s₁ : AlarmState Id} (hclock : s.clock ≤ now)
    (hordered : s₁.Ordered) (hframe : Frame a s s₁) (hvalid : (s₁.alarms a).Valid) :
    Sound { s₁ with clock := now } := by
  refine ⟨⟨hordered.sorted, hordered.nodup, hordered.mem⟩, fun b => ?_,
    Int.le_trans hs.clock hclock⟩
  by_cases hba : b = a
  · rw [hba]
    exact hvalid
  · show (s₁.alarms b).Valid
    rw [hframe.alarms b hba]
    exact hs.valid b

theorem Sound.step (hs : s.Sound) {call : AlarmCall Id} {s₁ : AlarmState Id}
    (hclock : s.clock ≤ now) (h : s.step now call = some (a, s₁)) :
    Sound { s₁ with clock := now } := by
  obtain ⟨hordered, hframe, hvalid⟩ := step_spec hs hclock h
  exact hs.advance hclock hordered hframe hvalid

theorem Fresh.sound (h : s.Fresh) : s.Sound := by
  obtain ⟨halarms, hqueues, hclock⟩ := h
  refine ⟨⟨fun q => ?_, fun q => ?_, fun b q => ?_⟩, fun b => ?_, hclock⟩
  · rw [hqueues]
    exact .nil
  · rw [hqueues]
    exact List.nodup_nil
  · rw [hqueues, halarms]
    exact iff_of_false List.not_mem_nil nofun
  · rw [halarms]
    exact Alarm.valid_idle rfl rfl

theorem reachable_sound (h : system.Reachable s) : s.Sound := by
  refine h.invariant Sound (fun _ => Fresh.sound) ?_
  rintro s ⟨now, call⟩ s' hs - ⟨hclock, a, s₁, hstep, rfl⟩
  exact hs.step hclock hstep

/-- Calls keep what holds, do not set the clock back, and leave the alarms that none of them is
    about. -/
theorem Calls.spec {as : List Id} {s' : AlarmState Id} (h : Calls s as s') (hs : s.Sound) :
    s'.Sound ∧ s.clock ≤ s'.clock ∧ ∀ b, b ∉ as → s'.alarms b = s.alarms b := by
  induction h with
  | nil => exact ⟨hs, Int.le_refl _, fun _ _ => rfl⟩
  | cons hclock hstep _ ih =>
    obtain ⟨hsound, hlater, hkeep⟩ := ih (hs.step hclock hstep)
    refine ⟨hsound, Int.le_trans hclock hlater, fun b hb => ?_⟩
    obtain ⟨hba, hb⟩ := List.ne_and_not_mem_of_not_mem_cons hb
    exact (hkeep b hb).trans ((step_spec hs hclock hstep).2.1.alarms b hba)

theorem Calls.append {as bs : List Id} {s₁ s₂ : AlarmState Id} (h : Calls s as s₁)
    (h' : Calls s₁ bs s₂) : Calls s (as ++ bs) s₂ := by
  induction h with
  | nil => exact h'
  | cons hclock hstep _ ih => exact .cons hclock hstep (ih h')

/-- A run of `process` is itself a sequence of calls, so that a callback may make one. -/
theorem Process.calls {ticks : Int} {fired : List (Id × Int × List Id)} {s' : AlarmState Id}
    (h : Process q ticks s fired s') (hticks : ticks ≤ s.clock) (hs : s.Sound) :
    Calls s (fired.flatMap fun f => f.1 :: f.2.2) s' := by
  induction h with
  | done => exact .nil
  | @fire s s₁ s₂ s₃ now a as fired hclock htake hcalls _ ih =>
    have hnow : ticks ≤ now := Int.le_trans hticks hclock
    have hstep : s.step now (.take q ticks) = some (a, s₁) := by
      rw [step, if_pos hnow]
      exact htake
    obtain ⟨hsound, hlater, -⟩ := hcalls.spec (hs.step hclock hstep)
    rw [List.flatMap_cons]
    exact (Calls.cons hclock hstep hcalls).append (ih (Int.le_trans hnow hlater) hsound)

/-- A run of `process` leaves an alarm alone whose tick has not come. -/
theorem Process.not_due {ticks : Int} {fired : List (Id × Int × List Id)} {s' : AlarmState Id}
    (h : Process q ticks s fired s') (hs : s.Sound) (hticks : ticks ≤ s.clock)
    (huntouched : ∀ f ∈ fired, a ∉ f.2.2)
    (hahead : a ∈ s.queues q → ticks < (s.alarms a).nextTick) :
    (fired.filter fun f => f.1 = a) = [] ∧ s'.alarms a = s.alarms a := by
  induction h with
  | done => exact ⟨rfl, rfl⟩
  | @fire s s₁ s₂ s₃ now b as fired hclock htake hcalls _ ih =>
    have hnow : ticks ≤ now := Int.le_trans hticks hclock
    have htaken := take_spec hs hclock hnow htake
    have hs₁ := hs.advance hclock htaken.ordered htaken.frame htaken.valid
    obtain ⟨hs₂, hlater, hkeep⟩ := hcalls.spec hs₁
    have hba : b ≠ a := by
      rintro rfl
      have := hahead htaken.mem
      have := htaken.due
      omega
    have hsame : s₂.alarms a = s.alarms a :=
      (hkeep a (huntouched _ List.mem_cons_self)).trans (htaken.frame.alarms a hba.symm)
    obtain ⟨hnone, hend⟩ := ih hs₂ (Int.le_trans hnow hlater)
      (fun f hf => huntouched f (List.mem_cons_of_mem _ hf)) fun hmem => by
        rw [hsame]
        refine hahead ((hs.mem a q).mpr ?_)
        rw [← hsame]
        exact (hs₂.mem a q).mp hmem
    refine ⟨?_, hend.trans hsame⟩
    rw [List.filter_cons_of_neg (by simpa using hba)]
    exact hnone

/-- What `process` has done with an alarm whose tick had come: fired once, at `now`, and set for its
    next tick if it is periodic. -/
def FiredOnce (s : AlarmState Id) (q : AlarmQueue) (fired : List (Id × Int × List Id))
    (s' : AlarmState Id) (a : Id) : Prop :=
  ∃ now as, s.clock ≤ now ∧ (fired.filter fun f => f.1 = a) = [(a, now, as)] ∧
    if (s.alarms a).periodic then
      a ∈ s'.queues q ∧ now < (s'.alarms a).nextTick ∧
        (s'.alarms a).nextTick ≤ now + (s.alarms a).interval ∧
        (s.alarms a).interval ∣ (s'.alarms a).nextTick - (s.alarms a).nextTick
    else ∀ p, a ∉ s'.queues p

theorem Process.sound {ticks : Int} {fired : List (Id × Int × List Id)} {s' : AlarmState Id}
    (h : Process q ticks s fired s') (hs : s.Sound) (hticks : ticks ≤ s.clock) : s'.Sound :=
  ((h.calls hticks hs).spec hs).1

/-- A run of `process` fires an alarm whose tick has come. -/
theorem Process.due {ticks : Int} {fired : List (Id × Int × List Id)} {s' : AlarmState Id}
    (h : Process q ticks s fired s') (hs : s.Sound) (hticks : ticks ≤ s.clock)
    (huntouched : ∀ f ∈ fired, a ∉ f.2.2) (hmem : a ∈ s.queues q)
    (hdue : (s.alarms a).nextTick ≤ ticks) : FiredOnce s q fired s' a := by
  induction h with
  | done hnone =>
    have := lt_of_take_none hs.toOrdered hnone hmem
    omega
  | @fire s s₁ s₂ s₃ now b as fired hclock htake hcalls hrest ih =>
    have hnow : ticks ≤ now := Int.le_trans hticks hclock
    have htaken := take_spec hs hclock hnow htake
    have hs₁ := hs.advance hclock htaken.ordered htaken.frame htaken.valid
    obtain ⟨hs₂, hlater, hkeep⟩ := hcalls.spec hs₁
    have hkept := hkeep a (huntouched _ List.mem_cons_self)
    have huntouched' : ∀ f ∈ fired, a ∉ f.2.2 :=
      fun f hf => huntouched f (List.mem_cons_of_mem _ hf)
    have hticks₂ : ticks ≤ s₂.clock := Int.le_trans hnow hlater
    by_cases hba : b = a
    · subst hba
      have hs₃ := hrest.sound hs₂ hticks₂
      obtain ⟨hnone, hend⟩ := hrest.not_due hs₂ hticks₂ huntouched' fun hmem₂ => by
        rw [hs₂.mem, hkept] at hmem₂
        rw [hkept]
        cases hperiodic : (s.alarms b).periodic with
        | true => exact Int.lt_of_le_of_lt hnow (htaken.periodic hperiodic).2.1
        | false =>
          have hidle := (htaken.oneShot hperiodic).symm.trans hmem₂
          cases hidle
      rw [hkept] at hend
      refine ⟨now, as, hclock, ?_, ?_⟩
      · rw [List.filter_cons_of_pos (by simp), hnone]
      · split
        · rename_i hperiodic
          rw [hs₃.mem, hend]
          exact htaken.periodic hperiodic
        · rename_i hperiodic
          intro p hp
          rw [hs₃.mem, hend, htaken.oneShot (Bool.eq_false_iff.mpr hperiodic)] at hp
          cases hp
    · have hsame : s₂.alarms a = s.alarms a :=
        hkept.trans (htaken.frame.alarms a (Ne.symm hba))
      have hmem₂ : a ∈ s₂.queues q := by
        rw [hs₂.mem, hsame]
        exact (hs.mem a q).mp hmem
      obtain ⟨at', as', hat, hfilter, hend⟩ :=
        ih hs₂ hticks₂ huntouched' hmem₂ (by rw [hsame]; exact hdue)
      refine ⟨at', as', Int.le_trans hclock (Int.le_trans hlater hat), ?_, ?_⟩
      · rw [List.filter_cons_of_neg (by simpa using hba)]
        exact hfilter
      · rwa [hsame] at hend

/-- The alarms of a queue whose tick has come. -/
def dueAlarms (s : AlarmState Id) (q : AlarmQueue) (ticks : Int) : List Id :=
  (s.queues q).filter fun a => (s.alarms a).nextTick ≤ ticks

theorem mem_dueAlarms {ticks : Int} :
    a ∈ s.dueAlarms q ticks ↔ a ∈ s.queues q ∧ (s.alarms a).nextTick ≤ ticks := by
  simp [dueAlarms]

/-- A turn of the loop leaves one alarm less that is due. -/
theorem Taken.due_lt {ticks : Int} {s₁ : AlarmState Id} (h : Taken s q ticks now a s₁)
    (hs : s.Ordered) (hticks : ticks ≤ now) :
    (s₁.dueAlarms q ticks).length < (s.dueAlarms q ticks).length := by
  have hout : a ∉ s₁.dueAlarms q ticks := by
    rw [mem_dueAlarms, h.ordered.mem]
    rintro ⟨hcurrent, hdue⟩
    cases hperiodic : (s.alarms a).periodic with
    | true =>
      have := (h.periodic hperiodic).2.1
      omega
    | false => cases (h.oneShot hperiodic).symm.trans hcurrent
  have hnodup : (a :: s₁.dueAlarms q ticks).Nodup :=
    List.nodup_cons.mpr ⟨hout, (h.ordered.nodup q).filter _⟩
  have hsubset : a :: s₁.dueAlarms q ticks ⊆ s.dueAlarms q ticks := by
    intro b hb
    rcases List.mem_cons.mp hb with rfl | hb
    · exact mem_dueAlarms.mpr ⟨h.mem, h.due⟩
    · have hba : b ≠ a := fun hba => hout (hba ▸ hb)
      rw [mem_dueAlarms, h.ordered.mem, h.frame.alarms b hba, ← hs.mem] at hb
      exact mem_dueAlarms.mpr hb
  exact (hnodup.subperm hsubset).length_le

/-- The loop of `process` ends when its callbacks leave the alarms alone. -/
theorem process_ends {ticks : Int} (hs : s.Sound) (hticks : ticks ≤ s.clock) :
    ∃ fired s', Process q ticks s fired s' ∧ ∀ f ∈ fired, f.2.2 = [] := by
  induction hn : (s.dueAlarms q ticks).length using Nat.strongRecOn generalizing s with
  | ind n ih =>
    cases htake : s.take q ticks s.clock with
    | none => exact ⟨[], s, .done htake, nofun⟩
    | some taken =>
      obtain ⟨a, s₁⟩ := taken
      have hclock := Int.le_refl s.clock
      have htaken := take_spec hs hclock hticks htake
      have hs₁ := hs.advance hclock htaken.ordered htaken.frame htaken.valid
      obtain ⟨fired, s', hprocess, hcalls⟩ := ih _
        (by rw [← hn]; exact htaken.due_lt hs.toOrdered hticks) hs₁ hticks rfl
      refine ⟨(a, s.clock, []) :: fired, s', .fire hclock htake .nil hprocess, fun f hf => ?_⟩
      rcases List.mem_cons.mp hf with rfl | hf
      · rfl
      · exact hcalls f hf

theorem Calls.reachable {as : List Id} {s' : AlarmState Id} (h : Calls s as s')
    (hs : system.Reachable s) : system.Reachable s' := by
  induction h with
  | nil => exact hs
  | @cons s s₁ s₂ now call a as hclock hstep _ ih =>
    exact ih (hs.next (l := (now, call)) trivial ⟨hclock, a, s₁, hstep, rfl⟩)

/-- In every state the queues are in order and hold live alarms only. A run of `process` ends when
    its callbacks leave the alarms alone; whatever they do, it fires every alarm once whose tick has
    come, and no other, but for those that a callback changes. A periodic alarm goes on from the
    reading of the clock at which it is put back. -/
theorem process_fires (s : AlarmState Id) (h : system.Reachable s) :
    s.Ordered ∧
      (∀ a q, a ∈ s.queues q → (s.alarms a).enabled = true ∧ 0 < (s.alarms a).interval) ∧
      ∀ q ticks, ticks ≤ s.clock →
        (∃ fired s', Process q ticks s fired s' ∧ ∀ f ∈ fired, f.2.2 = []) ∧
        ∀ fired s', Process q ticks s fired s' → system.Reachable s' ∧
          ∀ a, (∀ f ∈ fired, a ∉ f.2.2) →
            (a ∈ s.queues q → (s.alarms a).nextTick ≤ ticks → FiredOnce s q fired s' a) ∧
            ((a ∈ s.queues q → ticks < (s.alarms a).nextTick) →
              (fired.filter fun f => f.1 = a) = [] ∧ s'.alarms a = s.alarms a) := by
  have hs := reachable_sound h
  refine ⟨hs.toOrdered, fun a q ha => ?_, fun q ticks hticks => ⟨process_ends hs hticks, ?_⟩⟩
  · obtain ⟨henabled, hpos, -⟩ := (hs.valid a).live q ((hs.mem a q).mp ha)
    exact ⟨henabled, hpos⟩
  · intro fired s' hprocess
    refine ⟨(hprocess.calls hticks hs).reachable h, fun a huntouched => ⟨?_, ?_⟩⟩
    · exact hprocess.due hs hticks huntouched
    · exact hprocess.not_due hs hticks huntouched

/-- A periodic alarm of ten ticks, ten ticks after it was set. -/
def tenTicks : AlarmState Unit :=
  let s : AlarmState Unit := ⟨fun _ => {}, fun _ => [], 0⟩
  { (s.setInterval () 10 0).setPeriodic () true with clock := 10 }

theorem tenTicks_reachable : system.Reachable tenTicks := by
  have hfresh : system.Reachable (⟨fun _ => {}, fun _ => [], 0⟩ : AlarmState Unit) :=
    .start ⟨fun _ => rfl, fun _ => rfl, by decide⟩
  exact (hfresh.next (l := (0, .setInterval () 10)) trivial ⟨by decide, _, _, rfl, rfl⟩).next
    (l := (10, .setPeriodic () true)) trivial ⟨by decide, _, _, rfl, rfl⟩

/-- The alarm is put back when the clock reads 25, behind the tick that `process` was given and one
    interval. -/
theorem process_late :
    ∃ fired s', system.Reachable tenTicks ∧ tenTicks.clock = 10 ∧
      Process .relative 10 tenTicks fired s' ∧ (∀ f ∈ fired, f.2.2 = []) ∧
      (tenTicks.alarms ()).periodic = true ∧ () ∈ tenTicks.queues .relative ∧
      (tenTicks.alarms ()).nextTick ≤ 10 ∧
      10 + (tenTicks.alarms ()).interval < (s'.alarms ()).nextTick :=
  have hclock : tenTicks.clock ≤ 25 := by decide
  ⟨[((), 25, [])], _, tenTicks_reachable, rfl,
    .fire hclock rfl .nil (.done (show take _ .relative 10 25 = none from rfl)),
    by decide, rfl, by decide, by decide, by decide⟩

theorem process_fires_tenTicks :
    tenTicks.Ordered ∧ ∃ fired s', Process .relative 10 tenTicks fired s' ∧
      FiredOnce tenTicks .relative fired s' () := by
  obtain ⟨hordered, -, hprocess⟩ := process_fires tenTicks tenTicks_reachable
  obtain ⟨⟨fired, s', hrun, hcalls⟩, hall⟩ := hprocess .relative 10 (by decide)
  refine ⟨hordered, fired, s', hrun, ((hall fired s' hrun).2 () fun f hf => ?_).1 ?_ ?_⟩
  · rw [hcalls f hf]
    exact List.not_mem_nil
  · decide
  · decide

end AlarmState

end EsOs.Kernel
