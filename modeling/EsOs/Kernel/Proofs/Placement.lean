import Mathlib
import EsOs.Kernel.Proofs.Queues

/-!
# The queues in all runs

What each routine does to the queues, up to one step of the core.
-/

namespace EsOs.Kernel

open EsOs.Lib

namespace Core

variable {T M : Type*} [DecidableEq T] [DecidableEq M] {s s' : Core T M} {t u c : T} {m : M}
  {r : Rendezvous T M} {v : ThreadRecord T M} {fuel p : Nat}

/-! ## Changes that leave the queues -/

/-- What the queues depend on is the same. -/
theorem Queued.congr (h : s.Queued) (hthread : ∀ t, (s'.thread t).state = (s.thread t).state ∧
      (s'.thread t).priority = (s.thread t).priority ∧
      (s'.thread t).rendezvous = (s.thread t).rendezvous ∧ InRange (s'.thread t).base)
    (hqueue : s'.queue = s.queue) (hrun : s'.runQueue = s.runQueue)
    (hbits : s'.runQueueBits = s.runQueueBits)
    (hruns : ∀ t, (s'.thread t).state = .running → s'.current = some t) : s'.Queued where
  tables := by
    have hplace : s'.place = s.place := by
      funext t
      obtain ⟨hstate, hprio, hrend, -⟩ := hthread t
      rw [Core.place, Core.place, ThreadRecord.place, ThreadRecord.place, hstate, hprio, hrend]
    rw [hplace]
    exact h.tables.congr (fun t => ⟨(hthread t).2.1, (hthread t).2.2.2⟩) hqueue hrun hbits
  waits t ht := by
    obtain ⟨hstate, -, hrend, -⟩ := hthread t
    rw [hrend]
    exact h.waits t (hstate ▸ ht)
  runs := hruns

/-- A thread changes, but not its state, its priority and its rendezvous. -/
theorem Queued.put_same (h : s.Queued) (hstate : v.state = (s.thread t).state)
    (hprio : v.priority = (s.thread t).priority) (hrend : v.rendezvous = (s.thread t).rendezvous)
    (hbase : InRange v.base) : (s.put t v).Queued := by
  have hthread (u : T) : ((s.put t v).thread u).state = (s.thread u).state ∧
      ((s.put t v).thread u).priority = (s.thread u).priority ∧
      ((s.put t v).thread u).rendezvous = (s.thread u).rendezvous ∧
      InRange ((s.put t v).thread u).base := by
    by_cases hu : u = t
    · subst hu
      rw [put_thread_self]
      exact ⟨hstate, hprio, hrend, hbase⟩
    · rw [put_thread_of_ne hu]
      exact ⟨rfl, rfl, rfl, (h.tables.range u).2⟩
  exact h.congr hthread rfl rfl rfl fun u hu => h.runs u ((hthread u).1 ▸ hu)

theorem Queued.putMonitor (h : s.Queued) (w : MonitorRecord T) : (s.putMonitor m w).Queued :=
  h.congr (fun u => ⟨rfl, rfl, rfl, (h.tables.range u).2⟩) rfl rfl rfl h.runs

theorem Queued.idle (h : s.Queued) (hidle : ∀ t, (s.thread t).state ≠ .running) :
    Queued { s with current := none } :=
  h.congr (fun u => ⟨rfl, rfl, rfl, (h.tables.range u).2⟩) rfl rfl rfl fun u hu =>
    absurd hu (hidle u)

/-! ## Rendezvous -/

/-- The current thread waits. -/
theorem Queued.enqueue (h : s.Queued) (ht : (s.thread t).state = .running) (call : Call T M) :
    (s.enqueue r t call).Queued := by
  have hbut := (h.but (place_running ht)).put (h.tables.range t).1 (h.tables.range t).2
    (v := { s.thread t with state := .waiting, rendezvous := some r, call := call })
  have hqueued := hbut.wait (r := r) (by rw [put_thread_self]) (by rw [put_thread_self])
  have hidle (u : T) : ((s.put t { s.thread t with
      state := .waiting, rendezvous := some r, call := call }).thread u).state ≠ .running := by
    by_cases hu : u = t
    · subst hu
      rw [put_thread_self]
      simp
    · rw [put_thread_of_ne hu]
      intro hrun
      exact hu (Option.some.inj ((h.runs u hrun).symm.trans (h.runs t ht)))
  have hprio : (fun u => ((s.put t { s.thread t with
      state := .waiting, rendezvous := some r, call := call }).thread u).priority) =
      fun u => (s.thread u).priority := by
    funext u
    by_cases hu : u = t
    · subst hu
      rw [put_thread_self]
    · rw [put_thread_of_ne hu]
  have hidle := hqueued.idle hidle
  rw [hprio] at hidle
  exact hidle

theorem wake_thread : (s.wake r t).thread = Function.update s.thread t
    { s.thread t with state := .runnable, rendezvous := none } := by
  rw [wake, setRun_thread, put_thread_self]
  exact Function.update_idem ..

theorem Queued.wake (h : s.Queued) (hw : (s.thread t).state = .waiting)
    (hr : (s.thread t).rendezvous = some r) : (s.wake r t).Queued :=
  ((h.leave hw hr).put (v := { s.thread t with rendezvous := none }) (h.tables.range t).1
    (h.tables.range t).2).setRun

/-- All threads at a rendezvous are runnable, and nothing else has changed. -/
structure Woken (s : Core T M) (r : Rendezvous T M) (s' : Core T M) : Prop where
  queued : s'.Queued
  queue : s'.queue = Function.update s.queue r []
  thread : ∀ t, s'.thread t =
    if t ∈ s.queue r then { s.thread t with state := .runnable, rendezvous := none } else s.thread t
  monitor : s'.monitor = s.monitor
  current : s'.current = s.current

theorem Queued.foldl_wake (l : List T) : ∀ {s : Core T M}, s.Queued → s.queue r = l →
    s.Woken r (l.foldl (fun s t => s.wake r t) s) := by
  induction l with
  | nil =>
    intro s h hl
    exact ⟨h, (Function.update_eq_self_iff.mpr hl.symm).symm, fun t => by simp [hl], rfl, rfl⟩
  | cons t l ih =>
    intro s h hl
    have hnodup := h.tables.placed.nodup (.inr r)
    rw [show s.queues (.inr r) = _ from hl, List.nodup_cons] at hnodup
    obtain ⟨hw, hr⟩ := h.mem_queue.mp (hl ▸ List.mem_cons_self : t ∈ s.queue r)
    have hqueue : (s.wake r t).queue = Function.update s.queue r l := by
      show Function.update s.queue r ((s.queue r).erase t) = _
      rw [hl, List.erase_cons_head]
    have hrest := ih (h.wake hw hr) (by rw [hqueue, Function.update_self])
    refine ⟨hrest.queued, ?_, fun u => ?_, hrest.monitor, hrest.current⟩
    · rw [List.foldl_cons, hrest.queue, hqueue, Function.update_idem]
    · rw [List.foldl_cons, hrest.thread, hqueue, Function.update_self, wake_thread, hl]
      by_cases hu : u = t
      · subst hu
        simp [hnodup.1]
      · simp [hu]

/-- What `wakeup` does. -/
theorem Queued.woken (h : s.Queued) (r : Rendezvous T M) : s.Woken r (s.wakeup r) :=
  h.foldl_wake _ rfl

/-- A thread that does not wait goes on as it was. -/
theorem Woken.thread_of_ne (h : s.Woken r s') (hs : s.Queued) (ht : (s.thread t).state ≠ .waiting) :
    s'.thread t = s.thread t := by
  rw [h.thread, if_neg fun hmem => ht (hs.mem_queue.mp hmem).1]

/-! ## Priorities -/

/-- Nothing has changed but priorities, and with them the order of the queues. -/
structure Reprioritized (s s' : Core T M) : Prop where
  thread : ∀ t, s'.thread t = { s.thread t with priority := (s'.thread t).priority }
  monitor : s'.monitor = s.monitor
  current : s'.current = s.current
  queue : ∀ r, (s'.queue r).Perm (s.queue r)

omit [DecidableEq T] [DecidableEq M] in
theorem Reprioritized.refl (s : Core T M) : s.Reprioritized s :=
  ⟨fun _ => rfl, rfl, rfl, fun _ => .refl _⟩

omit [DecidableEq T] [DecidableEq M] in
theorem Reprioritized.trans {s'' : Core T M} (h : s.Reprioritized s') (h' : s'.Reprioritized s'') :
    s.Reprioritized s'' where
  thread t := by rw [h'.thread, h.thread]
  monitor := h'.monitor.trans h.monitor
  current := h'.current.trans h.current
  queue r := (h'.queue r).trans (h.queue r)

omit [DecidableEq T] [DecidableEq M] in
theorem Reprioritized.state (h : s.Reprioritized s') (t : T) :
    (s'.thread t).state = (s.thread t).state := by
  rw [h.thread]

/-- The priority of a thread has changed. -/
structure Changed (s : Core T M) (t : T) (p : Nat) (s' : Core T M) : Prop where
  queued : s'.Queued
  thread : s'.thread = Function.update s.thread t { s.thread t with priority := p }
  monitor : s'.monitor = s.monitor
  current : s'.current = s.current
  queue : ∀ r, (s'.queue r).Perm (s.queue r)

omit [DecidableEq M] in
theorem Changed.reprioritized (h : s.Changed t p s') : s.Reprioritized s' where
  thread u := by
    rw [h.thread]
    by_cases hu : u = t
    · subst hu
      rw [Function.update_self]
    · rw [Function.update_of_ne hu]
  monitor := h.monitor
  current := h.current
  queue := h.queue

theorem update_eq (hr : (s.thread t).rendezvous = some r) :
    s.update r t p = (((s.setQueue r ((s.queue r).erase t)).put t
      { s.thread t with priority := p }).setQueue r (addPrio
        (fun u => (((s.setQueue r ((s.queue r).erase t)).put t
          { s.thread t with priority := p }).thread u).priority) t
        (((s.setQueue r ((s.queue r).erase t)).put t { s.thread t with priority := p }).queue r))) := by
  rw [update, if_pos hr]
  have hqueue : ((s.setQueue r ((s.queue r).erase t)).put t
      { s.thread t with priority := p }).queue r = (s.queue r).erase t := setQueue_queue_self
  rw [hqueue]
  simp only [setQueue, put, Function.update_idem]

/-- What `setEffectivePriority` does to a thread that has been started and has not ended. -/
theorem Queued.changed (h : s.Queued) (hp : InRange p) (hn : (s.thread t).state ≠ .new)
    (he : (s.thread t).state ≠ .terminated) : s.Changed t p (s.setEffectivePriority t p).1 := by
  unfold setEffectivePriority
  split
  · rename_i hstate
    have hbut := (h.unsetRun hstate).put (v := { (s.unsetRun t).thread t with priority := p }) hp
      (h.tables.range t).2
    refine ⟨hbut.setRun, ?_, rfl, rfl, fun _ => .refl _⟩
    rw [setRun_thread, put_thread_self]
    refine (Function.update_idem ..).trans (congrArg (Function.update s.thread t) ?_)
    show ({ s.thread t with state := .runnable, priority := p } : ThreadRecord T M) = _
    rw [← hstate]
  · rename_i hstate
    obtain ⟨r, hr⟩ := Option.isSome_iff_exists.mp (h.waits t hstate)
    have hbut := (h.leave hstate hr).put (v := { s.thread t with priority := p }) hp
      (h.tables.range t).2
    have hqueued := hbut.wait (r := r) (by rw [put_thread_self]; exact hstate)
      (by rw [put_thread_self]; exact hr)
    rw [hr]
    simp only
    rw [update_eq hr]
    refine ⟨hqueued, rfl, rfl, rfl, fun q => ?_⟩
    by_cases hq : q = r
    · subst hq
      rw [setQueue_queue_self]
      refine (addPrio_perm ..).trans ?_
      show (t :: Function.update s.queue q _ q).Perm _
      rw [Function.update_self]
      exact (List.perm_cons_erase (h.mem_queue.mpr ⟨hstate, hr⟩)).symm
    · rw [setQueue_queue_of_ne hq]
      exact .of_eq (setQueue_queue_of_ne hq)
  · rename_i hstate
    have hqueued := ((h.but (place_running hstate)).put (v := { s.thread t with priority := p }) hp
      (h.tables.range t).2).rest (by rw [put_thread_self, hstate]; decide)
      (by rw [put_thread_self, hstate]; decide) fun _ => h.runs t hstate
    exact ⟨hqueued.congr (fun u => ⟨rfl, rfl, rfl, (hqueued.tables.range u).2⟩) rfl rfl rfl
      hqueued.runs, rfl, rfl, rfl, fun _ => .refl _⟩
  · rename_i hr hw hrun
    cases hs : (s.thread t).state <;> simp_all

theorem setEffectivePriority_eq_self
    (hs : (s.thread t).state = .new ∨ (s.thread t).state = .terminated) :
    s.setEffectivePriority t p = (s, none) := by
  unfold setEffectivePriority
  rcases hs with hs | hs <;> rw [hs]

theorem Queued.setEffectivePriority (h : s.Queued) (hp : InRange p) :
    (s.setEffectivePriority t p).1.Queued ∧ s.Reprioritized (s.setEffectivePriority t p).1 := by
  by_cases hs : (s.thread t).state = .new ∨ (s.thread t).state = .terminated
  · rw [setEffectivePriority_eq_self hs]
    exact ⟨h, .refl s⟩
  · rw [not_or] at hs
    have hchanged := h.changed hp hs.1 hs.2
    exact ⟨hchanged.queued, hchanged.reprioritized⟩

theorem Queued.getPriority_inRange (h : s.Queued) (r : Rendezvous T M) :
    InRange (s.getPriority r) := by
  unfold getPriority
  split
  · exact ⟨Nat.le_refl _, by decide⟩
  · exact (h.tables.range _).1

theorem inRange_max {p q : Nat} (hp : InRange p) (hq : InRange q) : InRange (max p q) :=
  ⟨hp.1.trans (Nat.le_max_left ..), Nat.max_le.mpr ⟨hp.2, hq.2⟩⟩

theorem Queued.effective_inRange (h : s.Queued) (t : T) : InRange (s.effective t) := by
  unfold effective
  have hbase := (h.tables.range t).2
  generalize (s.thread t).base = p at hbase
  induction (s.thread t).monitorList generalizing p with
  | nil => exact hbase
  | cons m l ih => exact ih _ (inRange_max hbase (h.getPriority_inRange _))

theorem Queued.resetPriority (h : s.Queued) :
    (s.resetPriority t).1.Queued ∧ s.Reprioritized (s.resetPriority t).1 := by
  unfold Core.resetPriority
  split
  · exact h.setEffectivePriority (h.effective_inRange t)
  · exact ⟨h, .refl s⟩

theorem Queued.updatePriority (h : s.Queued) (he : updatePriority fuel s t = some s') :
    s'.Queued ∧ s.Reprioritized s' := by
  induction fuel generalizing s t with
  | zero => cases he
  | succ fuel ih =>
    have hreset := h.resetPriority (t := t)
    unfold Core.updatePriority at he
    split at he
    · rename_i hnext
      rw [hnext] at hreset
      have hrest := ih hreset.1 he
      exact ⟨hrest.1, hreset.2.trans hrest.2⟩
    · rename_i hnext
      rw [hnext] at hreset
      cases he
      exact hreset

theorem Queued.updateMonitor (h : s.Queued) (he : updateMonitor fuel s m = some s') :
    s'.Queued ∧ s.Reprioritized s' := by
  unfold Core.updateMonitor at he
  split at he
  · exact h.updatePriority he
  · cases he
    exact ⟨h, .refl s⟩

end Core

end EsOs.Kernel
