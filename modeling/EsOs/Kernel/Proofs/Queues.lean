import Mathlib
import EsOs.Lib.Placement
import EsOs.Kernel.Sched

/-!
# The queues of threads

A thread is in the queue that its state, its priority and its rendezvous name, and in no other. The
routines take a thread out of its queue, change it, and put it to a queue again; `QueuedBut` is what
holds in between.
-/

namespace EsOs.Kernel

open EsOs.Lib

variable {T M : Type*}

/-- The queue that a thread belongs to: the run queue of its priority, or that of its rendezvous. -/
def ThreadRecord.place (v : ThreadRecord T M) : Option (Nat ⊕ Rendezvous T M) :=
  match v.state with
  | .runnable => some (.inl v.priority)
  | .waiting => v.rendezvous.map .inr
  | _ => none

/-- The priorities that `setPriority` accepts. -/
def InRange (priority : Nat) : Prop := lowest ≤ priority ∧ priority ≤ highest

namespace Core

/-- Where the threads belong. -/
def place (s : Core T M) (t : T) : Option (Nat ⊕ Rendezvous T M) := (s.thread t).place

/-- The run queues, and the queues of the rendezvous. -/
def queues (s : Core T M) : Nat ⊕ Rendezvous T M → List T := Sum.elim s.runQueue s.queue

/-- The queues hold each thread at `place`; the bits tell the run queues that are not empty; threads
    wait by priority. -/
structure Tables (s : Core T M) (place : T → Option (Nat ⊕ Rendezvous T M)) : Prop where
  placed : Placed s.queues place
  bits : ∀ p ≤ highest, s.runQueueBits.getLsbD (highest - p) = true ↔ s.runQueue p ≠ []
  sorted : ∀ r, (s.queue r).Pairwise fun t u => (s.thread u).priority ≤ (s.thread t).priority
  range : ∀ t, InRange (s.thread t).priority ∧ InRange (s.thread t).base

/-- Each thread is where it belongs. -/
structure Queued (s : Core T M) : Prop where
  tables : s.Tables s.place
  waits : ∀ t, (s.thread t).state = .waiting → (s.thread t).rendezvous.isSome
  runs : ∀ t, (s.thread t).state = .running → s.current = some t

variable {s s' : Core T M} {t u : T} {r : Rendezvous T M} {v : ThreadRecord T M}
  {place place' : T → Option (Nat ⊕ Rendezvous T M)}

/-! ## Places -/

theorem place_runnable (h : (s.thread t).state = .runnable) :
    s.place t = some (.inl (s.thread t).priority) := by
  rw [Core.place, ThreadRecord.place, h]

theorem place_waiting (h : (s.thread t).state = .waiting) (hr : (s.thread t).rendezvous = some r) :
    s.place t = some (.inr r) := by
  rw [Core.place, ThreadRecord.place, h, hr]
  rfl

theorem place_eq_none (hr : (s.thread t).state ≠ .runnable) (hw : (s.thread t).state ≠ .waiting) :
    s.place t = none := by
  unfold Core.place ThreadRecord.place
  split
  · exact absurd ‹_› hr
  · exact absurd ‹_› hw
  · rfl

theorem place_running (h : (s.thread t).state = .running) : s.place t = none :=
  place_eq_none (by rw [h]; decide) (by rw [h]; decide)

theorem place_eq_inl {p : Nat} :
    s.place t = some (.inl p) ↔ (s.thread t).state = .runnable ∧ (s.thread t).priority = p := by
  unfold Core.place ThreadRecord.place
  cases hs : (s.thread t).state <;> simp

theorem place_eq_inr : s.place t = some (.inr r) ↔
    (s.thread t).state = .waiting ∧ (s.thread t).rendezvous = some r := by
  unfold Core.place ThreadRecord.place
  cases hs : (s.thread t).state <;> simp

theorem Queued.mem_queue (h : s.Queued) : t ∈ s.queue r ↔
    (s.thread t).state = .waiting ∧ (s.thread t).rendezvous = some r := by
  rw [← place_eq_inr, ← h.tables.placed.mem_iff]
  rfl

theorem Queued.mem_runQueue (h : s.Queued) {p : Nat} : t ∈ s.runQueue p ↔
    (s.thread t).state = .runnable ∧ (s.thread t).priority = p := by
  rw [← place_eq_inl, ← h.tables.placed.mem_iff]
  rfl

/-! ## Moves between the queues -/

theorem Tables.congr (h : s.Tables place) (hthread : ∀ t, (s'.thread t).priority =
    (s.thread t).priority ∧ InRange (s'.thread t).base) (hqueue : s'.queue = s.queue)
    (hrun : s'.runQueue = s.runQueue) (hbits : s'.runQueueBits = s.runQueueBits) :
    s'.Tables place where
  placed := by
    rw [queues, hqueue, hrun]
    exact h.placed
  bits p hp := by
    rw [hbits, hrun]
    exact h.bits p hp
  sorted r := by
    rw [hqueue]
    exact (h.sorted r).imp fun hle => by rwa [(hthread _).1, (hthread _).1]
  range t := ⟨(hthread t).1 ▸ (h.range t).1, (hthread t).2⟩

/-- The bit of a run queue. -/
theorem getLsbD_bit {p q : Nat} (hp : p ≤ highest) (hq : q ≤ highest) :
    (0x80000000#32 >>> p).getLsbD (highest - q) = decide (p = q) := by
  rw [BitVec.getLsbD_ushiftRight, show 0x80000000#32 = BitVec.twoPow 32 31 by decide,
    BitVec.getLsbD_twoPow]
  unfold highest at *
  simp only [Nat.reduceLT, decide_true, Bool.true_and, decide_eq_decide]
  omega

variable [DecidableEq T]

theorem addPrio_perm (priority : T → Nat) (t : T) (l : List T) :
    (addPrio priority t l).Perm (t :: l) := by
  induction l with
  | nil => exact .refl _
  | cons u l ih =>
    rw [addPrio]
    split
    · exact .refl _
    · exact (ih.cons u).trans (.swap t u l)

theorem addPrio_sorted {priority : T → Nat} {l : List T} (t : T)
    (h : l.Pairwise fun t u => priority u ≤ priority t) :
    (addPrio priority t l).Pairwise fun t u => priority u ≤ priority t := by
  induction l with
  | nil => exact List.pairwise_singleton _ _
  | cons u l ih =>
    obtain ⟨hu, hl⟩ := List.pairwise_cons.mp h
    rw [addPrio]
    split
    · rename_i hlt
      refine List.pairwise_cons.mpr ⟨fun w hw => ?_, h⟩
      rcases List.mem_cons.mp hw with rfl | hw
      · exact hlt.le
      · exact (hu w hw).trans hlt.le
    · rename_i hnot
      refine List.pairwise_cons.mpr ⟨fun w hw => ?_, ih hl⟩
      rcases List.mem_cons.mp ((addPrio_perm priority t l).mem_iff.mp hw) with rfl | hw
      · exact Nat.le_of_not_lt hnot
      · exact hu w hw

@[simp] theorem put_thread_self : (s.put t v).thread t = v := Function.update_self ..

theorem put_thread_of_ne (h : u ≠ t) : (s.put t v).thread u = s.thread u :=
  Function.update_of_ne h ..

theorem put_place : (s.put t v).place = Function.update s.place t v.place := by
  funext u
  by_cases hu : u = t
  · subst hu
    rw [Core.place, put_thread_self, Function.update_self]
  · rw [Core.place, put_thread_of_ne hu, Function.update_of_ne hu, Core.place]

/-- A thread that is in no queue may change. -/
theorem Tables.put (h : s.Tables place) (ht : place t = none) (hp : InRange v.priority)
    (hb : InRange v.base) : (s.put t v).Tables place where
  placed := h.placed
  bits := h.bits
  sorted r := by
    refine (h.sorted r).imp_of_mem fun {a b} ha hb hle => ?_
    have hne (w : T) (hw : w ∈ s.queue r) : w ≠ t := fun heq =>
      h.placed.not_mem ht (.inr r) (heq ▸ hw)
    rw [put_thread_of_ne (hne a ha), put_thread_of_ne (hne b hb)]
    exact hle
  range u := by
    by_cases hu : u = t
    · subst hu
      rw [put_thread_self]
      exact ⟨hp, hb⟩
    · rw [put_thread_of_ne hu]
      exact h.range u

variable [DecidableEq M]

omit [DecidableEq M] in
theorem setRun_thread : (s.setRun t).thread =
    Function.update s.thread t { s.thread t with state := .runnable } :=
  rfl

theorem queues_setRun : (s.setRun t).queues = Function.update s.queues
    (.inl (s.thread t).priority) (s.runQueue (s.thread t).priority ++ [t]) := by
  rw [queues, queues, Sum.update_elim_inl]
  simp only [setRun, put_thread_self]
  rfl

/-- A thread becomes the last one of the run queue of its priority. -/
theorem Tables.setRun (h : s.Tables place) (ht : place t = none) :
    (s.setRun t).Tables (Function.update place t (some (.inl (s.thread t).priority))) where
  placed := by
    rw [queues_setRun]
    exact h.placed.insert ht (List.perm_append_singleton ..)
  bits p hp := by
    have hrange := (h.range t).1.2
    simp only [Core.setRun, put_thread_self]
    show (s.runQueueBits ||| _).getLsbD _ = true ↔ Function.update s.runQueue _ _ p ≠ []
    rw [BitVec.getLsbD_or, getLsbD_bit hrange hp, Bool.or_eq_true, h.bits p hp, decide_eq_true_iff]
    by_cases hpt : p = (s.thread t).priority
    · subst hpt
      simp
    · simp [hpt, Ne.symm hpt]
  sorted r := (h.put ht (v := { s.thread t with state := .runnable }) (h.range t).1
    (h.range t).2).sorted r
  range := (h.put ht (v := { s.thread t with state := .runnable }) (h.range t).1
    (h.range t).2).range

/-- A runnable thread leaves its run queue. -/
theorem Tables.unsetRun (h : s.Tables place) (ht : place t = some (.inl (s.thread t).priority)) :
    (s.unsetRun t).Tables (Function.update place t none) where
  placed := by
    have := h.placed.erase ht
    rwa [queues, Sum.update_elim_inl] at this
  bits p hp := by
    have hrange := (h.range t).1.2
    show (if _ then _ else _ : BitVec 32).getLsbD _ = true ↔ Function.update s.runQueue _ _ p ≠ []
    by_cases hpt : p = (s.thread t).priority
    · subst hpt
      have hmem : t ∈ s.runQueue (s.thread t).priority := (h.placed.mem_iff t _).mpr ht
      rw [Function.update_self]
      split
      · rename_i hnil
        rw [BitVec.getLsbD_and, BitVec.getLsbD_not, getLsbD_bit hp hp]
        simp [hnil]
      · rw [h.bits _ hp]
        exact iff_of_true (List.ne_nil_of_mem hmem) ‹_›
    · rw [Function.update_of_ne hpt, ← h.bits p hp]
      split
      · have hlt : highest - p < 32 := by
          unfold highest
          omega
        rw [BitVec.getLsbD_and, BitVec.getLsbD_not, getLsbD_bit hrange hp]
        simp [Ne.symm hpt, hlt]
      · rfl
  sorted := h.sorted
  range := h.range

theorem queues_setQueue {l : List T} :
    (s.setQueue r l).queues = Function.update s.queues (.inr r) l := by
  rw [queues, queues, Sum.update_elim_inr]
  rfl

theorem setQueue_queue_self {l : List T} : (s.setQueue r l).queue r = l :=
  Function.update_self ..

theorem setQueue_queue_of_ne {q : Rendezvous T M} {l : List T} (h : q ≠ r) :
    (s.setQueue r l).queue q = s.queue q :=
  Function.update_of_ne h ..

theorem Tables.setQueue {l : List T} (h : s.Tables place)
    (hplaced : Placed (Function.update s.queues (.inr r) l) place')
    (hsorted : l.Pairwise fun t u => (s.thread u).priority ≤ (s.thread t).priority) :
    (s.setQueue r l).Tables place' where
  placed := by
    rw [queues_setQueue]
    exact hplaced
  bits := h.bits
  sorted q := by
    by_cases hq : q = r
    · subst hq
      rw [setQueue_queue_self]
      exact hsorted
    · rw [setQueue_queue_of_ne hq]
      exact h.sorted q
  range := h.range

/-- A thread leaves the queue of a rendezvous. -/
theorem Tables.leave (h : s.Tables place) (ht : place t = some (.inr r)) :
    (s.setQueue r ((s.queue r).erase t)).Tables (Function.update place t none) :=
  h.setQueue (h.placed.erase ht) ((h.sorted r).sublist List.erase_sublist)

/-- A thread is put to the queue of a rendezvous. -/
theorem Tables.join (h : s.Tables place) (ht : place t = none) :
    (s.setQueue r (addPrio (fun u => (s.thread u).priority) t (s.queue r))).Tables
      (Function.update place t (some (.inr r))) :=
  h.setQueue (h.placed.insert ht (addPrio_perm ..)) (addPrio_sorted t (h.sorted r))

/-! ## A thread out of its queue -/

/-- Each thread but `t` is where it belongs, and `t` is in no queue. -/
structure QueuedBut (s : Core T M) (t : T) : Prop where
  tables : s.Tables (Function.update s.place t none)
  waits : ∀ u, u ≠ t → (s.thread u).state = .waiting → (s.thread u).rendezvous.isSome
  runs : ∀ u, u ≠ t → (s.thread u).state = .running → s.current = some u

omit [DecidableEq M] in
theorem Queued.but (h : s.Queued) (ht : s.place t = none) : s.QueuedBut t where
  tables := by
    rw [Function.update_eq_self_iff.mpr ht.symm]
    exact h.tables
  waits u _ := h.waits u
  runs u _ := h.runs u

theorem Queued.leave (h : s.Queued) (hw : (s.thread t).state = .waiting)
    (hr : (s.thread t).rendezvous = some r) :
    (s.setQueue r ((s.queue r).erase t)).QueuedBut t where
  tables := h.tables.leave (place_waiting hw hr)
  waits u _ := h.waits u
  runs u _ := h.runs u

theorem Queued.unsetRun (h : s.Queued) (hr : (s.thread t).state = .runnable) :
    (s.unsetRun t).QueuedBut t where
  tables := h.tables.unsetRun (place_runnable hr)
  waits u _ := h.waits u
  runs u _ := h.runs u

namespace QueuedBut

omit [DecidableEq M] in
/-- A thread that is out of its queue may change. -/
theorem put (h : s.QueuedBut t) (hp : InRange v.priority) (hb : InRange v.base) :
    (s.put t v).QueuedBut t where
  tables := by
    rw [put_place, Function.update_idem]
    exact h.tables.put (Function.update_self ..) hp hb
  waits u hu := by
    rw [put_thread_of_ne hu]
    exact h.waits u hu
  runs u hu := by
    rw [put_thread_of_ne hu]
    exact h.runs u hu

theorem setRun (h : s.QueuedBut t) : (s.setRun t).Queued where
  tables := by
    have hplace : (s.setRun t).place =
        Function.update s.place t (some (.inl (s.thread t).priority)) := put_place
    have htables := h.tables.setRun (Function.update_self ..)
    rw [Function.update_idem] at htables
    rwa [hplace]
  waits u := by
    rw [setRun_thread]
    by_cases hu : u = t
    · subst hu
      simp
    · rw [Function.update_of_ne hu]
      exact h.waits u hu
  runs u := by
    rw [setRun_thread]
    by_cases hu : u = t
    · subst hu
      simp
    · rw [Function.update_of_ne hu]
      exact h.runs u hu

omit [DecidableEq M] in
/-- A thread that belongs to no queue is back. -/
theorem rest (h : s.QueuedBut t) (hr : (s.thread t).state ≠ .runnable)
    (hw : (s.thread t).state ≠ .waiting) (hcur : (s.thread t).state = .running → s.current = some t) :
    s.Queued where
  tables := by
    have := h.tables
    rwa [Function.update_eq_self_iff.mpr (place_eq_none hr hw).symm] at this
  waits u hu := by
    by_cases hut : u = t
    · exact absurd (hut ▸ hu) hw
    · exact h.waits u hut hu
  runs u hu := by
    by_cases hut : u = t
    · subst hut
      exact hcur hu
    · exact h.runs u hut hu

end QueuedBut

/-- A thread waits at a rendezvous, behind those of its priority. -/
theorem QueuedBut.wait (h : s.QueuedBut t) (hw : (s.thread t).state = .waiting)
    (hr : (s.thread t).rendezvous = some r) :
    (s.setQueue r (addPrio (fun u => (s.thread u).priority) t (s.queue r))).Queued where
  tables := by
    have htables := h.tables.join (r := r) (Function.update_self ..)
    rw [Function.update_idem, Function.update_eq_self_iff.mpr (place_waiting hw hr).symm] at htables
    exact htables
  waits u hu := by
    by_cases hut : u = t
    · subst hut
      exact Option.isSome_iff_exists.mpr ⟨r, hr⟩
    · exact h.waits u hut hu
  runs u hu := by
    by_cases hut : u = t
    · subst hut
      rw [show (s.thread u).state = _ from hu] at hw
      cases hw
    · exact h.runs u hut hu

end Core

end EsOs.Kernel
