import EsOs.Kernel.Upcall
import Mathlib.Tactic.Common

/-!
# References across upcalls

While a proxy is in use exactly one reference of the server's object stands for it, and it goes back
with the last reference to the proxy, unless the system call that made the proxy drops that one or
the upcall that gives it back is not delivered.
-/

namespace EsOs.Kernel

variable {Obj Iid Proc : Type _}

namespace UpcallSlot

/-- Once nothing refers to the proxy any more, the object got a `release` for each `addRef`, and
    one for the reference that it was set with. -/
def Balanced (s : UpcallSlot Obj Iid Proc) : Prop :=
  s.proxy.ref = 0 → s.addRefs + (if s.used then 1 else 0) = s.releases

/-- The invariant of a slot. A proxy that is not in use is held by its system call alone; one in
    use stands for one reference of the object, or has a reference that nobody will drop because
    the `addRef` that made it threw. -/
structure Sound (s : UpcallSlot Obj Iid Proc) : Prop where
  held : (s.holders : Int) + (if s.handle then 1 else 0) ≤ s.proxy.ref
  balanced : s.Balanced
  unused : 0 < s.proxy.ref → s.proxy.use = 0 →
    s.proxy.ref = 1 ∧ s.addRefs = 0 ∧ s.releases = 0 ∧ s.used = false
  inUse : 0 < s.proxy.ref → s.proxy.use ≠ 0 →
    s.addRefs + (if s.used then 1 else 0) = s.releases + 1 ∨
      (s.holders : Int) + (if s.handle then 1 else 0) < s.proxy.ref

variable {s : UpcallSlot Obj Iid Proc}

theorem sound_empty : (empty : UpcallSlot Obj Iid Proc).Sound where
  held := by simp [empty, UpcallProxy.empty]
  balanced := by simp [Balanced, empty]
  unused h := by simp [empty, UpcallProxy.empty] at h
  inUse h := by simp [empty, UpcallProxy.empty] at h

theorem sound_opened {p : UpcallProxy Obj Iid Proc} {used : Bool} (href : p.ref = 1)
    (huse : p.use = if used then 1 else 0) : (opened p used).Sound := by
  cases used <;>
    constructor <;> simp_all [opened, Balanced]

/-- What `addRef` does to a proxy that is in use. -/
theorem addRef_inUse (h : s.proxy.use ≠ 0) (d : Delivery) :
    s.addRef d = { s with proxy := s.proxy.addRef, holders := s.holders + 1 } := by
  simp [addRef, Process.upcallAddRef, UpcallProxy.isUsed, UpcallProxy.addRef, h]

/-- What the first `addRef` does. -/
theorem addRef_first (h : s.proxy.use = 0) (d : Delivery) :
    s.addRef d = { s with
      proxy := { s.proxy.addRef with use := 1 }
      holders := if d = .served true then s.holders + 1 else s.holders
      addRefs := if (∃ ok, d = .served ok) then s.addRefs + 1 else s.addRefs } := by
  cases d with
  | noRecord => simp [addRef, Process.upcallAddRef, UpcallProxy.isUsed, UpcallProxy.addRef, h]
  | copyInFailed => simp [addRef, Process.upcallAddRef, UpcallProxy.isUsed, UpcallProxy.addRef, h]
  | served ok =>
    cases ok <;> simp [addRef, Process.upcallAddRef, UpcallProxy.isUsed, UpcallProxy.addRef, h]

theorem Sound.addRef (h : s.Sound) (hold : 0 < s.holders ∨ s.handle = true) (d : Delivery) :
    (s.addRef d).Sound := by
  have hheld := h.held
  have hpos : 0 < s.proxy.ref := by
    rcases hold with hold | hold
    · split at hheld <;> omega
    · rw [hold, if_pos rfl] at hheld
      omega
  by_cases huse : s.proxy.use = 0
  · obtain ⟨hone, ha, hr, hu⟩ := h.unused hpos huse
    have hhandle : s.handle = true ∧ s.holders = 0 ∨ s.handle = false ∧ s.holders ≤ 1 := by
      cases hh : s.handle <;> simp only [hh, Bool.false_eq_true, if_false, if_true] at hheld
      · exact .inr ⟨rfl, by omega⟩
      · exact .inl ⟨rfl, by omega⟩
    rw [addRef_first huse]
    refine ⟨?_, fun h0 => ?_, fun _ h0 => ?_, fun _ _ => ?_⟩
    · simp only [UpcallProxy.addRef]
      split <;> omega
    · simp only [UpcallProxy.addRef] at h0
      omega
    · simp at h0
    · simp only [UpcallProxy.addRef, ha, hr, hu]
      cases d with
      | noRecord => exact .inr (by simp; omega)
      | copyInFailed => exact .inr (by simp; omega)
      | served ok => exact .inl (by simp)
  · rw [addRef_inUse huse]
    refine ⟨?_, fun h0 => ?_, fun _ h0 => absurd h0 huse, fun _ _ => ?_⟩
    · simp only [UpcallProxy.addRef]
      omega
    · simp only [UpcallProxy.addRef] at h0
      omega
    · refine (h.inUse hpos huse).imp_right fun hlt => ?_
      simp only [UpcallProxy.addRef]
      omega

/-- A `release` that leaves other references, or of a proxy that is not in use. -/
theorem release_local (h : 1 < s.proxy.ref ∨ s.proxy.use = 0) (d : Delivery) :
    s.release d = { s with proxy := s.proxy.release, holders := s.holders - 1 } := by
  have hless : s.proxy.ref - 1 < s.proxy.ref := by omega
  simp [release, Process.upcallRelease, UpcallProxy.release, h, hless]

/-- The `release` of the last reference of a proxy in use. -/
theorem release_last (h : ¬(1 < s.proxy.ref ∨ s.proxy.use = 0)) (d : Delivery) :
    s.release d =
      if d = .noRecord then s
      else { s with
        proxy := s.proxy.release
        holders := s.holders - 1
        releases := if d = .copyInFailed then s.releases else s.releases + 1 } := by
  have hless : s.proxy.ref - 1 < s.proxy.ref := by omega
  unfold release Process.upcallRelease
  rw [if_neg h]
  cases d <;> simp [UpcallProxy.release, hless]

/-- The last reference is given back only when the upcall that gives it back is delivered. -/
def ReleaseMeets (s : UpcallSlot Obj Iid Proc) (d : Delivery) : Prop :=
  1 < s.proxy.ref ∨ s.proxy.use = 0 ∨ d ≠ .copyInFailed

/-- The handle of the system call is not the last reference of a proxy in use. -/
def EndMeets (s : UpcallSlot Obj Iid Proc) : Prop :=
  1 < s.proxy.ref ∨ s.proxy.use = 0

/-- The sole holder of a proxy in use stands for the reference of the object. -/
theorem Sound.last (h : s.Sound) (hlast : ¬(1 < s.proxy.ref ∨ s.proxy.use = 0))
    (hold : 0 < s.holders ∨ s.handle = true) :
    s.proxy.ref = 1 ∧ s.addRefs + (if s.used then 1 else 0) = s.releases + 1 ∧
      s.holders + (if s.handle then 1 else 0) = 1 := by
  have hheld := h.held
  obtain ⟨hle, huse⟩ := not_or.mp hlast
  have hone : 1 ≤ s.holders + (if s.handle then 1 else 0) := by
    rcases hold with hold | hold
    · omega
    · rw [hold, if_pos rfl]
      omega
  have hcast : (s.holders : Int) + (if s.handle then 1 else 0) =
      ((s.holders + (if s.handle then 1 else 0) : Nat) : Int) := by
    split <;> simp
  rw [hcast] at hheld
  refine ⟨by omega, (h.inUse (by omega) huse).resolve_right fun hlt => ?_, by omega⟩
  rw [hcast] at hlt
  omega

theorem Sound.release (h : s.Sound) (hold : 0 < s.holders) {d : Delivery}
    (hok : s.ReleaseMeets d) : (s.release d).Sound := by
  have hheld := h.held
  by_cases hlocal : 1 < s.proxy.ref ∨ s.proxy.use = 0
  · rw [release_local hlocal]
    have hpos : 0 < s.proxy.ref := by
      split at hheld <;> omega
    -- a proxy with one reference that is not in use has no holder but its system call
    have hmany : 1 < s.proxy.ref ∨ s.handle = false := by
      rcases hlocal with hmany | huse
      · exact .inl hmany
      · have := (h.unused hpos huse).1
        cases hh : s.handle
        · exact .inr rfl
        · rw [hh, if_pos rfl] at hheld
          omega
    refine ⟨?_, fun h0 => ?_, fun hp hu => ?_, fun hp hu => ?_⟩
    · simp only [UpcallProxy.release]
      split at hheld <;> split <;> simp_all <;> omega
    · simp only [UpcallProxy.release] at h0
      have huse := hlocal.resolve_left (by omega)
      obtain ⟨-, ha, hr, hu⟩ := h.unused hpos huse
      simp [ha, hr, hu]
    · simp only [UpcallProxy.release] at hp hu
      have := (h.unused hpos hu).1
      omega
    · simp only [UpcallProxy.release] at hp hu ⊢
      refine (h.inUse hpos hu).imp_right fun hlt => ?_
      split at hlt <;> split <;> simp_all <;> omega
  · rw [release_last hlocal]
    obtain ⟨hone, hbal, hsole⟩ := h.last hlocal (.inl hold)
    have hhandle : s.handle = false := by
      cases hh : s.handle
      · rfl
      · rw [hh, if_pos rfl] at hsole
        omega
    split
    · exact h
    · have hserved : d ≠ .copyInFailed := by
        rcases hok with hmany | huse | hserved
        · exact absurd (.inl hmany) hlocal
        · exact absurd (.inr huse) hlocal
        · exact hserved
      rw [hhandle, if_neg Bool.false_ne_true] at hsole
      refine ⟨?_, fun _ => ?_, fun hp _ => ?_, fun hp _ => ?_⟩
      · simp only [UpcallProxy.release, hone, hhandle]
        simp
        omega
      · simp only [if_neg hserved]
        exact hbal
      · simp [UpcallProxy.release, hone] at hp
      · simp [UpcallProxy.release, hone] at hp

theorem Sound.endCall (h : s.Sound) (hold : s.handle = true) (hok : s.EndMeets) :
    s.endCall.Sound := by
  have hheld := h.held
  rw [hold, if_pos rfl] at hheld
  have hpos : 0 < s.proxy.ref := by omega
  refine ⟨?_, fun h0 => ?_, fun hp hu => ?_, fun hp hu => ?_⟩
  · simp only [UpcallSlot.endCall, UpcallProxy.release]
    simp
    omega
  · simp only [UpcallSlot.endCall, UpcallProxy.release] at h0 ⊢
    obtain ⟨-, ha, hr, hu⟩ := h.unused hpos (hok.resolve_left (by omega))
    simp [ha, hr, hu]
  · simp only [UpcallSlot.endCall, UpcallProxy.release] at hp hu
    have := (h.unused hpos hu).1
    omega
  · simp only [UpcallSlot.endCall, UpcallProxy.release] at hp hu ⊢
    refine (h.inUse hpos hu).imp_right fun hlt => ?_
    rw [hold, if_pos rfl] at hlt
    simp
    omega

/-- A `release` that does not meet its condition leaves the calls unequal. -/
theorem Sound.release_unbalanced (h : s.Sound) (hold : 0 < s.holders) {d : Delivery}
    (hbad : ¬ s.ReleaseMeets d) : ¬ (s.release d).Balanced := by
  have hlocal : ¬(1 < s.proxy.ref ∨ s.proxy.use = 0) := fun hl =>
    hbad (hl.imp_right .inl)
  have hd : d = .copyInFailed := by
    cases d with
    | copyInFailed => rfl
    | noRecord => exact absurd (.inr (.inr nofun)) hbad
    | served ok => exact absurd (.inr (.inr nofun)) hbad
  obtain ⟨hone, hbal, -⟩ := h.last hlocal (.inl hold)
  rw [release_last hlocal, hd]
  intro hb
  have : s.addRefs + (if s.used then 1 else 0) = s.releases :=
    hb (by simp [UpcallProxy.release, hone])
  omega

/-- The end of a system call that does not meet its condition leaves the calls unequal. -/
theorem Sound.endCall_unbalanced (h : s.Sound) (hold : s.handle = true) (hbad : ¬ s.EndMeets) :
    ¬ s.endCall.Balanced := by
  obtain ⟨hone, hbal, -⟩ := h.last hbad (.inr hold)
  intro hb
  have : s.addRefs + (if s.used then 1 else 0) = s.releases :=
    hb (by simp [UpcallSlot.endCall, UpcallProxy.release, hone])
  omega

end UpcallSlot

namespace UpcallTable

variable {t t' : UpcallTable Obj Iid Proc}

/-- The condition of a step. -/
def Meets (t : UpcallTable Obj Iid Proc) : UpcallStep Obj Iid Proc → Prop
  | .release n d => (t n).ReleaseMeets d
  | .endCall n => (t n).EndMeets
  | _ => True

/-- Every slot keeps its invariant. -/
def Sound (t : UpcallTable Obj Iid Proc) : Prop :=
  ∀ n, (t n).Sound

theorem Sound.update (h : Sound t) {n : Nat} {s : UpcallSlot Obj Iid Proc} (hs : s.Sound) :
    Sound (Function.update t n s) := by
  intro m
  by_cases hm : m = n
  · rw [hm, Function.update_self]
    exact hs
  · rw [Function.update_of_ne hm]
    exact h m

theorem Sound.setIn (h : Sound t) (process : Proc) (object : Obj) (iid : Iid) (used : Bool)
    (ns : List Nat) : Sound (t.setIn process object iid used ns) := by
  induction ns with
  | nil => exact h
  | cons n ns ih =>
    unfold UpcallTable.setIn
    cases hp : (t n).proxy.set process object iid used with
    | none => exact ih
    | some p =>
      unfold UpcallProxy.set at hp
      split at hp
      · cases hp
      · rename_i href
        cases hp
        exact h.update (UpcallSlot.sound_opened (Decidable.not_not.mp href) rfl)

/-- A step that meets its condition keeps every slot sound; one that does not leaves a slot with
    unequal calls. -/
theorem Sound.step (h : Sound t) {l : UpcallStep Obj Iid Proc} (hstep : t.step l = some t') :
    (t.Meets l → Sound t') ∧ (¬ t.Meets l → ∃ n, ¬ (t' n).Balanced) := by
  cases l with
  | set process object iid used =>
    cases hstep
    exact ⟨fun _ => h.setIn process object iid used _, fun hno => absurd trivial hno⟩
  | addRef n d =>
    simp only [UpcallTable.step] at hstep
    split at hstep
    · rename_i hold
      cases hstep
      exact ⟨fun _ => h.update ((h n).addRef hold d), fun hno => absurd trivial hno⟩
    · cases hstep
  | release n d =>
    simp only [UpcallTable.step] at hstep
    split at hstep
    · rename_i hold
      cases hstep
      refine ⟨fun hok => h.update ((h n).release hold hok), fun hbad => ⟨n, ?_⟩⟩
      rw [Function.update_self]
      exact (h n).release_unbalanced hold hbad
    · cases hstep
  | endCall n =>
    simp only [UpcallTable.step] at hstep
    split at hstep
    · rename_i hold
      cases hstep
      refine ⟨fun hok => h.update ((h n).endCall hold hok), fun hbad => ⟨n, ?_⟩⟩
      rw [Function.update_self]
      exact (h n).endCall_unbalanced hold hbad
    · cases hstep

end UpcallTable

theorem upcall_sound {t : UpcallTable Obj Iid Proc}
    (hrun : (upcallSystem Obj Iid Proc).RunWith UpcallTable.Meets t) : t.Sound := by
  refine hrun.invariant UpcallTable.Sound (fun s hs n => ?_) fun s l s' hinv hok hstep => ?_
  · rw [show s = fun _ => .empty from hs]
    exact UpcallSlot.sound_empty
  · exact (hinv.step hstep).1 hok

theorem upcall_run_next {t u : UpcallTable Obj Iid Proc}
    (hrun : (upcallSystem Obj Iid Proc).RunWith UpcallTable.Meets t)
    (l : UpcallStep Obj Iid Proc) (hok : t.Meets l) (hstep : t.step l = some u) :
    (upcallSystem Obj Iid Proc).RunWith UpcallTable.Meets u :=
  hrun.next hok hstep

/-- In a run whose steps meet their condition, as often as a proxy is back to no reference its
    object got as many `release` as `addRef` calls, with the reference it was set with. A step
    from such a run keeps this exactly when it meets the condition. -/
theorem references_balanced {t : UpcallTable Obj Iid Proc}
    (hrun : (upcallSystem Obj Iid Proc).RunWith UpcallTable.Meets t) :
    (∀ n, (t n).Balanced) ∧
      ∀ l t', t.step l = some t' → ((∀ n, (t' n).Balanced) ↔ t.Meets l) := by
  have hsound := upcall_sound hrun
  refine ⟨fun n => (hsound n).balanced, fun l t' hstep => ⟨fun hbal => ?_, fun hok n => ?_⟩⟩
  · refine Classical.byContradiction fun hbad => ?_
    obtain ⟨n, hn⟩ := (hsound.step hstep).2 hbad
    exact hn (hbal n)
  · exact ((hsound.step hstep).1 hok n).balanced

/-- A system call passes an object of its process to a method that keeps a reference. -/
def keptObject : List (UpcallStep Nat String Nat) :=
  [.set 7 1 "es::Stream" false, .addRef 0 (.served true)]

/-- The table after the steps given. -/
def upcallRun (steps : List (UpcallStep Nat String Nat)) : UpcallTable Nat String Nat :=
  (steps.foldlM UpcallTable.step (fun _ => .empty)).getD fun _ => .empty

/-- The system call ends first, the holder releases last: the object gets both calls. -/
theorem references_balanced_kept :
    ∃ t, (upcallSystem Nat String Nat).RunWith UpcallTable.Meets t ∧ (t 0).proxy.ref = 0 ∧
      (t 0).releases = 1 ∧ (∀ n, (t n).Balanced) := by
  have h0 : (upcallSystem Nat String Nat).RunWith UpcallTable.Meets fun _ => .empty := .start rfl
  have h1 := upcall_run_next (u := upcallRun (keptObject.take 1)) h0
    (.set 7 1 "es::Stream" false) trivial rfl
  have h2 := upcall_run_next (u := upcallRun keptObject) h1 (.addRef 0 (.served true)) trivial rfl
  have h3 := upcall_run_next (u := upcallRun (keptObject ++ [.endCall 0])) h2 (.endCall 0)
    (.inl (by decide)) rfl
  have h4 := upcall_run_next
    (u := upcallRun (keptObject ++ [.endCall 0, .release 0 (.served true)])) h3
    (.release 0 (.served true)) (.inr (.inr (by decide))) rfl
  exact ⟨_, h4, rfl, rfl, (references_balanced h4).1⟩

/-- The holder releases first, the system call ends last: the object got an `addRef` and no
    `release`. -/
theorem references_unbalanced_kept :
    (upcallSystem Nat String Nat).Reachable
        (upcallRun (keptObject ++ [.release 0 (.served true), .endCall 0])) ∧
      (upcallRun (keptObject ++ [.release 0 (.served true), .endCall 0]) 0).proxy.ref = 0 ∧
      (upcallRun (keptObject ++ [.release 0 (.served true), .endCall 0]) 0).addRefs = 1 ∧
      (upcallRun (keptObject ++ [.release 0 (.served true), .endCall 0]) 0).releases = 0 ∧
      (upcallRun (keptObject ++ [.release 0 (.served true), .endCall 0]) 0).used = false := by
  refine ⟨?_, rfl, rfl, rfl, rfl⟩
  have hsteps : List.foldlM UpcallTable.step (fun _ => .empty)
      (keptObject ++ [.release 0 (.served true), .endCall 0]) =
        some (upcallRun (keptObject ++ [.release 0 (.served true), .endCall 0])) := rfl
  exact Lib.System.reachable_of_foldlM (.start rfl) hsteps

end EsOs.Kernel
