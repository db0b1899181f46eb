/-!
# Transition systems and their runs

A system starts in one of its initial states and moves by labelled steps. `RunWith ok` collects
the states of those runs whose every step meets the condition `ok` on the state before it and its
label; `Reachable` puts no condition. An invariant of all such states is proved once, from its
initial and its step case.
-/

namespace EsOs.Lib

/-- A labelled transition system over an arbitrary state type. -/
structure System (State : Type _) (Label : Type _) where
  init : State → Prop
  step : State → Label → State → Prop

namespace System

variable {State Label : Type _} {M : System State Label}

/-- The states of the runs of `M` all of whose steps meet `ok`. -/
inductive RunWith (M : System State Label) (ok : State → Label → Prop) : State → Prop
  | start {s : State} : M.init s → RunWith M ok s
  | next {s s' : State} {l : Label} :
      RunWith M ok s → ok s l → M.step s l s' → RunWith M ok s'

/-- The states of all the runs of `M`. -/
abbrev Reachable (M : System State Label) : State → Prop :=
  RunWith M fun _ _ => True

/-- What holds initially and is kept by every step that meets `ok` holds along every run whose
    steps meet `ok`. -/
theorem RunWith.invariant {ok : State → Label → Prop} (Inv : State → Prop)
    (hinit : ∀ s, M.init s → Inv s)
    (hstep : ∀ s l s', Inv s → ok s l → M.step s l s' → Inv s')
    {s : State} (hrun : RunWith M ok s) : Inv s := by
  induction hrun with
  | start h => exact hinit _ h
  | next _ hok hs ih => exact hstep _ _ _ ih hok hs

/-- A run under a stronger condition is a run under a weaker one. -/
theorem RunWith.mono {ok ok' : State → Label → Prop} (h : ∀ s l, ok s l → ok' s l)
    {s : State} (hrun : RunWith M ok s) : RunWith M ok' s := by
  induction hrun with
  | start hs => exact .start hs
  | next _ hok hs ih => exact .next ih (h _ _ hok) hs

theorem RunWith.reachable {ok : State → Label → Prop} {s : State} (hrun : RunWith M ok s) :
    M.Reachable s :=
  hrun.mono fun _ _ _ => trivial

end System

/-- The system of a partial step function: a step is a label the function accepts. -/
def System.ofStep {State Label : Type _} (init : State → Prop)
    (step : State → Label → Option State) : System State Label where
  init := init
  step s l s' := step s l = some s'

/-- A sequence of labels that the function accepts leads to a reachable state. -/
theorem System.reachable_of_foldlM {State Label : Type _} {init : State → Prop}
    {step : State → Label → Option State} {s s' : State} {labels : List Label}
    (hs : (System.ofStep init step).Reachable s) (h : labels.foldlM step s = some s') :
    (System.ofStep init step).Reachable s' := by
  induction labels generalizing s with
  | nil =>
    cases h
    exact hs
  | cons l labels ih =>
    rw [List.foldlM_cons, Option.bind_eq_bind, Option.bind_eq_some_iff] at h
    obtain ⟨mid, hstep, hrest⟩ := h
    exact ih (hs.next trivial hstep) hrest

/-- Labels that meet the condition one after the other make a run. -/
theorem System.runWith_of_foldlM {State Label : Type _} {init : State → Prop}
    {step : State → Label → Option State} {ok : State → Label → Prop}
    [∀ s l, Decidable (ok s l)] {s s' : State} {labels : List Label}
    (hs : (System.ofStep init step).RunWith ok s)
    (h : labels.foldlM (fun s l => if ok s l then step s l else none) s = some s') :
    (System.ofStep init step).RunWith ok s' := by
  induction labels generalizing s with
  | nil =>
    cases h
    exact hs
  | cons l labels ih =>
    rw [List.foldlM_cons, Option.bind_eq_bind, Option.bind_eq_some_iff] at h
    obtain ⟨mid, hmid, hrest⟩ := h
    obtain ⟨hok, hstep⟩ := Option.ite_none_right_eq_some.mp hmid
    exact ih (hs.next hok hstep) hrest

end EsOs.Lib
