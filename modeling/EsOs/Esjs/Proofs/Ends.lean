import Mathlib.Data.List.Forall2
import EsOs.Esjs.Ends

/-!
# The completions of a statement are among its endings

For every engine, bound and run. A part of an evaluation is within a set of endings when all of its
completions are of the set; every construct keeps this.
-/

namespace EsOs.Esjs

universe u

variable {Expr : Type u} {Value State : Type*}

/-- The completion with the type and the target of an ending. -/
def Ending.completion (e : Ending) (value : Option Value) : CompletionType Value :=
  match e with
  | .normal => ⟨.normal, value, none⟩
  | .break target => ⟨.break, value, target⟩
  | .continue target => ⟨.continue, value, target⟩
  | .return => ⟨.return, value, none⟩
  | .throw => ⟨.throw, value, none⟩

/-- All the completions of a part are of a set. -/
def Step.Within (k : Ends) (step : Step Expr Value State) : Prop :=
  ∀ r c r', step r = (some c, r') → ∃ e value, c = Ending.completion e value ∧ k e = true

namespace Step

variable {k k' : Ends} {step : Step Expr Value State}
  {next next' : CompletionType Value → Step Expr Value State} {engine : Engine Expr Value State}

theorem Within.complete {e : Ending} {value : Option Value} (h : k e = true) :
    Within k (Step.complete (e.completion value) : Step Expr Value State) := by
  intro r c r' hc
  cases hc
  exact ⟨e, value, rfl, h⟩

theorem Within.exhausted : Within k (Step.exhausted : Step Expr Value State) :=
  nofun

theorem Within.mono (h : Within k step) (hsub : ∀ e, k e = true → k' e = true) : Within k' step := by
  intro r c r' hc
  obtain ⟨e, value, rfl, he⟩ := h r c r' hc
  exact ⟨e, value, rfl, hsub e he⟩

theorem Within.andThen (h : Within k step)
    (hnext : ∀ e value, k e = true → Within k' (next (e.completion value))) :
    Within k' (step.andThen next) := by
  intro r c r' hc
  unfold Step.andThen at hc
  split at hc
  · cases hc
  · rename_i c₁ r₁ hstep
    obtain ⟨e, value, rfl, he⟩ := h r c₁ r₁ hstep
    exact hnext e value he r₁ c r' hc

/-- Parts after a part within a set are the same if they are for its completions. -/
theorem Within.congr (h : Within k step)
    (hnext : ∀ e value, k e = true → next (e.completion value) = next' (e.completion value)) :
    step.andThen next = step.andThen next' := by
  funext r
  unfold Step.andThen
  split
  · rfl
  · rename_i c₁ r₁ hstep
    obtain ⟨e, value, rfl, he⟩ := h r c₁ r₁ hstep
    rw [hnext e value he]

theorem Within.value {expression : Expr} {next : Value → Step Expr Value State}
    (h : ∀ v, Within k (next v)) : Within (Ends.value k) (engine.value expression next) := by
  intro r c r' hc
  unfold Engine.value at hc
  split at hc
  · cases hc
    exact ⟨.throw, _, rfl, rfl⟩
  · rename_i v state hv
    obtain ⟨e, value, rfl, he⟩ := h v _ c r' hc
    exact ⟨e, value, rfl, by simp [Ends.value, he]⟩

theorem Within.inProperty {identifier : String} {value : Option Value} (h : Within k step) :
    Within k (engine.inProperty identifier value step) := by
  intro r c r' hc
  unfold Engine.inProperty at hc
  split at hc
  · cases hc
  · rename_i c₁ r₁ hstep
    cases hc
    exact h _ _ _ hstep

theorem Within.inObject {value : Value} (h : Within k step) :
    Within (Ends.value k) (engine.inObject value step) := by
  intro r c r' hc
  unfold Engine.inObject at hc
  split at hc
  · cases hc
    exact ⟨.throw, _, rfl, rfl⟩
  · split at hc
    · cases hc
    · rename_i c₁ r₁ hstep
      cases hc
      obtain ⟨e, value, rfl, he⟩ := h _ _ _ hstep
      exact ⟨e, value, rfl, by simp [Ends.value, he]⟩

end Step

open Step

section constructs

variable {k : Ends} {step : Step Expr Value State} {engine : Engine Expr Value State}
  {expression : Expr}

theorem list_within {ks : List Ends} {steps : List (Step Expr Value State)}
    (h : List.Forall₂ Within ks steps) (value : Option Value) :
    Within (Ends.list ks) (StatementList.loop steps value) := by
  induction h generalizing value with
  | nil => exact Within.complete (e := .normal) rfl
  | cons hk _ ih =>
    refine hk.andThen fun e v he => ?_
    rcases e with _ | target | target | _ | _
    · refine (ih _).mono fun e hl => ?_
      simp [Ends.list, he, hl]
    · exact Within.complete (e := .break target) (by simp [Ends.list, he])
    · exact Within.complete (e := .continue target) (by simp [Ends.list, he])
    · exact Within.complete (e := .return) (by simp [Ends.list, he])
    · exact Within.complete (e := .throw) (by simp [Ends.list, he])

/-- A completion with which a loop is left. -/
theorem out_within {k' : Ends} {e : Ending} {value : Option Value} (he : k e = true)
    (hout : Ends.outOf k e = true → k' e = true)
    (hne : e ≠ .normal ∧ e ≠ .break none ∧ e ≠ .continue none) :
    Within k' (Step.complete (e.completion value) : Step Expr Value State) :=
  Within.complete (hout (by simp [Ends.outOf, he, hne]))

theorem doWhile_within (h : Within k step) (turns : Nat) (value : Option Value) :
    Within (Ends.doWhile k) (doWhileLoop engine step expression turns value) := by
  induction turns generalizing value with
  | zero => exact Within.exhausted
  | succ turns ih =>
    have htest : Ends.goesOn k = true → ∀ value, Within (Ends.doWhile k)
        (engine.value expression fun v =>
          if engine.toBoolean v then doWhileLoop engine step expression turns value
          else .complete ⟨.normal, value, none⟩) := by
      intro hgo value
      refine (Within.value (k := Ends.doWhile k) fun v => ?_).mono fun e he => ?_
      · split
        · exact ih value
        · exact Within.complete (e := .normal) (by simp [Ends.doWhile, hgo])
      · rcases (Bool.or_eq_true _ _).mp he with hthrow | he
        · simp [Ends.doWhile, hgo, of_decide_eq_true hthrow]
        · exact he
    have hout : ∀ e, Ends.outOf k e = true → Ends.doWhile k e = true :=
      fun e he => by simp [Ends.doWhile, he]
    refine h.andThen fun e v he => ?_
    rcases e with _ | (_ | target) | (_ | target) | _ | _
    · exact htest (by simp [Ends.goesOn, he]) _
    · exact Within.complete (e := .normal) (by simp [Ends.doWhile, he])
    · exact out_within he (hout _) (by simp)
    · exact htest (by simp [Ends.goesOn, he]) _
    · exact out_within he (hout _) (by simp)
    · exact out_within he (hout _) (by simp)
    · exact out_within he (hout _) (by simp)

theorem whileDo_within (h : Within k step) (turns : Nat) (value : Option Value) :
    Within (Ends.whileDo k) (whileLoop engine expression step turns value) := by
  induction turns generalizing value with
  | zero => exact Within.exhausted
  | succ turns ih =>
    have hout : ∀ e, Ends.outOf k e = true → Ends.whileDo k e = true :=
      fun e he => by simp [Ends.whileDo, he]
    unfold whileLoop
    refine (Within.value (k := Ends.whileDo k) fun v => ?_).mono fun e he => ?_
    · split
      · refine h.andThen fun e v he => ?_
        rcases e with _ | (_ | target) | (_ | target) | _ | _
        · exact ih _
        · exact Within.complete (e := .normal) rfl
        · exact out_within he (hout _) (by simp)
        · exact ih _
        · exact out_within he (hout _) (by simp)
        · exact out_within he (hout _) (by simp)
        · exact out_within he (hout _) (by simp)
      · exact Within.complete (e := .normal) (by simp [Ends.whileDo])
    · rcases (Bool.or_eq_true _ _).mp he with hthrow | he
      · simp [Ends.whileDo, of_decide_eq_true hthrow]
      · exact he

theorem Step.Within.optional {expression : Option Expr} (h : Within k step) :
    Within (Ends.optional expression.isSome k) (engine.optional expression step) := by
  cases expression with
  | none => exact h
  | some expression => exact Within.value fun _ => h

theorem forDo_within {second third : Option Expr} (h : Within k step) (turns : Nat)
    (value : Option Value) :
    Within (Ends.forDo second.isSome third.isSome k) (forLoop engine second third step turns value) := by
  induction turns generalizing value with
  | zero => exact Within.exhausted
  | succ turns ih =>
    generalize hk : Ends.forDo second.isSome third.isSome k = k' at ih ⊢
    have hout : ∀ e, Ends.outOf k e = true → k' e = true :=
      fun e he => by simp [← hk, Ends.forDo, he]
    have hnext : Ends.goesOn k = true → ∀ value, Within k'
        (engine.optional third (forLoop engine second third step turns value)) := by
      intro hgo value
      refine (Within.optional (ih value)).mono fun e he => ?_
      cases third with
      | none => exact he
      | some third =>
        rcases (Bool.or_eq_true _ _).mp he with hthrow | he
        · simp [← hk, Ends.forDo, hgo, of_decide_eq_true hthrow]
        · exact he
    have htest : ∀ test, (second.isSome = false → test = true) → Within k'
        (if test then step.andThen fun result =>
          let value := result.value.or value
          let next := engine.optional third (forLoop engine second third step turns value)
          if result.isBreak && result.target = none then .complete ⟨.normal, value, none⟩
          else if result.isContinue && result.target = none then next
          else if result.isAbrupt then .complete result
          else next
        else .complete ⟨.normal, value, none⟩) := by
      intro test hpresent
      split
      · refine h.andThen fun e v he => ?_
        rcases e with _ | (_ | target) | (_ | target) | _ | _
        · exact hnext (by simp [Ends.goesOn, he]) _
        · exact Within.complete (e := .normal) (by simp [← hk, Ends.forDo, he])
        · exact out_within he (hout _) (by simp)
        · exact hnext (by simp [Ends.goesOn, he]) _
        · exact out_within he (hout _) (by simp)
        · exact out_within he (hout _) (by simp)
        · exact out_within he (hout _) (by simp)
      · rename_i hfalse
        have hsecond : second.isSome = true := by
          cases hs : second.isSome with
          | true => rfl
          | false => exact absurd (hpresent hs) hfalse
        exact Within.complete (e := .normal) (by simp [← hk, Ends.forDo, hsecond])
    unfold forLoop
    cases second with
    | none => exact htest true fun _ => rfl
    | some second =>
      refine (Within.value (k := k') fun v => htest _ nofun).mono fun e he => ?_
      rcases (Bool.or_eq_true _ _).mp he with hthrow | he
      · simp [← hk, Ends.forDo, of_decide_eq_true hthrow]
      · exact he

theorem labelled_within {identifier : String} (h : Within k step) (turns : Nat) :
    Within (Ends.labelled identifier k) (labelledLoop identifier step turns) := by
  have hresult : ∀ again : Step Expr Value State, Within (Ends.labelled identifier k) again →
      Within (Ends.labelled identifier k) (step.andThen (labelledResult identifier again)) := by
    intro again hagain
    refine h.andThen fun e v he => ?_
    unfold labelledResult
    by_cases hbreak : e = .break (some identifier)
    · subst hbreak
      rw [if_pos (by simp [Ending.completion, CompletionType.isBreak])]
      exact Within.complete (e := .normal) (by simp [Ends.labelled, he])
    · rw [if_neg (by cases e <;> simp_all [Ending.completion, CompletionType.isBreak])]
      by_cases hcontinue : e = .continue (some identifier)
      · subst hcontinue
        rw [if_pos (by simp [Ending.completion, CompletionType.isContinue])]
        exact hagain
      · rw [if_neg (by cases e <;> simp_all [Ending.completion, CompletionType.isContinue])]
        exact Within.complete (by simp [Ends.labelled, he, hbreak, hcontinue])
  induction turns with
  | zero => exact hresult _ Within.exhausted
  | succ turns ih => exact hresult _ ih

theorem tryThen_within {identifier : String} {k' : Ends} {step' : Step Expr Value State}
    (h : Within k step) (h' : Within k' step') :
    Within (Ends.tryThen k k') (catchThrow engine identifier step step') := by
  refine h.andThen fun e v he => ?_
  by_cases hthrow : e = .throw
  · subst hthrow
    exact (Within.inProperty h').mono fun e' he' => by simp [Ends.tryThen, he, he']
  · rw [if_neg (by cases e <;> simp_all [Ending.completion, CompletionType.isThrow])]
    exact Within.complete (by simp [Ends.tryThen, he, hthrow])

theorem finally_within {k' : Ends} {step' : Step Expr Value State}
    (h : Within k step) (h' : Within k' step') :
    Within (Ends.finally_ k k') (finallyRun step step') := by
  refine h.andThen fun e v he => h'.andThen fun e' v' he' => ?_
  by_cases hnormal : e' = .normal
  · subst hnormal
    exact Within.complete (by simp [Ends.finally_, he, he'])
  · rw [if_pos (by cases e' <;> simp_all [Ending.completion, CompletionType.isAbrupt])]
    exact Within.complete (by simp [Ends.finally_, he', hnormal])

/-- The lists of the clauses are within the sets. -/
def ClausesWithin (ks : List Ends) (clauses : List (CaseClause Expr Value State)) : Prop :=
  List.Forall₂ (fun k clause => Within k (StatementList.loop clause.2 none)) ks clauses

theorem rest_within {ks : List Ends} {clauses : List (CaseClause Expr Value State)}
    (h : ClausesWithin ks clauses) (value : Option Value) :
    Within (Ends.list ks) (CaseBlock.rest clauses value) := by
  induction h generalizing value with
  | nil => exact Within.complete (e := .normal) rfl
  | cons hk _ ih =>
    refine hk.andThen fun e v he => ?_
    rcases e with _ | target | target | _ | _
    · refine (ih _).mono fun e hl => ?_
      simp [Ends.list, he, hl]
    · exact Within.complete (e := .break target) (by simp [Ends.list, he])
    · exact Within.complete (e := .continue target) (by simp [Ends.list, he])
    · exact Within.complete (e := .return) (by simp [Ends.list, he])
    · exact Within.complete (e := .throw) (by simp [Ends.list, he])

theorem run_within {ks : List Ends} {clauses : List (CaseClause Expr Value State)}
    (h : ClausesWithin ks clauses) : Within (Ends.list ks) (CaseBlock.run clauses) := by
  cases h with
  | nil => exact Within.complete (e := .normal) rfl
  | cons hk hrest =>
    refine hk.andThen fun e v he => ?_
    rcases e with _ | target | target | _ | _
    · refine (rest_within hrest _).mono fun e hl => ?_
      simp [Ends.list, he, hl]
    · exact Within.complete (e := .break target) (by simp [Ends.list, he])
    · exact Within.complete (e := .continue target) (by simp [Ends.list, he])
    · exact Within.complete (e := .return) (by simp [Ends.list, he])
    · exact Within.complete (e := .throw) (by simp [Ends.list, he])

/-- The search takes the clauses from one of them on; without a default among them it may take those
    that it has been given. -/
theorem find_within {param : Value} {ks : List Ends}
    {clauses : List (CaseClause Expr Value State)} (h : ClausesWithin ks clauses)
    (defaultClause : List (CaseClause Expr Value State))
    (hdefault : Within k (CaseBlock.run defaultClause)) :
    Within (fun e => e = .throw || Ends.anyTail ks e ||
        (!clauses.any (fun clause => clause.1.isNone) && k e))
      (CaseBlock.find engine param CaseBlock.run clauses defaultClause) := by
  induction h generalizing k defaultClause with
  | nil => exact hdefault.mono fun e he => by simp [he]
  | @cons k₁ clause ks clauses hk hrest ih =>
    obtain ⟨expression, list⟩ := clause
    have hrun : Within (Ends.list (k₁ :: ks)) (CaseBlock.run ((expression, list) :: clauses)) :=
      run_within (.cons hk hrest)
    cases expression with
    | none =>
      refine (ih _ hrun).mono fun e he => ?_
      simp only [Bool.or_eq_true, Bool.and_eq_true] at he
      rcases he with (he | he) | ⟨-, he⟩
      · simp [he]
      · simp [Ends.anyTail, he]
      · simp [Ends.anyTail, he]
    | some expression =>
      unfold CaseBlock.find
      refine (Within.value (k := fun e => e = .throw || Ends.anyTail (k₁ :: ks) e ||
          (!clauses.any (fun clause => clause.1.isNone) && k e)) fun v => ?_).mono fun e he => ?_
      · split
        · exact hrun.mono fun e he => by simp [Ends.anyTail, he]
        · refine (ih _ hdefault).mono fun e he => ?_
          simp only [Bool.or_eq_true, Bool.and_eq_true] at he
          rcases he with (he | he) | he
          · simp [he]
          · simp [Ends.anyTail, he]
          · simp [he]
      · rcases (Bool.or_eq_true _ _).mp he with hthrow | he
        · simp [of_decide_eq_true hthrow]
        · simpa using he

theorem switch_within {ks : List Ends} {clauses : List (CaseClause Expr Value State)}
    (h : ClausesWithin ks clauses) :
    Within (Ends.switchOn (clauses.any fun clause => clause.1.isNone) ks)
      (switchClauses engine expression clauses) := by
  generalize hdefault : (clauses.any fun clause => clause.1.isNone) = hasDefault
  refine (Within.value (k := Ends.switchOn hasDefault ks) fun param => ?_).mono fun e he => ?_
  · refine (find_within h [] (Within.complete (e := .normal) (k := fun e => e = .normal) rfl)).andThen
      fun e v he => ?_
    rw [hdefault] at he
    simp only [Bool.or_eq_true, Bool.and_eq_true, decide_eq_true_eq] at he
    by_cases hbreak : e = .break none
    · subst hbreak
      refine Within.complete (e := .normal) ?_
      rcases he with (he | he) | ⟨-, he⟩
      · cases he
      · simp [Ends.switchOn, he]
      · cases he
    · rw [if_neg (by cases e <;> simp_all [Ending.completion, CompletionType.isBreak])]
      refine Within.complete ?_
      rcases he with (he | he) | ⟨hnone, he⟩
      · simp [Ends.switchOn, he]
      · simp [Ends.switchOn, he, hbreak]
      · simp only [Bool.not_eq_true'] at hnone
        simp [Ends.switchOn, he, hnone]
  · rcases (Bool.or_eq_true _ _).mp he with hthrow | he
    · simp [Ends.switchOn, of_decide_eq_true hthrow]
    · exact he

end constructs

section statements

variable (engine : Engine Expr Value State) (turns : Nat)

theorem CaseClauses.steps_some : ∀ clauses : CaseClauses Expr,
    ((clauses.steps engine turns).any fun clause => clause.1.isNone) = false
  | .nil => rfl
  | .cons _ _ clauses => CaseClauses.steps_some clauses

mutual

theorem Statement.evaluate_within :
    ∀ s : Statement Expr, Within s.ends (s.evaluate engine turns)
  | .block list => list_within (StatementList.steps_within list) none
  | .variableStatement _ => Within.value fun _ => Within.complete (e := .normal) rfl
  | .emptyStatement => Within.complete (e := .normal) rfl
  | .expressionStatement _ => Within.value fun _ => Within.complete (e := .normal) rfl
  | .ifStatement _ consequent => Within.value fun v => by
    split
    · exact (Statement.evaluate_within consequent).mono fun e he => by simp [he]
    · exact Within.complete (e := .normal) rfl
  | .ifElseStatement _ consequent otherwise => Within.value fun v => by
    split
    · exact (Statement.evaluate_within consequent).mono fun e he => by simp [he]
    · exact (Statement.evaluate_within otherwise).mono fun e he => by simp [he]
  | .doWhileStatement statement _ => doWhile_within (Statement.evaluate_within statement) turns none
  | .whileStatement _ statement => whileDo_within (Statement.evaluate_within statement) turns none
  | .forStatement _ _ _ statement =>
    Within.optional (forDo_within (Statement.evaluate_within statement) turns none)
  | .continueStatement identifier => Within.complete (e := .continue identifier) (by simp [Statement.ends])
  | .breakStatement identifier => Within.complete (e := .break identifier) (by simp [Statement.ends])
  | .returnStatement none => Within.complete (e := .return) rfl
  | .returnStatement (some _) => Within.value fun _ => Within.complete (e := .return) rfl
  | .withStatement _ statement => by
    refine (Within.value fun v => Within.inObject (Statement.evaluate_within statement)).mono
      fun e he => ?_
    simp only [Ends.value, Statement.ends, Bool.or_eq_true] at he ⊢
    tauto
  | .labelledStatement _ statement => labelled_within (Statement.evaluate_within statement) turns
  | .switchStatement expression (.withoutDefault clauses) => by
    have h : Within _ (switchClauses engine expression _) :=
      switch_within (CaseClauses.steps_within clauses)
    rw [CaseClauses.steps_some] at h
    exact h
  | .switchStatement expression (.withDefault first default second) => by
    have hclauses : ClausesWithin (first.ends ++ Ends.list default.ends :: second.ends)
        ((CaseBlock.withDefault first default second).steps engine turns) :=
      List.rel_append (CaseClauses.steps_within first)
        (.cons (list_within (StatementList.steps_within default) none)
          (CaseClauses.steps_within second))
    have h : Within _ (switchClauses engine expression _) := switch_within hclauses
    rw [show (((CaseBlock.withDefault first default second).steps engine turns).any
      fun clause => clause.1.isNone) = true by simp [CaseBlock.steps]] at h
    exact h
  | .throwStatement expression => by
    have h : Within (Ends.value fun e => e = .throw) (engine.value expression fun v =>
        .complete ⟨.throw, some v, none⟩) :=
      Within.value fun v => Within.complete (e := .throw) rfl
    exact h.mono fun e he => by simpa [Ends.value, Statement.ends] using he
  | .tryCatch block _ catchBlock =>
    tryThen_within (list_within (StatementList.steps_within block) none)
      (list_within (StatementList.steps_within catchBlock) none)
  | .tryFinally block finallyBlock =>
    finally_within (list_within (StatementList.steps_within block) none)
      (list_within (StatementList.steps_within finallyBlock) none)
  | .tryCatchFinally block _ catchBlock finallyBlock =>
    finally_within
      (tryThen_within (list_within (StatementList.steps_within block) none)
        (list_within (StatementList.steps_within catchBlock) none))
      (list_within (StatementList.steps_within finallyBlock) none)

theorem StatementList.steps_within :
    ∀ list : StatementList Expr, List.Forall₂ Within list.ends (list.steps engine turns)
  | .nil => .nil
  | .cons statement list =>
    .cons (Statement.evaluate_within statement) (StatementList.steps_within list)

theorem CaseClauses.steps_within :
    ∀ clauses : CaseClauses Expr, ClausesWithin clauses.ends (clauses.steps engine turns)
  | .nil => .nil
  | .cons _ list clauses =>
    .cons (list_within (StatementList.steps_within list) none) (CaseClauses.steps_within clauses)

end

end statements

end EsOs.Esjs
