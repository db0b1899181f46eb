import Mathlib
import EsOs.Esjs.Ecma
import EsOs.Esjs.Proofs.Ends

/-!
# Where the statements follow the standard

Construct by construct the two evaluations are the same, but for labels: the code has no label sets,
its labels take completions afterwards. So the two are compared up to the breaks that labels around
the statement take. They agree where every label resolves.
-/

namespace EsOs.Esjs

universe u

open Step

variable {Expr : Type u} {Value State : Type*}

section constructs

variable {k : Ends} {step : Step Expr Value State} {engine : Engine Expr Value State}
  {expression : Expr} {labels : List String}

theorem keep_eq (result : CompletionType Value) (V : Option Value) :
    Ecma.keep result V = result.value.or V := by
  unfold Ecma.keep
  cases result.value <;> rfl

theorem statementList_eq {ks : List Ends} {steps : List (Step Expr Value State)}
    (h : List.Forall₂ Within ks steps) (V : Option Value) :
    StatementList.loop steps V = Ecma.statementList steps V := by
  induction h generalizing V with
  | nil => rfl
  | cons hk _ ih =>
    refine hk.congr fun e v he => ?_
    rw [keep_eq, ← ih]
    rcases e with _ | target | target | _ | _ <;> rfl

/-- A part of an evaluation is the same behind an expression. -/
theorem value_congr {next next' : Value → Step Expr Value State} (h : ∀ v, next v = next' v) :
    engine.value expression next = engine.value expression next' :=
  congrArg (engine.value expression) (funext h)

/-- No label is named by an ending. -/
def Unnamed (k : Ends) (labels : List String) : Prop :=
  ∀ identifier ∈ labels,
    k (.break (some identifier)) = false ∧ k (.continue (some identifier)) = false

theorem Unnamed.not_mem {target : String} (h : Unnamed k labels)
    (hk : k (.break (some target)) = true ∨ k (.continue (some target)) = true) :
    target ∉ labels := by
  intro hmem
  obtain ⟨hbreak, hcontinue⟩ := h target hmem
  rw [hbreak, hcontinue] at hk
  rcases hk with hk | hk <;> cases hk

/-- What a loop does with a result, with a label set that no ending of its body names. -/
theorem loopResult_eq {e : Ending} (hlabels : Unnamed k labels) (he : k e = true)
    (value : Option Value) (leave next : Step Expr Value State) :
    (if (e.completion value).isContinue && (e.completion value).target = none then next
      else if (e.completion value).isBreak && (e.completion value).target = none then leave
      else if (e.completion value).isAbrupt then .complete (e.completion value)
      else next) =
    if (e.completion value).type = .break ∧
        (e.completion value).target ∈ none :: labels.map some then leave
      else if (e.completion value).type ≠ .normal ∧ ¬((e.completion value).type = .continue ∧
        (e.completion value).target ∈ none :: labels.map some) then .complete (e.completion value)
      else next := by
  rcases e with _ | (_ | target) | (_ | target) | _ | _
  · rfl
  · simp [Ending.completion, CompletionType.isBreak, CompletionType.isContinue]
  · have hne := hlabels.not_mem (.inl he)
    simp [Ending.completion, CompletionType.isContinue, CompletionType.isAbrupt, hne]
  · simp [Ending.completion, CompletionType.isContinue]
  · have hne := hlabels.not_mem (.inr he)
    simp [Ending.completion, CompletionType.isBreak, CompletionType.isAbrupt, hne]
  · rfl
  · rfl

theorem forResult_eq (result : CompletionType Value) (leave next : Step Expr Value State) :
    (if result.isBreak && result.target = none then leave
      else if result.isContinue && result.target = none then next
      else if result.isAbrupt then .complete result
      else next) =
    if result.isContinue && result.target = none then next
      else if result.isBreak && result.target = none then leave
      else if result.isAbrupt then .complete result
      else next := by
  obtain ⟨type, value, target⟩ := result
  cases type <;> rfl

theorem doWhile_eq (h : Within k step) (hlabels : Unnamed k labels) (turns : Nat)
    (V : Option Value) :
    doWhileLoop engine step expression turns V =
      Ecma.doWhile engine (none :: labels.map some) step expression turns V := by
  induction turns generalizing V with
  | zero => rfl
  | succ turns ih =>
    unfold doWhileLoop Ecma.doWhile
    refine h.congr fun e v he => ?_
    simp only [keep_eq, ih]
    exact loopResult_eq hlabels he v _ _

theorem whileDo_eq (h : Within k step) (hlabels : Unnamed k labels) (turns : Nat)
    (V : Option Value) :
    whileLoop engine expression step turns V =
      Ecma.whileDo engine (none :: labels.map some) expression step turns V := by
  induction turns generalizing V with
  | zero => rfl
  | succ turns ih =>
    unfold whileLoop Ecma.whileDo
    refine value_congr fun v => ?_
    cases engine.toBoolean v with
    | false => rfl
    | true =>
      refine h.congr fun e v he => ?_
      simp only [keep_eq, ih]
      exact loopResult_eq hlabels he v _ _

theorem forDo_eq {second third : Option Expr} (h : Within k step) (hlabels : Unnamed k labels)
    (turns : Nat) (V : Option Value) :
    forLoop engine second third step turns V =
      Ecma.forDo engine (none :: labels.map some) second third step turns V := by
  induction turns generalizing V with
  | zero => rfl
  | succ turns ih =>
    unfold forLoop Ecma.forDo
    refine congrArg (engine.optionalTest second) (funext fun test => ?_)
    cases test with
    | false => rfl
    | true =>
      refine h.congr fun e v he => ?_
      simp only [keep_eq, ih, forResult_eq]
      exact loopResult_eq hlabels he v _ _

theorem tryThen_eq {identifier : String} (block catchBlock : Step Expr Value State) :
    catchThrow engine identifier block catchBlock =
      Ecma.tryThen engine identifier block catchBlock := by
  refine congrArg block.andThen (funext fun ⟨type, value, target⟩ => ?_)
  cases type <;> rfl

theorem finally_eq (statement finallyBlock : Step Expr Value State) :
    finallyRun statement finallyBlock = Ecma.finally_ statement finallyBlock := by
  refine congrArg statement.andThen (funext fun C => ?_)
  refine congrArg finallyBlock.andThen (funext fun ⟨type, value, target⟩ => ?_)
  cases type <;> rfl

/-- A list of statements that has endings and is evaluated in the same way. -/
def SameList (list : List (Step Expr Value State)) : Prop :=
  (∃ k, Within k (StatementList.loop list none)) ∧
    StatementList.loop list none = Ecma.statementList list none

theorem rest_eq {clauses : List (CaseClause Expr Value State)}
    (h : ∀ clause ∈ clauses, SameList clause.2) (V : Option Value) :
    CaseBlock.rest clauses V = Ecma.fallThrough (clauses.map Prod.snd) V := by
  induction clauses generalizing V with
  | nil => rfl
  | cons clause clauses ih =>
    obtain ⟨⟨k, hk⟩, hsame⟩ := h clause List.mem_cons_self
    rw [List.map_cons]
    unfold CaseBlock.rest Ecma.fallThrough
    rw [← hsame]
    refine hk.congr fun e v he => ?_
    have hrest := ih fun clause hclause => h clause (List.mem_cons_of_mem _ hclause)
    simp only [keep_eq, ← hrest]
    rcases e with _ | target | target | _ | _ <;> rfl

theorem run_eq {clause : CaseClause Expr Value State}
    {clauses : List (CaseClause Expr Value State)}
    (h : ∀ c ∈ clause :: clauses, SameList c.2) :
    CaseBlock.run (clause :: clauses) = Ecma.chosen clause.2 (clauses.map Prod.snd) := by
  obtain ⟨⟨k, hk⟩, hsame⟩ := h clause List.mem_cons_self
  unfold CaseBlock.run Ecma.chosen
  rw [← hsame]
  refine hk.congr fun e v he => ?_
  rw [← rest_eq fun c hc => h c (List.mem_cons_of_mem _ hc)]
  rcases e with _ | target | target | _ | _ <;> rfl

theorem run_default_eq {clause : CaseClause Expr Value State}
    {clauses : List (CaseClause Expr Value State)}
    (h : ∀ c ∈ clause :: clauses, SameList c.2) :
    CaseBlock.run (clause :: clauses) =
      Ecma.fallThrough (clause.2 :: clauses.map Prod.snd) none := by
  obtain ⟨⟨k, hk⟩, hsame⟩ := h clause List.mem_cons_self
  unfold CaseBlock.run Ecma.fallThrough
  rw [← hsame]
  refine hk.congr fun e v he => ?_
  have hrest := rest_eq fun c hc => h c (List.mem_cons_of_mem _ hc)
  simp only [keep_eq, ← hrest]
  rcases e with _ | target | target | _ | _ <;> cases v <;> rfl

/-- A clause of the standard as one of the code. -/
def caseClause (clause : Expr × List (Step Expr Value State)) : CaseClause Expr Value State :=
  (some clause.1, clause.2)

theorem find_eq (engine : Engine Expr Value State) (param : Value)
    {clauses : List (Expr × List (Step Expr Value State))}
    {tail : List (CaseClause Expr Value State)}
    (h : ∀ c ∈ clauses.map caseClause ++ tail, SameList c.2)
    (defaultClause : List (CaseClause Expr Value State)) :
    CaseBlock.find engine param CaseBlock.run (clauses.map caseClause ++ tail) defaultClause =
      Ecma.search engine param (tail.map Prod.snd)
        (CaseBlock.find engine param CaseBlock.run tail defaultClause) clauses := by
  induction clauses with
  | nil => rfl
  | cons clause clauses ih =>
    have hrest := ih fun c hc => h c (List.mem_cons_of_mem _ hc)
    have hrun : CaseBlock.run (caseClause clause :: (clauses.map caseClause ++ tail)) =
        Ecma.chosen clause.2 ((clauses.map caseClause ++ tail).map Prod.snd) := run_eq h
    rw [List.map_append, List.map_map] at hrun
    show engine.value clause.1 _ = engine.value clause.1 _
    refine value_congr fun v => ?_
    split
    · exact hrun
    · exact hrest

/-- The labels around a statement take their breaks. -/
def breaks (labels : List String) (step : Step Expr Value State) : Step Expr Value State :=
  step.andThen fun result =>
    if result.type = .break ∧ ∃ identifier ∈ labels, result.target = some identifier then
      .complete ⟨.normal, result.value, none⟩
    else .complete result

theorem andThen_assoc (step : Step Expr Value State)
    (f g : CompletionType Value → Step Expr Value State) :
    (step.andThen f).andThen g = step.andThen fun c => (f c).andThen g := by
  funext r
  unfold Step.andThen
  cases step r with
  | mk c r => cases c <;> rfl

theorem complete_andThen (c : CompletionType Value)
    (f : CompletionType Value → Step Expr Value State) :
    (Step.complete c).andThen f = f c := rfl

theorem andThen_complete (step : Step Expr Value State) : step.andThen .complete = step := by
  funext r
  unfold Step.andThen
  split
  · rename_i h
    exact h.symm
  · rename_i h
    exact h.symm

theorem breaks_nil (step : Step Expr Value State) : breaks [] step = step := by
  refine Eq.trans (congrArg step.andThen (funext fun c => ?_)) (andThen_complete step)
  rw [if_neg (by simp)]

theorem breaks_labelled (identifier : String) (step : Step Expr Value State) :
    breaks labels (Ecma.labelled identifier step) = breaks (identifier :: labels) step := by
  unfold breaks Ecma.labelled
  rw [andThen_assoc]
  refine congrArg step.andThen (funext fun c => ?_)
  by_cases hbreak : c.type = .break ∧ c.target = some identifier
  · rw [if_pos hbreak, complete_andThen, if_neg (by simp)]
    rw [if_pos ⟨hbreak.1, identifier, List.mem_cons_self, hbreak.2⟩]
  · rw [if_neg hbreak, complete_andThen]
    have hiff : (c.type = .break ∧ ∃ i ∈ labels, c.target = some i) ↔
        (c.type = .break ∧ ∃ i ∈ identifier :: labels, c.target = some i) := by
      refine and_congr_right fun htype => ?_
      simp only [List.mem_cons, exists_eq_or_imp]
      exact (or_iff_right fun htarget => hbreak ⟨htype, htarget⟩).symm
    simp only [hiff]

theorem breaks_value {next : Value → Step Expr Value State} :
    breaks labels (engine.value expression next) =
      engine.value expression fun v => breaks labels (next v) := by
  funext r
  unfold breaks Engine.value Step.andThen
  dsimp only
  generalize engine.evaluate expression r.state = result
  obtain ⟨thrown | v, state⟩ := result
  · dsimp only
    rw [if_neg (by simp)]
    rfl
  · rfl

/-- A switch takes the breaks that the labels around it would take. -/
theorem breaks_switchOn {caseBlock : Step Expr Value State} (h : Within k caseBlock) :
    breaks labels (caseBlock.andThen fun result =>
        if result.isBreak && result.target = none then .complete { result with type := .normal }
        else .complete result) =
      breaks labels (caseBlock.andThen fun result =>
        if result.type = .break ∧ result.target ∈ none :: labels.map some then
          .complete ⟨.normal, result.value, none⟩
        else .complete result) := by
  unfold breaks
  rw [andThen_assoc, andThen_assoc]
  refine h.congr fun e v he => ?_
  rcases e with _ | (_ | target) | target | _ | _
  · rfl
  · simp [Ending.completion, CompletionType.isBreak, complete_andThen]
  · by_cases hmem : target ∈ labels
    · simp [Ending.completion, complete_andThen, hmem]
    · simp [Ending.completion, complete_andThen, hmem]
  · rfl
  · rfl
  · rfl

end constructs

section statements

variable (engine : Engine Expr Value State) (turns : Nat)

theorem StatementList.sameList (list : StatementList Expr) : SameList (list.steps engine turns) := by
  have h := StatementList.steps_within engine turns list
  exact ⟨⟨_, list_within h none⟩, statementList_eq h none⟩

theorem CaseClauses.sameLists (clauses : CaseClauses Expr) :
    ∀ c ∈ clauses.steps engine turns, SameList c.2 := by
  intro c hc
  cases clauses with
  | nil => cases hc
  | cons expression list clauses =>
    rcases List.mem_cons.mp hc with rfl | hc
    · exact StatementList.sameList engine turns list
    · exact CaseClauses.sameLists clauses c hc

theorem CaseBlock.steps_within : ∀ caseBlock : CaseBlock Expr,
    ∃ ks, ClausesWithin ks (caseBlock.steps engine turns)
  | .withoutDefault clauses => ⟨_, CaseClauses.steps_within engine turns clauses⟩
  | .withDefault first default second =>
    ⟨_, List.rel_append (CaseClauses.steps_within engine turns first)
      (.cons (list_within (StatementList.steps_within engine turns default) none)
        (CaseClauses.steps_within engine turns second))⟩

theorem CaseClauses.find_ecma (input : Value) {clauses : CaseClauses Expr}
    (hclauses : (clauses.ecma engine turns).map caseClause = clauses.steps engine turns)
    (tail : List (CaseClause Expr Value State)) (htail : ∀ c ∈ tail, SameList c.2)
    (defaultClause : List (CaseClause Expr Value State)) :
    CaseBlock.find engine input CaseBlock.run (clauses.steps engine turns ++ tail) defaultClause =
      Ecma.search engine input (tail.map Prod.snd)
        (CaseBlock.find engine input CaseBlock.run tail defaultClause)
        (clauses.ecma engine turns) := by
  rw [← hclauses]
  refine find_eq engine input (fun c hc => ?_) defaultClause
  rcases List.mem_append.mp hc with hc | hc
  · rw [hclauses] at hc
    exact CaseClauses.sameLists engine turns clauses c hc
  · exact htail c hc

/-- A statement behind labels ends with a continue to another label only if the body of the loop
    does. -/
theorem Statement.ends_continue {identifier : String} {body : Ends} :
    ∀ s : Statement Expr, s.bodyEnds = some body → body (.continue (some identifier)) = false →
      s.ends (.continue (some identifier)) = false
  | .doWhileStatement statement _, hs, hbody => by
    cases hs
    simp [Statement.ends, Ends.doWhile, Ends.outOf, hbody]
  | .whileStatement _ statement, hs, hbody => by
    cases hs
    simp [Statement.ends, Ends.whileDo, Ends.outOf, hbody]
  | .forStatement first _ _ statement, hs, hbody => by
    cases hs
    cases first <;> simp [Statement.ends, Ends.optional, Ends.value, Ends.forDo, Ends.outOf, hbody]
  | .labelledStatement _ statement, hs, hbody => by
    have hends := Statement.ends_continue statement hs hbody
    simp [Statement.ends, Ends.labelled, hends]

theorem Statement.resolves_spec {identifier : String} {s : Statement Expr}
    (h : s.resolves identifier = true) :
    s.ends (.continue (some identifier)) = false ∧
      ∀ body, s.bodyEnds = some body → Unnamed body [identifier] := by
  unfold Statement.resolves at h
  split at h
  · rename_i body hbody
    simp only [Bool.and_eq_true, Bool.not_eq_true'] at h
    refine ⟨Statement.ends_continue s hbody h.2, fun b hb => ?_⟩
    obtain rfl := Option.some.inj (hbody.symm.trans hb)
    intro i hi
    obtain rfl := List.mem_singleton.mp hi
    exact h
  · rename_i hnone
    refine ⟨by simpa using h, fun b hb => ?_⟩
    rw [hnone] at hb
    cases hb

/-- A label that resolves takes completions once. -/
theorem labelledLoop_eq {k : Ends} {identifier : String} {step : Step Expr Value State}
    (h : Within k step) (hcontinue : k (.continue (some identifier)) = false) (turns : Nat) :
    labelledLoop identifier step turns = Ecma.labelled identifier step := by
  have hresult : ∀ again, step.andThen (labelledResult identifier again) =
      Ecma.labelled identifier step := by
    refine fun again => h.congr fun e v he => ?_
    unfold labelledResult
    rcases e with _ | target | target | _ | _
    · rfl
    · by_cases htarget : target = some identifier
      · simp [Ending.completion, CompletionType.isBreak, htarget]
      · simp [Ending.completion, CompletionType.isBreak, CompletionType.isContinue, htarget]
    · have htarget : target ≠ some identifier := by
        rintro rfl
        rw [hcontinue] at he
        cases he
      simp [Ending.completion, CompletionType.isBreak, CompletionType.isContinue, htarget]
    · rfl
    · rfl
  cases turns with
  | zero => exact hresult _
  | succ turns => exact hresult _

mutual

/-- Up to the breaks that the labels around it take. -/
theorem Statement.breaks_ecma : ∀ s : Statement Expr, s.labelsResolve = true → ∀ labels,
    (∀ body, s.bodyEnds = some body → Unnamed body labels) →
    breaks labels (s.ecma engine turns labels) = breaks labels (s.evaluate engine turns)
  | .block list, h, labels, _ => by
    have hlist := StatementList.ecma_eq list h
    have hsame := (StatementList.sameList engine turns list).2
    simp only [Statement.ecma, Statement.evaluate, hlist, hsame]
  | .variableStatement _, _, _, _ => rfl
  | .emptyStatement, _, _, _ => rfl
  | .expressionStatement _, _, _, _ => rfl
  | .ifStatement condition consequent, h, labels, _ => by
    have hconsequent := Statement.ecma_eq consequent h
    refine congrArg (breaks labels) (value_congr fun v => ?_)
    rw [hconsequent]
    cases engine.toBoolean v <;> rfl
  | .ifElseStatement condition consequent otherwise, h, labels, _ => by
    obtain ⟨h₁, h₂⟩ := (Bool.and_eq_true _ _).mp h
    simp only [Statement.ecma, Statement.evaluate, Statement.ecma_eq consequent h₁,
      Statement.ecma_eq otherwise h₂]
  | .doWhileStatement statement expression, h, labels, hlabels => by
    refine congrArg (breaks labels) ?_
    simp only [Statement.ecma, Statement.evaluate, Statement.ecma_eq statement h]
    exact (doWhile_eq (Statement.evaluate_within engine turns statement) (hlabels _ rfl) _ _).symm
  | .whileStatement expression statement, h, labels, hlabels => by
    refine congrArg (breaks labels) ?_
    simp only [Statement.ecma, Statement.evaluate, Statement.ecma_eq statement h]
    exact (whileDo_eq (Statement.evaluate_within engine turns statement) (hlabels _ rfl) _ _).symm
  | .forStatement first second third statement, h, labels, hlabels => by
    refine congrArg (breaks labels) (congrArg (engine.optional first) ?_)
    rw [Statement.ecma_eq statement h]
    exact (forDo_eq (Statement.evaluate_within engine turns statement) (hlabels _ rfl) _ _).symm
  | .continueStatement _, _, _, _ => rfl
  | .breakStatement _, _, _, _ => rfl
  | .returnStatement none, _, _, _ => rfl
  | .returnStatement (some _), _, _, _ => rfl
  | .withStatement expression statement, h, labels, _ => by
    simp only [Statement.ecma, Statement.evaluate, Statement.ecma_eq statement h]
  | .labelledStatement identifier statement, h, labels, hlabels => by
    obtain ⟨hresolves, hstatement⟩ := (Bool.and_eq_true _ _).mp h
    obtain ⟨hcontinue, hbody⟩ := Statement.resolves_spec hresolves
    have hinner := Statement.breaks_ecma statement hstatement (identifier :: labels) fun body hb => by
      intro i hi
      rcases List.mem_cons.mp hi with rfl | hi
      · exact hbody body hb i (List.mem_singleton.mpr rfl)
      · exact hlabels body hb i hi
    simp only [Statement.ecma, Statement.evaluate]
    rw [labelledLoop_eq (Statement.evaluate_within engine turns statement) hcontinue,
      breaks_labelled, breaks_labelled]
    exact hinner
  | .switchStatement expression caseBlock, h, labels, _ => by
    have hblock := fun input => CaseBlock.ecma_eq input caseBlock h
    simp only [Statement.ecma, Statement.evaluate, Ecma.switchOn, switchClauses, breaks_value]
    refine value_congr fun input => ?_
    obtain ⟨ks, hks⟩ := CaseBlock.steps_within engine turns caseBlock
    rw [← hblock input]
    exact (breaks_switchOn (find_within hks [] (Within.complete (e := .normal)
      (k := fun _ => true) rfl))).symm
  | .throwStatement _, _, _, _ => rfl
  | .tryCatch block identifier catchBlock, h, labels, _ => by
    obtain ⟨h₁, h₂⟩ := (Bool.and_eq_true _ _).mp h
    simp only [Statement.ecma, Statement.evaluate, StatementList.ecma_eq block h₁,
      StatementList.ecma_eq catchBlock h₂, tryThen_eq, (StatementList.sameList engine turns _).2]
  | .tryFinally block finallyBlock, h, labels, _ => by
    obtain ⟨h₁, h₂⟩ := (Bool.and_eq_true _ _).mp h
    simp only [Statement.ecma, Statement.evaluate, StatementList.ecma_eq block h₁,
      StatementList.ecma_eq finallyBlock h₂, finally_eq, (StatementList.sameList engine turns _).2]
  | .tryCatchFinally block identifier catchBlock finallyBlock, h, labels, _ => by
    obtain ⟨h₁₂, h₃⟩ := (Bool.and_eq_true _ _).mp h
    obtain ⟨h₁, h₂⟩ := (Bool.and_eq_true _ _).mp h₁₂
    simp only [Statement.ecma, Statement.evaluate, StatementList.ecma_eq block h₁,
      StatementList.ecma_eq catchBlock h₂, StatementList.ecma_eq finallyBlock h₃, tryThen_eq,
      finally_eq, (StatementList.sameList engine turns _).2]

theorem Statement.ecma_eq (s : Statement Expr) (h : s.labelsResolve = true) :
    s.ecma engine turns [] = s.evaluate engine turns := by
  have hbreaks := Statement.breaks_ecma s h [] fun _ _ => nofun
  rwa [breaks_nil, breaks_nil] at hbreaks

theorem StatementList.ecma_eq : ∀ list : StatementList Expr, list.labelsResolve = true →
    list.ecma engine turns = list.steps engine turns
  | .nil, _ => rfl
  | .cons statement list, h => by
    obtain ⟨h₁, h₂⟩ := (Bool.and_eq_true _ _).mp h
    simp only [StatementList.ecma, StatementList.steps, Statement.ecma_eq statement h₁,
      StatementList.ecma_eq list h₂]

theorem CaseClauses.ecma_eq : ∀ clauses : CaseClauses Expr, clauses.labelsResolve = true →
    (clauses.ecma engine turns).map caseClause = clauses.steps engine turns
  | .nil, _ => rfl
  | .cons expression list clauses, h => by
    obtain ⟨h₁, h₂⟩ := (Bool.and_eq_true _ _).mp h
    rw [CaseClauses.ecma, CaseClauses.steps, List.map_cons, CaseClauses.ecma_eq clauses h₂, caseClause,
      StatementList.ecma_eq list h₁]

theorem CaseBlock.ecma_eq (input : Value) : ∀ caseBlock : CaseBlock Expr,
    caseBlock.labelsResolve = true →
    CaseBlock.find engine input CaseBlock.run (caseBlock.steps engine turns) [] =
      caseBlock.ecma engine turns input
  | .withoutDefault clauses, h => by
    have hfind := CaseClauses.find_ecma engine turns input (CaseClauses.ecma_eq clauses h)
      [] nofun []
    rwa [List.append_nil] at hfind
  | .withDefault first default second, h => by
    obtain ⟨h₁₂, h₃⟩ := (Bool.and_eq_true _ _).mp h
    obtain ⟨h₁, h₂⟩ := (Bool.and_eq_true _ _).mp h₁₂
    have hsecond := CaseClauses.ecma_eq second h₃
    have hall : ∀ c ∈ (none, default.steps engine turns) :: second.steps engine turns,
        SameList c.2 := by
      intro c hc
      rcases List.mem_cons.mp hc with rfl | hc
      · exact StatementList.sameList engine turns default
      · exact CaseClauses.sameLists engine turns second c hc
    have hmap : (second.steps engine turns).map Prod.snd =
        (second.ecma engine turns).map Prod.snd := by
      rw [← hsecond, List.map_map]
      rfl
    -- the search goes on behind the default, and comes back to it
    have hbehind := CaseClauses.find_ecma engine turns input hsecond [] nofun
      ((none, default.steps engine turns) :: second.steps engine turns)
    rw [List.append_nil] at hbehind
    have hfind := CaseClauses.find_ecma engine turns input (CaseClauses.ecma_eq first h₁) _ hall []
    simp only [CaseBlock.find, hbehind, run_default_eq hall, List.map_cons, List.map_nil, hmap]
      at hfind
    simp only [CaseBlock.ecma, StatementList.ecma_eq default h₂]
    exact hfind

end

end statements

end EsOs.Esjs
