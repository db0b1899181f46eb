import EsOs.Esjs.Statement

/-!
# The statements of ECMA-262, third edition

Chapter 12 over the same trees and the same engine: every statement is evaluated with a label set, and
a loop or a switch takes the completions whose target is in its set. The steps follow the numbered
steps of the productions.
-/

namespace EsOs.Esjs

universe u

namespace Ecma

section

variable {Expr : Type u} {Value State : Type*}

/-- `V` of the productions: the value of a result, unless it is empty. -/
def keep (result : CompletionType Value) (V : Option Value) : Option Value :=
  if result.value.isSome then result.value else V

/-- `StatementList : StatementList Statement` (12.1), behind the statements that left `V`. -/
def statementList : List (Step Expr Value State) → Option Value → Step Expr Value State
  | [], V => .complete ⟨.normal, V, none⟩
  | statement :: list, V => statement.andThen fun result =>
    if result.type = .normal then statementList list (keep result V)
    else .complete ⟨result.type, keep result V, result.target⟩

/-- `do Statement while ( Expression );` (12.6.1). -/
def doWhile (engine : Engine Expr Value State) (labels : List (Option String))
    (statement : Step Expr Value State) (expression : Expr) :
    Nat → Option Value → Step Expr Value State
  | 0, _ => .exhausted
  | turns + 1, V => statement.andThen fun result =>
    let V := keep result V
    if result.type = .break ∧ result.target ∈ labels then .complete ⟨.normal, V, none⟩
    else if result.type ≠ .normal ∧ ¬(result.type = .continue ∧ result.target ∈ labels) then
      .complete result
    else engine.value expression fun v =>
      if engine.toBoolean v then doWhile engine labels statement expression turns V
      else .complete ⟨.normal, V, none⟩

/-- `while ( Expression ) Statement` (12.6.2). -/
def whileDo (engine : Engine Expr Value State) (labels : List (Option String)) (expression : Expr)
    (statement : Step Expr Value State) : Nat → Option Value → Step Expr Value State
  | 0, _ => .exhausted
  | turns + 1, V => engine.value expression fun v =>
    if !engine.toBoolean v then .complete ⟨.normal, V, none⟩
    else statement.andThen fun result =>
      let V := keep result V
      if result.type = .break ∧ result.target ∈ labels then .complete ⟨.normal, V, none⟩
      else if result.type ≠ .normal ∧ ¬(result.type = .continue ∧ result.target ∈ labels) then
        .complete result
      else whileDo engine labels expression statement turns V

/-- `for ( ; Expression ; Expression ) Statement` (12.6.3), steps 5 to 19. -/
def forDo (engine : Engine Expr Value State) (labels : List (Option String))
    (second third : Option Expr) (statement : Step Expr Value State) :
    Nat → Option Value → Step Expr Value State
  | 0, _ => .exhausted
  | turns + 1, V => engine.optionalTest second fun test =>
    if !test then .complete ⟨.normal, V, none⟩
    else statement.andThen fun result =>
      let V := keep result V
      if result.type = .break ∧ result.target ∈ labels then .complete ⟨.normal, V, none⟩
      else if result.type ≠ .normal ∧ ¬(result.type = .continue ∧ result.target ∈ labels) then
        .complete result
      else engine.optional third (forDo engine labels second third statement turns V)

/-- The clauses behind the one that was chosen (12.11, steps 10 to 16 of the first production and 20
    to 37 of the second), a default among them. -/
def fallThrough : List (List (Step Expr Value State)) → Option Value → Step Expr Value State
  | [], V => .complete ⟨.normal, V, none⟩
  | clause :: clauses, V => (statementList clause none).andThen fun R =>
    let V := keep R V
    if R.type ≠ .normal then .complete ⟨R.type, V, R.target⟩ else fallThrough clauses V

/-- The clause that was chosen, and those behind it. -/
def chosen (clause : List (Step Expr Value State)) (clauses : List (List (Step Expr Value State))) :
    Step Expr Value State :=
  (statementList clause none).andThen fun R =>
    if R.type ≠ .normal then .complete R else fallThrough clauses R.value

/-- The search in a list of clauses (12.11, steps 3 to 5 and 12 to 14): the first one that is equal
    goes on with those of the list behind it and `tail`; without one, `otherwise`. -/
def search (engine : Engine Expr Value State) (input : Value)
    (tail : List (List (Step Expr Value State))) (otherwise : Step Expr Value State) :
    List (Expr × List (Step Expr Value State)) → Step Expr Value State
  | [] => otherwise
  | (expression, clause) :: clauses => engine.value expression fun v =>
    if engine.areStrictEqual v input then chosen clause (clauses.map Prod.snd ++ tail)
    else search engine input tail otherwise clauses

/-- `switch ( Expression ) CaseBlock` (12.11), with the block as a function of its input. -/
def switchOn (engine : Engine Expr Value State) (labels : List (Option String)) (expression : Expr)
    (caseBlock : Value → Step Expr Value State) : Step Expr Value State :=
  engine.value expression fun input => (caseBlock input).andThen fun result =>
    if result.type = .break ∧ result.target ∈ labels then .complete ⟨.normal, result.value, none⟩
    else .complete result

/-- `Identifier : Statement` (12.12), for a statement with its label set. -/
def labelled (identifier : String) (statement : Step Expr Value State) : Step Expr Value State :=
  statement.andThen fun result =>
    if result.type = .break ∧ result.target = some identifier then
      .complete ⟨.normal, result.value, none⟩
    else .complete result

/-- `try Block Catch` (12.14). -/
def tryThen (engine : Engine Expr Value State) (identifier : String)
    (block catchBlock : Step Expr Value State) : Step Expr Value State :=
  block.andThen fun C =>
    if C.type ≠ .throw then .complete C else engine.inProperty identifier C.value catchBlock

/-- `Finally` behind a completion (12.14). -/
def finally_ (step finallyBlock : Step Expr Value State) : Step Expr Value State :=
  step.andThen fun C => finallyBlock.andThen fun result =>
    if result.type = .normal then .complete C else .complete result

end

end Ecma

section

variable {Expr : Type u} {Value State : Type*}

mutual

/-- Chapter 12, with the labels before the statement. A loop and a switch have the empty label in
    their set besides. -/
def Statement.ecma (engine : Engine Expr Value State) (turns : Nat) (labels : List String) :
    Statement Expr → Step Expr Value State
  | .block list => Ecma.statementList (list.ecma engine turns) none
  | .variableStatement list => engine.value list fun _ => .complete ⟨.normal, none, none⟩
  | .emptyStatement => .complete ⟨.normal, none, none⟩
  | .expressionStatement expression => engine.value expression fun v =>
    .complete ⟨.normal, some v, none⟩
  | .ifStatement condition consequent => engine.value condition fun v =>
    if !engine.toBoolean v then .complete ⟨.normal, none, none⟩
    else consequent.ecma engine turns []
  | .ifElseStatement condition consequent otherwise => engine.value condition fun v =>
    if engine.toBoolean v then consequent.ecma engine turns [] else otherwise.ecma engine turns []
  | .doWhileStatement statement expression =>
    Ecma.doWhile engine (none :: labels.map some) (statement.ecma engine turns []) expression turns
      none
  | .whileStatement expression statement =>
    Ecma.whileDo engine (none :: labels.map some) expression (statement.ecma engine turns []) turns
      none
  | .forStatement first second third statement =>
    engine.optional first
      (Ecma.forDo engine (none :: labels.map some) second third (statement.ecma engine turns [])
        turns none)
  | .continueStatement identifier => .complete ⟨.continue, none, identifier⟩
  | .breakStatement identifier => .complete ⟨.break, none, identifier⟩
  | .returnStatement none => .complete ⟨.return, some engine.undefined, none⟩
  | .returnStatement (some expression) => engine.value expression fun v =>
    .complete ⟨.return, some v, none⟩
  | .withStatement expression statement => engine.value expression fun v =>
    engine.inObject v (statement.ecma engine turns [])
  | .labelledStatement identifier statement =>
    Ecma.labelled identifier (statement.ecma engine turns (identifier :: labels))
  | .switchStatement expression caseBlock =>
    Ecma.switchOn engine (none :: labels.map some) expression (caseBlock.ecma engine turns)
  | .throwStatement expression => engine.value expression fun v =>
    .complete ⟨.throw, some v, none⟩
  | .tryCatch block identifier catchBlock =>
    Ecma.tryThen engine identifier (Ecma.statementList (block.ecma engine turns) none)
      (Ecma.statementList (catchBlock.ecma engine turns) none)
  | .tryFinally block finallyBlock =>
    Ecma.finally_ (Ecma.statementList (block.ecma engine turns) none)
      (Ecma.statementList (finallyBlock.ecma engine turns) none)
  | .tryCatchFinally block identifier catchBlock finallyBlock =>
    Ecma.finally_
      (Ecma.tryThen engine identifier (Ecma.statementList (block.ecma engine turns) none)
        (Ecma.statementList (catchBlock.ecma engine turns) none))
      (Ecma.statementList (finallyBlock.ecma engine turns) none)

def StatementList.ecma (engine : Engine Expr Value State) (turns : Nat) :
    StatementList Expr → List (Step Expr Value State)
  | .nil => []
  | .cons statement list => statement.ecma engine turns [] :: list.ecma engine turns

def CaseClauses.ecma (engine : Engine Expr Value State) (turns : Nat) :
    CaseClauses Expr → List (Expr × List (Step Expr Value State))
  | .nil => []
  | .cons expression list clauses =>
    (expression, list.ecma engine turns) :: clauses.ecma engine turns

def CaseBlock.ecma (engine : Engine Expr Value State) (turns : Nat) :
    CaseBlock Expr → Value → Step Expr Value State
  | .withoutDefault clauses, input =>
    Ecma.search engine input [] (.complete ⟨.normal, none, none⟩) (clauses.ecma engine turns)
  | .withDefault first default second, input =>
    let second := second.ecma engine turns
    let default := default.ecma engine turns
    Ecma.search engine input (default :: second.map Prod.snd)
      (Ecma.search engine input [] (Ecma.fallThrough (default :: second.map Prod.snd) none) second)
      (first.ecma engine turns)

end

end

end EsOs.Esjs
