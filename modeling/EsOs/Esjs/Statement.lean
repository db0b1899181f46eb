import Mathlib.Tactic.TypeStar

/-!
# JavaScript statements

The statements of `esjs/include/esjs.h` and their `evaluate()`. Expressions are evaluated by an
arbitrary engine on its own state; a run keeps the expressions that have been evaluated. A value that
is thrown in C++ counts as a throw completion. A loop is evaluated for a bounded number of turns,
after which there is no completion, only the run so far. `for`-`in` is left out.
-/

namespace EsOs.Esjs

universe u

/-- `CompletionType::Type` (`value.h:451-458`). -/
inductive CompletionType.Kind where
  | normal
  | break
  | continue
  | return
  | throw
deriving DecidableEq, Repr

/-- `CompletionType` (`value.h:448-521`). An empty target, `""`, is `none`. -/
structure CompletionType (Value : Type*) where
  type : CompletionType.Kind := .normal
  value : Option Value := none
  target : Option String := none
deriving DecidableEq

namespace CompletionType

variable {Value : Type*}

def isBreak (c : CompletionType Value) : Bool :=
  c.type = .break

def isContinue (c : CompletionType Value) : Bool :=
  c.type = .continue

def isThrow (c : CompletionType Value) : Bool :=
  c.type = .throw

def isAbrupt (c : CompletionType Value) : Bool :=
  c.type ≠ .normal

end CompletionType

mutual

/-- The statements (`esjs.h:2097-3081`). -/
inductive Statement (Expr : Type u) where
  | block (list : StatementList Expr)
  | variableStatement (list : Expr)
  | emptyStatement
  | expressionStatement (expression : Expr)
  | ifStatement (condition : Expr) (consequent : Statement Expr)
  | ifElseStatement (condition : Expr) (consequent otherwise : Statement Expr)
  | doWhileStatement (statement : Statement Expr) (expression : Expr)
  | whileStatement (expression : Expr) (statement : Statement Expr)
  | forStatement (first second third : Option Expr) (statement : Statement Expr)
  | continueStatement (identifier : Option String)
  | breakStatement (identifier : Option String)
  | returnStatement (expression : Option Expr)
  | withStatement (expression : Expr) (statement : Statement Expr)
  | labelledStatement (identifier : String) (statement : Statement Expr)
  | switchStatement (expression : Expr) (caseBlock : CaseBlock Expr)
  | throwStatement (expression : Expr)
  | tryCatch (block : StatementList Expr) (identifier : String) (catchBlock : StatementList Expr)
  | tryFinally (block finallyBlock : StatementList Expr)
  | tryCatchFinally (block : StatementList Expr) (identifier : String)
      (catchBlock finallyBlock : StatementList Expr)

/-- `StatementList`; a block or a clause without one has an empty one. -/
inductive StatementList (Expr : Type u) where
  | nil
  | cons (statement : Statement Expr) (list : StatementList Expr)

/-- `CaseClauses` of the grammar (`parser.yy:1057-1087`). -/
inductive CaseClauses (Expr : Type u) where
  | nil
  | cons (expression : Expr) (list : StatementList Expr) (clauses : CaseClauses Expr)

/-- `CaseBlock` of the grammar (`parser.yy:1043-1055`). -/
inductive CaseBlock (Expr : Type u) where
  | withoutDefault (clauses : CaseClauses Expr)
  | withDefault (first : CaseClauses Expr) (default : StatementList Expr)
      (second : CaseClauses Expr)

end

/-- What the statements use of the rest: the evaluation of an expression to its value, or to a value
    that it throws, the conversions, and the scope chain. -/
structure Engine (Expr Value State : Type*) where
  evaluate : Expr → State → Except Value Value × State
  toBoolean : Value → Bool
  areStrictEqual : Value → Value → Bool
  undefined : Value
  /-- `toObject`, and a new `ExecutionContext` with the object. -/
  enterObject : Value → State → Except Value Unit × State
  /-- A new `ExecutionContext` with an object that has the property. -/
  enterProperty : String → Option Value → State → State
  /-- `delete context`. -/
  leave : State → State

/-- The state, and the expressions that have been evaluated. -/
structure Run (Expr State : Type*) where
  state : State
  trace : List Expr := []
deriving DecidableEq

/-- A part of an evaluation: its completion, if its loops have enough turns, and the run after it. -/
abbrev Step (Expr Value State : Type*) :=
  Run Expr State → Option (CompletionType Value) × Run Expr State

section

variable {Expr : Type u} {Value State : Type*}

namespace Step

def complete (c : CompletionType Value) : Step Expr Value State :=
  fun r => (some c, r)

/-- No turn is left. -/
def exhausted : Step Expr Value State :=
  fun r => (none, r)

/-- One part after the other. -/
def andThen (step : Step Expr Value State) (next : CompletionType Value → Step Expr Value State) :
    Step Expr Value State :=
  fun r => match step r with
    | (none, r) => (none, r)
    | (some c, r) => next c r

end Step

namespace Engine

/-- `expression->evaluate()->getValue()`, and what is done with the value. -/
def value (engine : Engine Expr Value State) (expression : Expr)
    (next : Value → Step Expr Value State) : Step Expr Value State :=
  fun r => match engine.evaluate expression r.state with
    | (.error thrown, state) => (some ⟨.throw, some thrown, none⟩, ⟨state, r.trace ++ [expression]⟩)
    | (.ok value, state) => next value ⟨state, r.trace ++ [expression]⟩

/-- An expression that may be left out, for its effect. -/
def optional (engine : Engine Expr Value State) (expression : Option Expr)
    (next : Step Expr Value State) : Step Expr Value State :=
  match expression with
  | none => next
  | some expression => engine.value expression fun _ => next

/-- A test that may be left out. -/
def optionalTest (engine : Engine Expr Value State) (expression : Option Expr)
    (next : Bool → Step Expr Value State) : Step Expr Value State :=
  match expression with
  | none => next true
  | some expression => engine.value expression fun v => next (engine.toBoolean v)

/-- A statement in the scope of an object. -/
def inObject (engine : Engine Expr Value State) (value : Value) (step : Step Expr Value State) :
    Step Expr Value State :=
  fun r => match engine.enterObject value r.state with
    | (.error thrown, state) => (some ⟨.throw, some thrown, none⟩, { r with state := state })
    | (.ok _, state) => match step { r with state := state } with
      | (none, r) => (none, r)
      | (some c, r) => (some c, { r with state := engine.leave r.state })

/-- A statement in the scope of a new object with one property. -/
def inProperty (engine : Engine Expr Value State) (identifier : String) (value : Option Value)
    (step : Step Expr Value State) : Step Expr Value State :=
  fun r => match step { r with state := engine.enterProperty identifier value r.state } with
    | (none, r) => (none, r)
    | (some c, r) => (some c, { r with state := engine.leave r.state })

end Engine

/-- The loop of `StatementList::evaluate` (`esjs.h:1924-1946`). -/
def StatementList.loop : List (Step Expr Value State) → Option Value → Step Expr Value State
  | [], value => .complete ⟨.normal, value, none⟩
  | element :: list, value => element.andThen fun result =>
    let value := result.value.or value
    if result.isThrow then .complete ⟨.throw, value, none⟩
    else if result.isAbrupt then .complete ⟨result.type, value, result.target⟩
    else loop list value

/-- The loop of `DoWhileStatement::evaluate` (`esjs.h:2244-2268`). -/
def doWhileLoop (engine : Engine Expr Value State) (statement : Step Expr Value State)
    (expression : Expr) : Nat → Option Value → Step Expr Value State
  | 0, _ => .exhausted
  | turns + 1, value => statement.andThen fun result =>
    let value := result.value.or value
    let test := engine.value expression fun v =>
      if engine.toBoolean v then doWhileLoop engine statement expression turns value
      else .complete ⟨.normal, value, none⟩
    if result.isContinue && result.target = none then test
    else if result.isBreak && result.target = none then .complete ⟨.normal, value, none⟩
    else if result.isAbrupt then .complete result
    else test

/-- The loop of `WhileStatement::evaluate` (`esjs.h:2300-2324`). -/
def whileLoop (engine : Engine Expr Value State) (expression : Expr)
    (statement : Step Expr Value State) : Nat → Option Value → Step Expr Value State
  | 0, _ => .exhausted
  | turns + 1, value => engine.value expression fun v =>
    if engine.toBoolean v then statement.andThen fun result =>
      let value := result.value.or value
      if result.isContinue && result.target = none then
        whileLoop engine expression statement turns value
      else if result.isBreak && result.target = none then .complete ⟨.normal, value, none⟩
      else if result.isAbrupt then .complete result
      else whileLoop engine expression statement turns value
    else .complete ⟨.normal, value, none⟩

/-- The loop of `ForStatement::evaluate` (`esjs.h:2371-2397`), behind its first expression. -/
def forLoop (engine : Engine Expr Value State) (second third : Option Expr)
    (statement : Step Expr Value State) : Nat → Option Value → Step Expr Value State
  | 0, _ => .exhausted
  | turns + 1, value => engine.optionalTest second fun test =>
    if test then statement.andThen fun result =>
      let value := result.value.or value
      let next := engine.optional third (forLoop engine second third statement turns value)
      if result.isBreak && result.target = none then .complete ⟨.normal, value, none⟩
      else if result.isContinue && result.target = none then next
      else if result.isAbrupt then .complete result
      else next
    else .complete ⟨.normal, value, none⟩

/-- What `LabelledStatement::evaluate` does with a completion (`esjs.h:2670-2675`). -/
def labelledResult (identifier : String) (again : Step Expr Value State)
    (result : CompletionType Value) : Step Expr Value State :=
  if result.isBreak && result.target = some identifier then
    .complete ⟨.normal, result.value, none⟩
  else if result.isContinue && result.target = some identifier then again
  else .complete result

/-- The loop of `LabelledStatement::evaluate` (`esjs.h:2664-2676`). -/
def labelledLoop (identifier : String) (statement : Step Expr Value State) :
    Nat → Step Expr Value State
  | 0 => statement.andThen (labelledResult identifier .exhausted)
  | turns + 1 =>
    statement.andThen (labelledResult identifier (labelledLoop identifier statement turns))

/-- A `CaseClause`: its expression, or none of a default, and its list. -/
abbrev CaseClause (Expr Value State : Type*) :=
  Option Expr × List (Step Expr Value State)

namespace CaseBlock

/-- The search of `CaseBlock::evaluate` (`esjs.h:2801-2827`): the clauses from the one that is taken
    on. -/
def find (engine : Engine Expr Value State) (param : Value)
    (next : List (CaseClause Expr Value State) → Step Expr Value State) :
    List (CaseClause Expr Value State) → List (CaseClause Expr Value State) → Step Expr Value State
  | [], defaultClause => next defaultClause
  | (none, list) :: clauses, _ => find engine param next clauses ((none, list) :: clauses)
  | (some expression, list) :: clauses, defaultClause => engine.value expression fun label =>
    if engine.areStrictEqual label param then next ((some expression, list) :: clauses)
    else find engine param next clauses defaultClause

/-- The clauses behind the one that is taken (`esjs.h:2844-2863`). -/
def rest : List (CaseClause Expr Value State) → Option Value → Step Expr Value State
  | [], value => .complete ⟨.normal, value, none⟩
  | (_, list) :: clauses, value => (StatementList.loop list none).andThen fun result =>
    let value := result.value.or value
    if result.isAbrupt then .complete { result with value := value }
    else rest clauses value

/-- The clauses from the one that is taken on (`esjs.h:2829-2863`). -/
def run : List (CaseClause Expr Value State) → Step Expr Value State
  | [] => .complete ⟨.normal, none, none⟩
  | (_, list) :: clauses => (StatementList.loop list none).andThen fun result =>
    if result.isAbrupt then .complete result else rest clauses result.value

end CaseBlock

/-- `SwitchStatement::evaluate` with its clauses (`esjs.h:2884-2893`). -/
def switchClauses (engine : Engine Expr Value State) (expression : Expr)
    (clauses : List (CaseClause Expr Value State)) : Step Expr Value State :=
  engine.value expression fun param =>
    (CaseBlock.find engine param CaseBlock.run clauses []).andThen fun result =>
      if result.isBreak && result.target = none then .complete { result with type := .normal }
      else .complete result

/-- `Catch::evaluate` behind a block (`esjs.h:2965-2984`, `esjs.h:3057-3071`). -/
def catchThrow (engine : Engine Expr Value State) (identifier : String)
    (block catchBlock : Step Expr Value State) : Step Expr Value State :=
  block.andThen fun c =>
    if c.isThrow then engine.inProperty identifier c.value catchBlock else .complete c

/-- `Finally::evaluate` behind the rest (`esjs.h:3072-3080`). -/
def finallyRun (step finallyBlock : Step Expr Value State) : Step Expr Value State :=
  step.andThen fun c => finallyBlock.andThen fun result =>
    if result.isAbrupt then .complete result else .complete c

mutual

/-- `evaluate()` of a statement, with a bound on the turns of every loop. -/
def Statement.evaluate (engine : Engine Expr Value State) (turns : Nat) :
    Statement Expr → Step Expr Value State
  | .block list => StatementList.loop (list.steps engine turns) none
  | .variableStatement list => engine.value list fun _ => .complete {}
  | .emptyStatement => .complete {}
  | .expressionStatement expression => engine.value expression fun v =>
    .complete ⟨.normal, some v, none⟩
  | .ifStatement condition consequent => engine.value condition fun v =>
    if engine.toBoolean v then consequent.evaluate engine turns else .complete {}
  | .ifElseStatement condition consequent otherwise => engine.value condition fun v =>
    if engine.toBoolean v then consequent.evaluate engine turns else otherwise.evaluate engine turns
  | .doWhileStatement statement expression =>
    doWhileLoop engine (statement.evaluate engine turns) expression turns none
  | .whileStatement expression statement =>
    whileLoop engine expression (statement.evaluate engine turns) turns none
  | .forStatement first second third statement =>
    engine.optional first
      (forLoop engine second third (statement.evaluate engine turns) turns none)
  | .continueStatement identifier => .complete ⟨.continue, none, identifier⟩
  | .breakStatement identifier => .complete ⟨.break, none, identifier⟩
  | .returnStatement none => .complete ⟨.return, some engine.undefined, none⟩
  | .returnStatement (some expression) => engine.value expression fun v =>
    .complete ⟨.return, some v, none⟩
  | .withStatement expression statement => engine.value expression fun v =>
    engine.inObject v (statement.evaluate engine turns)
  | .labelledStatement identifier statement =>
    labelledLoop identifier (statement.evaluate engine turns) turns
  | .switchStatement expression caseBlock =>
    switchClauses engine expression (caseBlock.steps engine turns)
  | .throwStatement expression => engine.value expression fun v =>
    .complete ⟨.throw, some v, none⟩
  | .tryCatch block identifier catchBlock =>
    catchThrow engine identifier (StatementList.loop (block.steps engine turns) none)
      (StatementList.loop (catchBlock.steps engine turns) none)
  | .tryFinally block finallyBlock =>
    finallyRun (StatementList.loop (block.steps engine turns) none)
      (StatementList.loop (finallyBlock.steps engine turns) none)
  | .tryCatchFinally block identifier catchBlock finallyBlock =>
    finallyRun
      (catchThrow engine identifier (StatementList.loop (block.steps engine turns) none)
        (StatementList.loop (catchBlock.steps engine turns) none))
      (StatementList.loop (finallyBlock.steps engine turns) none)

/-- The statements of a list. -/
def StatementList.steps (engine : Engine Expr Value State) (turns : Nat) :
    StatementList Expr → List (Step Expr Value State)
  | .nil => []
  | .cons statement list => statement.evaluate engine turns :: list.steps engine turns

/-- The clauses of a list. -/
def CaseClauses.steps (engine : Engine Expr Value State) (turns : Nat) :
    CaseClauses Expr → List (CaseClause Expr Value State)
  | .nil => []
  | .cons expression list clauses =>
    (some expression, list.steps engine turns) :: clauses.steps engine turns

/-- The clauses of a block, the default among them. -/
def CaseBlock.steps (engine : Engine Expr Value State) (turns : Nat) :
    CaseBlock Expr → List (CaseClause Expr Value State)
  | .withoutDefault clauses => clauses.steps engine turns
  | .withDefault first default second =>
    first.steps engine turns ++ (none, default.steps engine turns) :: second.steps engine turns

end

end

end EsOs.Esjs
