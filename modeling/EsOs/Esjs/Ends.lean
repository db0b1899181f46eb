import EsOs.Esjs.Statement

/-!
# How a statement can end

The completions that a statement can have when every expression may give any value or throw. A label
before a loop resolves where the body of the loop cannot end with a break or a continue to it, and a
label before another statement where that cannot end with a continue to it.
-/

namespace EsOs.Esjs

universe u

/-- A type and a target that go together. -/
inductive Ending where
  | normal
  | break (target : Option String)
  | continue (target : Option String)
  | return
  | throw
deriving DecidableEq

/-- A set of endings. -/
abbrev Ends := Ending → Bool

namespace Ends

/-- Behind the evaluation of an expression. -/
def value (next : Ends) : Ends :=
  fun e => e = .throw || next e

/-- Behind an expression that may be left out. -/
def optional (present : Bool) (next : Ends) : Ends :=
  if present then value next else next

/-- Of statements one after the other. -/
def list : List Ends → Ends
  | [] => fun e => e = .normal
  | k :: l => fun e => (e ≠ .normal && k e) || (k .normal && list l e)

/-- Of a loop, with a completion of its body. -/
def outOf (body : Ends) : Ends :=
  fun e => e ≠ .normal && e ≠ .break none && e ≠ .continue none && body e

/-- The body of a loop is followed by another turn. -/
def goesOn (body : Ends) : Bool :=
  body .normal || body (.continue none)

def doWhile (body : Ends) : Ends :=
  fun e => outOf body e || (e = .normal && (goesOn body || body (.break none))) ||
    (e = .throw && goesOn body)

def whileDo (body : Ends) : Ends :=
  fun e => outOf body e || e = .normal || e = .throw

def forDo (second third : Bool) (body : Ends) : Ends :=
  fun e => outOf body e || (e = .normal && (second || body (.break none))) ||
    (e = .throw && (second || (third && goesOn body)))

def labelled (identifier : String) (statement : Ends) : Ends :=
  fun e => (e ≠ .break (some identifier) && e ≠ .continue (some identifier) && statement e) ||
    (e = .normal && statement (.break (some identifier)))

/-- Of the clauses from any of them on. -/
def anyTail : List Ends → Ends
  | [] => fun _ => false
  | k :: l => fun e => list (k :: l) e || anyTail l e

def switchOn (hasDefault : Bool) (clauses : List Ends) : Ends :=
  fun e => e = .throw || (e ≠ .break none && anyTail clauses e) ||
    (e = .normal && (!hasDefault || anyTail clauses (.break none)))

def tryThen (block catchBlock : Ends) : Ends :=
  fun e => (e ≠ .throw && block e) || (block .throw && catchBlock e)

def finally_ (statement finallyBlock : Ends) : Ends :=
  fun e => (e ≠ .normal && finallyBlock e) || (finallyBlock .normal && statement e)

end Ends

variable {Expr : Type u}

mutual

/-- The endings of a statement. -/
def Statement.ends : Statement Expr → Ends
  | .block list => Ends.list list.ends
  | .variableStatement _ => Ends.value fun e => e = .normal
  | .emptyStatement => fun e => e = .normal
  | .expressionStatement _ => Ends.value fun e => e = .normal
  | .ifStatement _ consequent => Ends.value fun e => e = .normal || consequent.ends e
  | .ifElseStatement _ consequent otherwise =>
    Ends.value fun e => consequent.ends e || otherwise.ends e
  | .doWhileStatement statement _ => Ends.doWhile statement.ends
  | .whileStatement _ statement => Ends.whileDo statement.ends
  | .forStatement first second third statement =>
    Ends.optional first.isSome (Ends.forDo second.isSome third.isSome statement.ends)
  | .continueStatement identifier => fun e => e = .continue identifier
  | .breakStatement identifier => fun e => e = .break identifier
  | .returnStatement none => fun e => e = .return
  | .returnStatement (some _) => Ends.value fun e => e = .return
  | .withStatement _ statement => Ends.value statement.ends
  | .labelledStatement identifier statement => Ends.labelled identifier statement.ends
  | .switchStatement _ (.withoutDefault clauses) => Ends.switchOn false clauses.ends
  | .switchStatement _ (.withDefault first default second) =>
    Ends.switchOn true (first.ends ++ Ends.list default.ends :: second.ends)
  | .throwStatement _ => fun e => e = .throw
  | .tryCatch block _ catchBlock => Ends.tryThen (Ends.list block.ends) (Ends.list catchBlock.ends)
  | .tryFinally block finallyBlock =>
    Ends.finally_ (Ends.list block.ends) (Ends.list finallyBlock.ends)
  | .tryCatchFinally block _ catchBlock finallyBlock =>
    Ends.finally_ (Ends.tryThen (Ends.list block.ends) (Ends.list catchBlock.ends))
      (Ends.list finallyBlock.ends)

/-- The endings of the statements of a list. -/
def StatementList.ends : StatementList Expr → List Ends
  | .nil => []
  | .cons statement list => statement.ends :: list.ends

/-- The endings of the lists of the clauses. -/
def CaseClauses.ends : CaseClauses Expr → List Ends
  | .nil => []
  | .cons _ list clauses => Ends.list list.ends :: clauses.ends

end

/-- The endings of the body of a loop, behind labels. -/
def Statement.bodyEnds : Statement Expr → Option Ends
  | .doWhileStatement statement _ => some statement.ends
  | .whileStatement _ statement => some statement.ends
  | .forStatement _ _ _ statement => some statement.ends
  | .labelledStatement _ statement => statement.bodyEnds
  | _ => none

/-- A label before a statement resolves. -/
def Statement.resolves (identifier : String) (statement : Statement Expr) : Bool :=
  match statement.bodyEnds with
  | some body => !body (.break (some identifier)) && !body (.continue (some identifier))
  | none => !statement.ends (.continue (some identifier))

mutual

/-- Every label in a statement resolves. -/
def Statement.labelsResolve : Statement Expr → Bool
  | .block list => list.labelsResolve
  | .variableStatement _ => true
  | .emptyStatement => true
  | .expressionStatement _ => true
  | .ifStatement _ consequent => consequent.labelsResolve
  | .ifElseStatement _ consequent otherwise => consequent.labelsResolve && otherwise.labelsResolve
  | .doWhileStatement statement _ => statement.labelsResolve
  | .whileStatement _ statement => statement.labelsResolve
  | .forStatement _ _ _ statement => statement.labelsResolve
  | .continueStatement _ => true
  | .breakStatement _ => true
  | .returnStatement _ => true
  | .withStatement _ statement => statement.labelsResolve
  | .labelledStatement identifier statement =>
    statement.resolves identifier && statement.labelsResolve
  | .switchStatement _ caseBlock => caseBlock.labelsResolve
  | .throwStatement _ => true
  | .tryCatch block _ catchBlock => block.labelsResolve && catchBlock.labelsResolve
  | .tryFinally block finallyBlock => block.labelsResolve && finallyBlock.labelsResolve
  | .tryCatchFinally block _ catchBlock finallyBlock =>
    block.labelsResolve && catchBlock.labelsResolve && finallyBlock.labelsResolve

def StatementList.labelsResolve : StatementList Expr → Bool
  | .nil => true
  | .cons statement list => statement.labelsResolve && list.labelsResolve

def CaseClauses.labelsResolve : CaseClauses Expr → Bool
  | .nil => true
  | .cons _ list clauses => list.labelsResolve && clauses.labelsResolve

def CaseBlock.labelsResolve : CaseBlock Expr → Bool
  | .withoutDefault clauses => clauses.labelsResolve
  | .withDefault first default second =>
    first.labelsResolve && default.labelsResolve && second.labelsResolve

end

end EsOs.Esjs
