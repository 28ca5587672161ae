import Lox.Syntax.Parser
/-!
The grammar of expressions. Each rule is written in terms of the rule for a whole expression,
`nested`, which it only calls behind a token of its own; `expression` closes the circle.
-/
namespace Lox.Parser

def primary (nested : Parser RawExpr) : Parser RawExpr := do
  let some t ← next? | fail (.expected .expression)
  match t.kind with
  | .literal value => advance; return .literal t.line value
  | .keyword .this => advance; return .this t ()
  | .identifier => advance; return .read t ()
  | .keyword .super =>
    advance
    let _ ← expect .dot .superDot
    return .super t () (← expect .identifier .superMethodName)
  | .leftParen =>
    advance
    let inner ← nested
    let _ ← expect .rightParen .groupEnd
    return .grouping t.line inner
  | _ => fail (.expected .expression)

/-- What a callee is followed by: any number of argument lists and property names. -/
def suffixes (nested : Parser RawExpr) (callee : RawExpr) : (bound : Nat) → Parser RawExpr
  | 0 => return callee
  | bound + 1 => do
    match ← acceptIf fun k => k == .leftParen || k == .dot with
    | none => return callee
    | some t =>
      if t.kind = .leftParen then
        let arguments ← list bound .tooManyArguments nested
        let paren ← expect .rightParen .argumentsEnd
        suffixes nested (.call callee paren arguments) bound
      else
        let name ← expect .identifier .propertyName
        suffixes nested (.get callee name) bound

def call (bound : Nat) (nested : Parser RawExpr) : Parser RawExpr := do
  suffixes nested (← primary nested) bound

def isUnary (k : Kind) : Bool := k == .bang || k == .minus

def unary (operand : Parser RawExpr) : (bound : Nat) → Parser RawExpr
  | 0 => operand
  | bound + 1 => do
    match ← acceptIf isUnary with
    | some operator => return .unary operator (← unary operand bound)
    | none => operand

/-- Binary operators of one precedence and the form that they build. -/
structure Level where
  test : Kind → Bool
  build : RawExpr → Token → RawExpr → RawExpr

namespace Level

/-- What an operand is followed by: any number of operators of the level, each with an operand. -/
def chain (level : Level) (operand : Parser RawExpr) (left : RawExpr) :
    (bound : Nat) → Parser RawExpr
  | 0 => return left
  | bound + 1 => do
    match ← acceptIf level.test with
    | none => return left
    | some operator => chain level operand (level.build left operator (← operand)) bound

def parser (level : Level) (bound : Nat) (operand : Parser RawExpr) : Parser RawExpr := do
  level.chain operand (← operand) bound

def factor : Level := ⟨fun k => k == .slash || k == .star, .binary⟩
def term : Level := ⟨fun k => k == .minus || k == .plus, .binary⟩
def comparison : Level :=
  ⟨fun k => k == .greater || k == .greaterEqual || k == .less || k == .lessEqual, .binary⟩
def equality : Level := ⟨fun k => k == .notEqual || k == .equalEqual, .binary⟩
def conjunction : Level := ⟨(· == .keyword .and_), .logical⟩
def disjunction : Level := ⟨(· == .keyword .or_), .logical⟩

/-- From the level that binds closest. -/
def all : List Level := [factor, term, comparison, equality, conjunction, disjunction]

end Level

/-- Expressions without an assignment at the top. -/
def operation (bound : Nat) (nested : Parser RawExpr) : Parser RawExpr :=
  Level.all.foldl (fun operand level => level.parser bound operand)
    (unary (call bound nested) bound)

def assignTo (line : Nat) (value : RawExpr) : RawExpr → Option RawExpr
  | .read name target => some (.assign line name target value)
  | .get object name => some (.set line object name value)
  | _ => none

/-- An expression that cannot be assigned to is kept without the value, and complained about. -/
def assignment (bound : Nat) (nested : Parser RawExpr) : Parser RawExpr := do
  let left ← operation bound nested
  match ← accept .equal with
  | none => return left
  | some equals =>
    let value ← nested
    match assignTo equals.line value left with
    | some assigned => return assigned
    | none =>
      complainAt (some equals) .invalidAssignmentTarget
      return left

/-- An expression. Where no token is left, every expression fails like the one of bound 0. -/
def expression : (bound : Nat) → Parser RawExpr
  | 0 => fail (.expected .expression)
  | bound + 1 => assignment (bound + 1) (expression bound)

def soleExpression (bound : Nat) : Parser RawExpr := do
  let e ← expression bound
  if (← next?).isSome then fail (.expected .expressionEnd)
  return e

end Lox.Parser
