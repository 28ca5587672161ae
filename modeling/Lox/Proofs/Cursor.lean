import Lox.Syntax.StatementParser
/-!
The parser as a program over positions. It holds the whole text, at whose length the end stands,
and moves a position through it; its loops and its nested rules go on without a bound. What it
must never do is an outcome of its own: to look outside the text, and to start on a further turn,
on a nested rule or on the next statement without having moved towards the end.
-/
namespace Lox

structure Cursor (text : List Token) where
  position : Nat
  /-- Newest first. -/
  complaints : List Complaint

namespace Cursor

/-- What a parser must never do. -/
inductive Stray
  | outside
  | idle

variable {text : List Token} {α : Type}

/-- A rule either goes astray or ends: with a value, or by giving up with a complaint made. -/
abbrev Rule (text : List Token) (α : Type) := ExceptT Unit (StateT (Cursor text) (Except Stray)) α

def stray (s : Stray) : Rule text α := fun _ => .error s

/-- The token at the position, or none where the end stands. -/
def current : Rule text (Option Token) := do
  let c ← get
  if c.position = text.length then return none
  else match text[c.position]? with
    | some t => return some t
    | none => stray .outside

def previous : Rule text Token := do
  match (← get).position with
  | 0 => stray .outside
  | p + 1 =>
    match text[p]? with
    | some t => return t
    | none => stray .outside

def advance : Rule text Unit := do
  if (← current).isSome then modify fun c => { c with position := c.position + 1 }

def complainAt (t : Option Token) (problem : Problem) : Rule text Unit :=
  modify fun c => { c with complaints := ⟨t, problem⟩ :: c.complaints }

def complain (problem : Problem) : Rule text Unit := do complainAt (← current) problem

def fail (problem : Problem) : Rule text α := do
  complain problem
  throw ()

def nextIs (kind : Kind) : Rule text Bool := return (← current).any (·.kind == kind)

def acceptIf (test : Kind → Bool) : Rule text (Option Token) := do
  match ← current with
  | some t => if test t.kind then advance; return some t else return none
  | none => return none

def accept (kind : Kind) : Rule text (Option Token) := acceptIf (· == kind)

def expect (kind : Kind) (what : Expected) : Rule text Token := do
  match ← accept kind with
  | some t => return t
  | none => fail (.expected what)

/-- From one position to another, towards the end and not past it. -/
def Onward (text : List Token) (p q : Nat) : Prop := p < q ∧ q ≤ text.length

instance (p q : Nat) : Decidable (Onward text p q) := inferInstanceAs (Decidable (_ ∧ _))

/-- Rules that call each other again and again, without a bound. A call that has not moved on from
where its caller began is idle. -/
def again {ι : Type} {α : ι → Type} (rule : ((i : ι) → Rule text (α i)) → (i : ι) → Rule text (α i))
    (i : ι) (c : Cursor text) : Except Stray (Except Unit (α i) × Cursor text) :=
  rule (fun i d => if Onward text c.position d.position then again rule i d else .error .idle) i c
termination_by text.length - c.position
decreasing_by rename_i h; have := h.1; have := h.2; omega

def repeated (rule : Rule text α → Rule text α) : Rule text α :=
  again (fun (next : Unit → Rule text α) _ => rule (next ())) ()

def commaSeparated (excess : Problem) (item : Rule text α) : Nat → Rule text (List α) :=
  again fun next taken => do
    if maxArity ≤ taken then complain excess
    let first ← item
    match ← accept .comma with
    | some _ => return first :: (← next (taken + 1))
    | none => return [first]

def list (excess : Problem) (item : Rule text α) : Rule text (List α) := do
  if ← nextIs .rightParen then return [] else commaSeparated excess item 0

/-- Goes on to where a semicolon was taken or a token stands that starts a statement. -/
def skip : Rule text Unit :=
  repeated fun next => do
    match ← current with
    | none => return ()
    | some t =>
      if (← previous).kind = .semicolon ∨ Parser.startsStatement t.kind then return ()
      else
        advance
        next

def synchronize : Rule text Unit := do
  advance
  skip

/-- Reads on at the next statement where a rule was given up: behind the token that the rule was
given up at, or at the end. -/
def recover (rule : Rule text α) : Rule text (Option α) :=
  tryCatch (some <$> rule) fun _ => do
    let c ← get
    synchronize
    let d ← get
    if c.position < d.position ∨ d.position = text.length then return none else stray .idle

/-! Expressions -/

def primary (nested : Rule text RawExpr) : Rule text RawExpr := do
  let some t ← current | fail (.expected .expression)
  match t.kind with
  | .literal value => advance; return .literal t.line value
  | .keyword .this => advance; return .this t ()
  | .identifier => advance; return .read t ()
  | .keyword .super =>
    advance
    let _ ← expect .dot .superDot
    return .super t () (← expect .identifier .superMethodName)
  | .leftParen =>
    advance
    let inner ← nested
    let _ ← expect .rightParen .groupEnd
    return .grouping t.line inner
  | _ => fail (.expected .expression)

def suffixes (nested : Rule text RawExpr) : RawExpr → Rule text RawExpr :=
  again fun next callee => do
    match ← acceptIf fun k => k == .leftParen || k == .dot with
    | none => return callee
    | some t =>
      if t.kind = .leftParen then
        let arguments ← list .tooManyArguments nested
        let paren ← expect .rightParen .argumentsEnd
        next (.call callee paren arguments)
      else
        let name ← expect .identifier .propertyName
        next (.get callee name)

def call (nested : Rule text RawExpr) : Rule text RawExpr := do
  suffixes nested (← primary nested)

def unary (operand : Rule text RawExpr) : Rule text RawExpr :=
  repeated fun next => do
    match ← acceptIf Parser.isUnary with
    | some operator => return .unary operator (← next)
    | none => operand

def chain (level : Parser.Level) (operand : Rule text RawExpr) : RawExpr → Rule text RawExpr :=
  again fun next left => do
    match ← acceptIf level.test with
    | none => return left
    | some operator => next (level.build left operator (← operand))

def level (l : Parser.Level) (operand : Rule text RawExpr) : Rule text RawExpr := do
  chain l operand (← operand)

def operation (nested : Rule text RawExpr) : Rule text RawExpr :=
  Parser.Level.all.foldl (fun operand l => level l operand) (unary (call nested))

def assignment (nested : Rule text RawExpr) : Rule text RawExpr := do
  let left ← operation nested
  match ← accept .equal with
  | none => return left
  | some equals =>
    let value ← nested
    match Parser.assignTo equals.line value left with
    | some assigned => return assigned
    | none =>
      complainAt (some equals) .invalidAssignmentTarget
      return left

def expression : Rule text RawExpr := repeated assignment

def soleExpression : Rule text RawExpr := do
  let e ← expression
  if (← current).isSome then fail (.expected .expressionEnd)
  return e

/-- The text as one expression, if it is one. -/
def bareExpression : Rule text (Option RawExpr) :=
  tryCatch (some <$> soleExpression) fun _ => return none

/-! Statements -/

structure Forms (text : List Token) where
  statement : Rule text RawStmt
  declaration : Rule text (Option RawStmt)

def declarations (declaration : Rule text (Option RawStmt)) : Rule text (List RawStmt) :=
  repeated fun next => do
    if (← current).all (·.kind == .rightBrace) then return []
    else
      let first ← declaration
      return first.toList ++ (← next)

def block (nested : Forms text) : Rule text (List RawStmt) := do
  let body ← declarations nested.declaration
  let _ ← expect .rightBrace .blockEnd
  return body

def function (nested : Forms text) (c : Callable) : Rule text RawFunction := do
  let name ← expect .identifier (.callableName c)
  let _ ← expect .leftParen (.parameters c)
  let parameters ← list .tooManyParameters (expect .identifier .parameterName)
  let _ ← expect .rightParen .parametersEnd
  let _ ← expect .leftBrace (.callableBody c)
  return .mk name parameters (← block nested)

def methods (nested : Forms text) : Rule text (List RawFunction) :=
  repeated fun next => do
    if (← current).all (·.kind == .rightBrace) then return []
    else
      let first ← function nested .method
      return first :: (← next)

def superclassClause : Rule text (Option (Superclass Unit)) := do
  match ← accept .less with
  | some _ => (fun name => some ⟨name, ()⟩) <$> expect .identifier .superclassName
  | none => return none

def classDeclaration (nested : Forms text) (keyword : Token) : Rule text RawStmt := do
  let name ← expect .identifier .className
  let superclass ← superclassClause
  let _ ← expect .leftBrace .classBody
  let methods ← methods nested
  let _ ← expect .rightBrace .classEnd
  return .class_ keyword.line name superclass methods

def initializerClause : Rule text (Option RawExpr) := do
  match ← accept .equal with
  | some _ => some <$> expression
  | none => return none

def varDeclaration : Rule text RawStmt := do
  let name ← expect .identifier .variableName
  let initializer ← initializerClause
  let _ ← expect .semicolon .declarationEnd
  return .var name initializer

def expressionStatement : Rule text RawStmt := do
  let line := ((← current).map Token.line).getD 0
  let value ← expression
  let _ ← expect .semicolon .statementEnd
  return .expression line value

def optional (closing : Kind) : Rule text (Option RawExpr) := do
  if ← nextIs closing then return none else some <$> expression

def forInitializer : Rule text (Option RawStmt) := do
  match ← acceptIf fun k => k == .semicolon || k == .keyword .var with
  | some t => if t.kind = .semicolon then return none else some <$> varDeclaration
  | none => some <$> expressionStatement

def forStatement (nested : Forms text) (keyword : Token) : Rule text RawStmt := do
  let _ ← expect .leftParen .forClauses
  let initializer ← forInitializer
  let condition ← optional .semicolon
  let _ ← expect .semicolon .loopConditionEnd
  let increment ← optional .rightParen
  let _ ← expect .rightParen .forClausesEnd
  return Parser.desugarFor keyword.line initializer condition increment (← nested.statement)

def ifStatement (nested : Forms text) (keyword : Token) : Rule text RawStmt := do
  let _ ← expect .leftParen .ifCondition
  let condition ← expression
  let _ ← expect .rightParen .ifConditionEnd
  let thenBranch ← nested.statement
  match ← accept (.keyword .else_) with
  | some _ => return .ifElse keyword.line condition thenBranch (← nested.statement)
  | none => return .ifThen keyword.line condition thenBranch

def printStatement (keyword : Token) : Rule text RawStmt := do
  let value ← expression
  let _ ← expect .semicolon .printEnd
  return .print keyword.line value

def returnStatement (keyword : Token) : Rule text RawStmt := do
  let value ← optional .semicolon
  let _ ← expect .semicolon .returnEnd
  return .return_ keyword value

def whileStatement (nested : Forms text) (keyword : Token) : Rule text RawStmt := do
  let _ ← expect .leftParen .whileCondition
  let condition ← expression
  let _ ← expect .rightParen .whileConditionEnd
  return .while_ keyword.line condition (← nested.statement)

def statement (nested : Forms text) : Rule text RawStmt := do
  match ← acceptIf Parser.startsPlainStatement with
  | none => expressionStatement
  | some t =>
    match t.kind with
    | .keyword .for_ => forStatement nested t
    | .keyword .if_ => ifStatement nested t
    | .keyword .print => printStatement t
    | .keyword .return_ => returnStatement t
    | .keyword .while_ => whileStatement nested t
    | _ => return .block t.line (← block nested)

def declaration (nested : Forms text) : Rule text RawStmt := do
  match ← acceptIf Parser.startsDeclaration with
  | none => statement nested
  | some t =>
    match t.kind with
    | .keyword .class_ => classDeclaration nested t
    | .keyword .fun_ => .function <$> function nested .function
    | _ => varDeclaration

/-- The two rules that nest in each other. -/
inductive Form
  | statement
  | declaration

def Form.Tree : Form → Type
  | statement => RawStmt
  | declaration => Option RawStmt

def form : (f : Form) → Rule text f.Tree :=
  again fun nested f =>
    match f with
    | .statement => Cursor.statement ⟨nested .statement, nested .declaration⟩
    | .declaration => recover (Cursor.declaration ⟨nested .statement, nested .declaration⟩)

def program : Rule text (List RawStmt) :=
  repeated fun next => do
    if (← current).isNone then return []
    else
      let first ← form .declaration
      return first.toList ++ (← next)

end Cursor
end Lox
