import Lox.Syntax.ExpressionParser
/-!
The grammar of statements. Each rule is written in terms of the two rules for nested statements,
`Forms`, which it only calls behind a token of its own; `nestedStatement` and `nestedDeclaration`
close the circle.
-/
namespace Lox.Parser

/-- What the rule for a statement builds on: a bound for its loops and expressions, and the rules
for nested statements, which may stand anywhere, and for nested declarations, which stand in
blocks. A declaration that could not be read is passed over, with a complaint. -/
structure Forms where
  bound : Nat
  statement : Parser RawStmt
  declaration : Parser (Option RawStmt)

/-- Declarations up to a closing brace or the end of the tokens. -/
def declarations (declaration : Parser (Option RawStmt)) : (bound : Nat) → Parser (List RawStmt)
  | 0 => return []
  | bound + 1 => do
    if (← next?).all (·.kind == .rightBrace) then return []
    else
      let first ← declaration
      return first.toList ++ (← declarations declaration bound)

def block (nested : Forms) : Parser (List RawStmt) := do
  let body ← declarations nested.declaration nested.bound
  let _ ← expect .rightBrace .blockEnd
  return body

def function (nested : Forms) (c : Callable) : Parser RawFunction := do
  let name ← expect .identifier (.callableName c)
  let _ ← expect .leftParen (.parameters c)
  let parameters ← list nested.bound .tooManyParameters (expect .identifier .parameterName)
  let _ ← expect .rightParen .parametersEnd
  let _ ← expect .leftBrace (.callableBody c)
  return .mk name parameters (← block nested)

def methods (nested : Forms) : (bound : Nat) → Parser (List RawFunction)
  | 0 => return []
  | bound + 1 => do
    if (← next?).all (·.kind == .rightBrace) then return []
    else
      let first ← function nested .method
      return first :: (← methods nested bound)

def superclassClause : Parser (Option (Superclass Unit)) := do
  match ← accept .less with
  | some _ => (fun name => some ⟨name, ()⟩) <$> expect .identifier .superclassName
  | none => return none

def classDeclaration (nested : Forms) (keyword : Token) : Parser RawStmt := do
  let name ← expect .identifier .className
  let superclass ← superclassClause
  let _ ← expect .leftBrace .classBody
  let methods ← methods nested nested.bound
  let _ ← expect .rightBrace .classEnd
  return .class_ keyword.line name superclass methods

def initializerClause (bound : Nat) : Parser (Option RawExpr) := do
  match ← accept .equal with
  | some _ => some <$> expression bound
  | none => return none

def varDeclaration (bound : Nat) : Parser RawStmt := do
  let name ← expect .identifier .variableName
  let initializer ← initializerClause bound
  let _ ← expect .semicolon .declarationEnd
  return .var name initializer

def expressionStatement (bound : Nat) : Parser RawStmt := do
  let line := ((← next?).map Token.line).getD 0
  let value ← expression bound
  let _ ← expect .semicolon .statementEnd
  return .expression line value

def desugarFor (line : Nat) (initializer : Option RawStmt) (condition increment : Option RawExpr)
    (body : RawStmt) : RawStmt :=
  let condition := condition.getD (.literal line (.bool true))
  let body :=
    match increment with
    | some increment => .block line [body, .expression line increment]
    | none => body
  .block line (initializer.toList ++ [.while_ line condition body])

/-- An expression, unless the next token is of the kind that ends its clause. -/
def optional (bound : Nat) (closing : Kind) : Parser (Option RawExpr) := do
  if ← nextIs closing then return none else some <$> expression bound

def forInitializer (bound : Nat) : Parser (Option RawStmt) := do
  match ← acceptIf fun k => k == .semicolon || k == .keyword .var with
  | some t => if t.kind = .semicolon then return none else some <$> varDeclaration bound
  | none => some <$> expressionStatement bound

def forStatement (nested : Forms) (keyword : Token) : Parser RawStmt := do
  let _ ← expect .leftParen .forClauses
  let initializer ← forInitializer nested.bound
  let condition ← optional nested.bound .semicolon
  let _ ← expect .semicolon .loopConditionEnd
  let increment ← optional nested.bound .rightParen
  let _ ← expect .rightParen .forClausesEnd
  return desugarFor keyword.line initializer condition increment (← nested.statement)

/-- An `else` belongs to the closest `if` before it. -/
def ifStatement (nested : Forms) (keyword : Token) : Parser RawStmt := do
  let _ ← expect .leftParen .ifCondition
  let condition ← expression nested.bound
  let _ ← expect .rightParen .ifConditionEnd
  let thenBranch ← nested.statement
  match ← accept (.keyword .else_) with
  | some _ => return .ifElse keyword.line condition thenBranch (← nested.statement)
  | none => return .ifThen keyword.line condition thenBranch

def printStatement (bound : Nat) (keyword : Token) : Parser RawStmt := do
  let value ← expression bound
  let _ ← expect .semicolon .printEnd
  return .print keyword.line value

def returnStatement (bound : Nat) (keyword : Token) : Parser RawStmt := do
  let value ← optional bound .semicolon
  let _ ← expect .semicolon .returnEnd
  return .return_ keyword value

def whileStatement (nested : Forms) (keyword : Token) : Parser RawStmt := do
  let _ ← expect .leftParen .whileCondition
  let condition ← expression nested.bound
  let _ ← expect .rightParen .whileConditionEnd
  return .while_ keyword.line condition (← nested.statement)

def startsPlainStatement (k : Kind) : Bool :=
  k == .keyword .for_ || k == .keyword .if_ || k == .keyword .print || k == .keyword .return_ ||
    k == .keyword .while_ || k == .leftBrace

def statement (nested : Forms) : Parser RawStmt := do
  match ← acceptIf startsPlainStatement with
  | none => expressionStatement nested.bound
  | some t =>
    match t.kind with
    | .keyword .for_ => forStatement nested t
    | .keyword .if_ => ifStatement nested t
    | .keyword .print => printStatement nested.bound t
    | .keyword .return_ => returnStatement nested.bound t
    | .keyword .while_ => whileStatement nested t
    | _ => return .block t.line (← block nested)

def startsDeclaration (k : Kind) : Bool :=
  k == .keyword .class_ || k == .keyword .fun_ || k == .keyword .var

def declaration (nested : Forms) : Parser RawStmt := do
  match ← acceptIf startsDeclaration with
  | none => statement nested
  | some t =>
    match t.kind with
    | .keyword .class_ => classDeclaration nested t
    | .keyword .fun_ => .function <$> function nested .function
    | _ => varDeclaration nested.bound

mutual

/-- A statement. Where no token is left, every statement fails like the one of bound 0. -/
def nestedStatement : (bound : Nat) → Parser RawStmt
  | 0 => fail (.expected .expression)
  | bound + 1 => statement ⟨bound + 1, nestedStatement bound, nestedDeclaration bound⟩

def nestedDeclaration : (bound : Nat) → Parser (Option RawStmt)
  | 0 => recover (fail (.expected .expression))
  | bound + 1 => recover (declaration ⟨bound + 1, nestedStatement bound, nestedDeclaration bound⟩)

end

def program (declaration : Parser (Option RawStmt)) : (bound : Nat) → Parser (List RawStmt)
  | 0 => return []
  | bound + 1 => do
    if (← next?).isNone then return []
    else
      let first ← declaration
      return first.toList ++ (← program declaration bound)

end Lox.Parser

namespace Lox

structure Parse (α : Type) where
  value : α
  complaints : List Complaint

namespace Parse

def errors {α : Type} (finish : Nat) (p : Parse α) : List StaticError :=
  p.complaints.map (Complaint.toStaticError finish)

def program (tokens : List Token) : Parse (List RawStmt) :=
  let n := tokens.length
  match (Parser.program (Parser.nestedDeclaration n) n).run ⟨tokens, []⟩ with
  | .ok statements s => ⟨statements, s.complaints.reverse⟩
  | .error _ s => ⟨[], s.complaints.reverse⟩

def expression (tokens : List Token) : Parse (Option RawExpr) :=
  match (Parser.soleExpression tokens.length).run ⟨tokens, []⟩ with
  | .ok e s => ⟨some e, s.complaints.reverse⟩
  | .error _ s => ⟨none, s.complaints.reverse⟩

end Parse
end Lox
