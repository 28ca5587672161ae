import Lox.Proofs.Lines
import Lox.Proofs.Grammar

/-! Trees that can be written down as they are, and the tokens they are written with. Parentheses
are printed for groupings only, so every operand has to bind as closely as its place asks for. -/

namespace Lox

namespace Expr

def rank {ρ : Type} : Expr ρ → Nat
  | unary .. => 1
  | binary _ operator _ | logical _ operator _ => operator.kind.rank
  | assign .. | set .. => 8
  | _ => 0

/-- Every operand binds closely enough for its place: operators of one rank associate to the left,
assignments and signs to the right. -/
inductive WellFormed : RawExpr → Prop
  | literal {line : Nat} {value : Literal} : WellFormed (literal line value)
  | grouping {line : Nat} {inner : RawExpr} (inside : WellFormed inner) :
    WellFormed (grouping line inner)
  | unary {operator : Token} {right : RawExpr}
    (sign : operator.kind = .bang ∨ operator.kind = .minus)
    (operand : WellFormed right) (closely : right.rank ≤ 1) : WellFormed (unary operator right)
  | binary {left right : RawExpr} {operator : Token}
    (lowest : 2 ≤ operator.kind.rank) (highest : operator.kind.rank ≤ 5)
    (before : WellFormed left) (loosely : left.rank ≤ operator.kind.rank)
    (behind : WellFormed right) (closely : right.rank < operator.kind.rank) :
    WellFormed (binary left operator right)
  | logical {left right : RawExpr} {operator : Token}
    (lowest : 6 ≤ operator.kind.rank) (highest : operator.kind.rank ≤ 7)
    (before : WellFormed left) (loosely : left.rank ≤ operator.kind.rank)
    (behind : WellFormed right) (closely : right.rank < operator.kind.rank) :
    WellFormed (logical left operator right)
  | read {name : Token} (named : name.kind = .identifier) : WellFormed (read name ())
  | assign {line : Nat} {name : Token} {value : RawExpr} (named : name.kind = .identifier)
    (assigned : WellFormed value) : WellFormed (assign line name () value)
  | call {callee : RawExpr} {paren : Token} {arguments : List RawExpr}
    (called : WellFormed callee) (closely : callee.rank = 0) (closed : paren.kind = .rightParen)
    (few : arguments.length ≤ maxArity) (inside : ∀ e ∈ arguments, WellFormed e) :
    WellFormed (call callee paren arguments)
  | get {object : RawExpr} {name : Token} (owner : WellFormed object) (closely : object.rank = 0)
    (named : name.kind = .identifier) : WellFormed (get object name)
  | set {line : Nat} {object value : RawExpr} {name : Token} (owner : WellFormed object)
    (closely : object.rank = 0) (named : name.kind = .identifier) (assigned : WellFormed value) :
    WellFormed (set line object name value)
  | this {keyword : Token} (spelled : keyword.kind = .keyword .this) : WellFormed (this keyword ())
  | super {keyword method : Token} (spelled : keyword.kind = .keyword .super)
    (named : method.kind = .identifier) : WellFormed (super keyword () method)

end Expr

namespace Stmt
variable {ρ : Type}

def IsDeclaration : Stmt ρ → Prop
  | var .. | function .. | class_ .. => True
  | _ => False

/-- An `else` behind the statement would belong to it. -/
def EndsOpen : Stmt ρ → Prop
  | ifThen .. => True
  | ifElse _ _ _ elseBranch => EndsOpen elseBranch
  | while_ _ _ body => EndsOpen body
  | _ => False

mutual

inductive WellFormed : RawStmt → Prop
  | expression {line : Nat} {value : RawExpr} (inside : value.WellFormed) :
    WellFormed (expression line value)
  | print {line : Nat} {value : RawExpr} (inside : value.WellFormed) :
    WellFormed (print line value)
  | var {name : Token} {initializer : Option RawExpr} (named : name.kind = .identifier)
    (inside : ∀ e ∈ initializer, e.WellFormed) : WellFormed (var name initializer)
  | block {line : Nat} {body : List RawStmt} (inside : ∀ s ∈ body, WellFormed s) :
    WellFormed (block line body)
  | ifThen {line : Nat} {condition : RawExpr} {thenBranch : RawStmt}
    (tested : condition.WellFormed) (inside : WellFormed thenBranch)
    (plain : ¬thenBranch.IsDeclaration) : WellFormed (ifThen line condition thenBranch)
  | ifElse {line : Nat} {condition : RawExpr} {thenBranch elseBranch : RawStmt}
    (tested : condition.WellFormed) (inside : WellFormed thenBranch)
    (plain : ¬thenBranch.IsDeclaration) (closed : ¬thenBranch.EndsOpen)
    (otherwise : WellFormed elseBranch) (otherwisePlain : ¬elseBranch.IsDeclaration) :
    WellFormed (ifElse line condition thenBranch elseBranch)
  | while_ {line : Nat} {condition : RawExpr} {body : RawStmt} (tested : condition.WellFormed)
    (inside : WellFormed body) (plain : ¬body.IsDeclaration) :
    WellFormed (while_ line condition body)
  | function {f : RawFunction} (inside : WellFormedFunction f) : WellFormed (function f)
  | return_ {keyword : Token} {value : Option RawExpr}
    (spelled : keyword.kind = .keyword .return_) (inside : ∀ e ∈ value, e.WellFormed) :
    WellFormed (return_ keyword value)
  | class_ {line : Nat} {name : Token} {superclass : Option (Superclass Unit)}
    {methods : List RawFunction} (named : name.kind = .identifier)
    (above : ∀ c ∈ superclass, c.name.kind = .identifier)
    (inside : ∀ f ∈ methods, WellFormedFunction f) :
    WellFormed (class_ line name superclass methods)

inductive WellFormedFunction : RawFunction → Prop
  | mk {name : Token} {parameters : List Token} {body : List RawStmt}
    (named : name.kind = .identifier) (few : parameters.length ≤ maxArity)
    (inputs : ∀ t ∈ parameters, t.kind = .identifier) (inside : ∀ s ∈ body, WellFormed s) :
    WellFormedFunction (.mk name parameters body)

end
end Stmt

/-- How the tokens are written that a tree does not keep. Each is printed on behalf of a node, whose
line may tell where to put it. -/
structure Printer where
  token : Kind → Nat → Token
  kind_token (kind : Kind) (line : Nat) : (token kind line).kind = kind

namespace Printer
variable (p : Printer)

attribute [simp] kind_token

def separated (line : Nat) (items : List (List Token)) : List Token :=
  [p.token .comma line].intercalate items

mutual

def expr : RawExpr → List Token
  | .literal line value => [p.token (.literal value) line]
  | .grouping line inner => p.token .leftParen line :: (expr inner ++ [p.token .rightParen line])
  | .unary operator right => operator :: expr right
  | .binary left operator right | .logical left operator right =>
    expr left ++ operator :: expr right
  | .read name _ => [name]
  | .assign line name _ value => name :: p.token .equal line :: expr value
  | .call callee paren arguments =>
    expr callee ++
      p.token .leftParen paren.line :: (p.separated paren.line (exprList arguments) ++ [paren])
  | .get object name => expr object ++ [p.token .dot name.line, name]
  | .set line object name value =>
    expr object ++ p.token .dot name.line :: name :: p.token .equal line :: expr value
  | .this keyword _ => [keyword]
  | .super keyword _ method => [keyword, p.token .dot keyword.line, method]

def exprList : List RawExpr → List (List Token)
  | [] => []
  | e :: es => expr e :: exprList es

end

def condition (line : Nat) (e : RawExpr) : List Token :=
  p.token .leftParen line :: (p.expr e ++ [p.token .rightParen line])

def initializer (line : Nat) : Option RawExpr → List Token
  | some e => p.token .equal line :: p.expr e
  | none => []

def returned : Option RawExpr → List Token
  | some e => p.expr e
  | none => []

def superclass : Option (Superclass Unit) → List Token
  | some c => [p.token .less c.name.line, c.name]
  | none => []

mutual

def stmt : RawStmt → List Token
  | .expression line value => p.expr value ++ [p.token .semicolon line]
  | .print line value =>
    p.token (.keyword .print) line :: (p.expr value ++ [p.token .semicolon line])
  | .var name value =>
    p.token (.keyword .var) name.line :: name ::
      (p.initializer name.line value ++ [p.token .semicolon name.line])
  | .block line body => p.token .leftBrace line :: (stmts body ++ [p.token .rightBrace line])
  | .ifThen line e thenBranch =>
    p.token (.keyword .if_) line :: (p.condition line e ++ stmt thenBranch)
  | .ifElse line e thenBranch elseBranch =>
    p.token (.keyword .if_) line ::
      (p.condition line e ++ stmt thenBranch ++ p.token (.keyword .else_) line :: stmt elseBranch)
  | .while_ line e body => p.token (.keyword .while_) line :: (p.condition line e ++ stmt body)
  | .function f => p.token (.keyword .fun_) f.name.line :: function f
  | .return_ keyword value => keyword :: (p.returned value ++ [p.token .semicolon keyword.line])
  | .class_ line name above methods =>
    p.token (.keyword .class_) line :: name ::
      (p.superclass above ++ p.token .leftBrace line ::
        (functions methods ++ [p.token .rightBrace line]))

def stmts : List RawStmt → List Token
  | [] => []
  | s :: ss => stmt s ++ stmts ss

def function : RawFunction → List Token
  | .mk name parameters body =>
    name :: p.token .leftParen name.line ::
      (p.separated name.line (parameters.map ([·])) ++
        p.token .rightParen name.line :: p.token .leftBrace name.line ::
          (stmts body ++ [p.token .rightBrace name.line]))

def functions : List RawFunction → List Token
  | [] => []
  | f :: fs => function f ++ functions fs

end

def startLine (ts : List Token) : Nat := (ts.head?.map Token.line).getD 0

/-- The line of a node once it is printed: that of its first token, that of the sign for an
assignment. -/
def exprLine : RawExpr → Nat
  | .assign line .. | .set line .. => (p.token .equal line).line
  | e => startLine (p.expr e)

def stmtLine (s : RawStmt) : Nat := startLine (p.stmt s)

/-- An expression with the lines of its printed tokens. -/
def placed (e : RawExpr) : RawExpr := e.relined p.exprLine

def placedStmt (s : RawStmt) : RawStmt := s.relined p.exprLine p.stmtLine

def placedStmts (ss : List RawStmt) : List RawStmt :=
  Stmt.relinedList p.exprLine p.stmtLine ss

theorem exprList_eq_map (es : List RawExpr) : p.exprList es = es.map p.expr := by
  induction es with
  | nil => rfl
  | cons e es ih => rw [exprList, ih, List.map_cons]

end Printer
end Lox
