import Lox.Token
/-!
Syntax trees. The parameter `ρ` is what each use of a name carries: nothing when the tree comes
from the parser, the number of scopes to step out once the names are resolved.
-/
namespace Lox

inductive Expr (ρ : Type)
  | literal (line : Nat) (value : Literal)
  | grouping (line : Nat) (inner : Expr ρ)
  | unary (operator : Token) (right : Expr ρ)
  | binary (left : Expr ρ) (operator : Token) (right : Expr ρ)
  | logical (left : Expr ρ) (operator : Token) (right : Expr ρ)
  | read (name : Token) (target : ρ)
  | assign (line : Nat) (name : Token) (target : ρ) (value : Expr ρ)
  | call (callee : Expr ρ) (paren : Token) (arguments : List (Expr ρ))
  | get (object : Expr ρ) (name : Token)
  | set (line : Nat) (object : Expr ρ) (name : Token) (value : Expr ρ)
  | this (keyword : Token) (target : ρ)
  | super (keyword : Token) (target : ρ) (method : Token)

/-- The class that another one names as its own superclass. -/
structure Superclass (ρ : Type) where
  name : Token
  target : ρ

mutual

inductive Stmt (ρ : Type)
  | expression (line : Nat) (value : Expr ρ)
  | print (line : Nat) (value : Expr ρ)
  | var (name : Token) (initializer : Option (Expr ρ))
  | block (line : Nat) (body : List (Stmt ρ))
  | ifThen (line : Nat) (condition : Expr ρ) (thenBranch : Stmt ρ)
  | ifElse (line : Nat) (condition : Expr ρ) (thenBranch elseBranch : Stmt ρ)
  | while_ (line : Nat) (condition : Expr ρ) (body : Stmt ρ)
  | function (declaration : Function ρ)
  | return_ (keyword : Token) (value : Option (Expr ρ))
  | class_ (line : Nat) (name : Token) (superclass : Option (Superclass ρ))
      (methods : List (Function ρ))

inductive Function (ρ : Type)
  | mk (name : Token) (parameters : List Token) (body : List (Stmt ρ))

end

def Superclass.expr {ρ : Type} (s : Superclass ρ) : Expr ρ := .read s.name s.target

namespace Expr
variable {ρ : Type}

def line : Expr ρ → Nat
  | literal line _ | grouping line _ | assign line .. | set line .. => line
  | unary operator _ | binary _ operator _ | logical _ operator _ => operator.line
  | read name _ | get _ name => name.line
  | call _ paren _ => paren.line
  | this keyword _ | super keyword .. => keyword.line

def kind : Expr ρ → String
  | literal .. => "Literal"
  | grouping .. => "Grouping"
  | unary .. => "Unary"
  | binary .. => "Binary"
  | logical .. => "Logical"
  | read .. => "Variable"
  | assign .. => "Assign"
  | call .. => "Call"
  | get .. => "Get"
  | set .. => "Set"
  | this .. => "This"
  | super .. => "Super"

end Expr

namespace Function
variable {ρ : Type}

def name : Function ρ → Token | mk name .. => name
def parameters : Function ρ → List Token | mk _ parameters _ => parameters
def body : Function ρ → List (Stmt ρ) | mk _ _ body => body

/-- The name of the method that sets up an instance. -/
def initializerName : String := "init"

def isInitializer (f : Function ρ) : Bool := f.name.lexeme == initializerName

end Function

namespace Stmt
variable {ρ : Type}

def line : Stmt ρ → Nat
  | expression line _ | print line _ | block line _ | ifThen line .. | ifElse line ..
  | while_ line .. | class_ line .. => line
  | var name _ => name.line
  | function declaration => declaration.name.line
  | return_ keyword _ => keyword.line

def kind : Stmt ρ → String
  | expression .. => "Expression"
  | print .. => "Print"
  | var .. => "Var"
  | block .. => "Block"
  | ifThen .. | ifElse .. => "If"
  | while_ .. => "While"
  | function .. => "Function"
  | return_ .. => "Return"
  | class_ .. => "Class"

end Stmt

abbrev RawExpr := Expr Unit
abbrev RawStmt := Stmt Unit
abbrev RawFunction := Function Unit

/-- How many scopes out from its use a name is declared; a name without a number is global. -/
abbrev Hops := Option Nat

abbrev BoundExpr := Expr Hops
abbrev BoundStmt := Stmt Hops
abbrev BoundFunction := Function Hops

end Lox
