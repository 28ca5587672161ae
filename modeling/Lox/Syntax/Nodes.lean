import Lox.Syntax
/-!
The nodes of a syntax tree in the order of reading: each node before its parts, the parts from
left to right.
-/
namespace Lox

inductive Node (ρ : Type)
  | expr (e : Expr ρ)
  | stmt (s : Stmt ρ)

namespace Node
variable {ρ : Type}

def kind : Node ρ → String
  | expr e => e.kind
  | stmt s => s.kind

def line : Node ρ → Nat
  | expr e => e.line
  | stmt s => s.line

end Node

namespace Expr
variable {ρ : Type}

mutual

def nodes : Expr ρ → List (Node ρ)
  | e@(literal ..) | e@(read ..) | e@(this ..) | e@(super ..) => [.expr e]
  | e@(grouping _ inner) => .expr e :: nodes inner
  | e@(unary _ right) => .expr e :: nodes right
  | e@(binary left _ right) | e@(logical left _ right) => .expr e :: nodes left ++ nodes right
  | e@(assign _ _ _ value) => .expr e :: nodes value
  | e@(call callee _ arguments) => .expr e :: nodes callee ++ nodesList arguments
  | e@(get object _) => .expr e :: nodes object
  | e@(set _ object _ value) => .expr e :: nodes object ++ nodes value

def nodesList : List (Expr ρ) → List (Node ρ)
  | [] => []
  | e :: es => nodes e ++ nodesList es

end

def nodes? : Option (Expr ρ) → List (Node ρ)
  | some e => e.nodes
  | none => []

end Expr

namespace Stmt
variable {ρ : Type}

mutual

def nodes : Stmt ρ → List (Node ρ)
  | s@(expression _ value) | s@(print _ value) => .stmt s :: value.nodes
  | s@(var _ initializer) => .stmt s :: Expr.nodes? initializer
  | s@(block _ body) => .stmt s :: nodesList body
  | s@(ifThen _ condition thenBranch) => .stmt s :: condition.nodes ++ nodes thenBranch
  | s@(ifElse _ condition thenBranch elseBranch) =>
    .stmt s :: condition.nodes ++ nodes thenBranch ++ nodes elseBranch
  | s@(while_ _ condition body) => .stmt s :: condition.nodes ++ nodes body
  | function declaration => functionNodes declaration
  | s@(return_ _ value) => .stmt s :: Expr.nodes? value
  | s@(class_ _ _ superclass methods) =>
    .stmt s :: Expr.nodes? (superclass.map Superclass.expr) ++ functionNodesList methods

def functionNodes : Function ρ → List (Node ρ)
  | f@(.mk _ _ body) => .stmt (.function f) :: nodesList body

def nodesList : List (Stmt ρ) → List (Node ρ)
  | [] => []
  | s :: ss => nodes s ++ nodesList ss

def functionNodesList : List (Function ρ) → List (Node ρ)
  | [] => []
  | f :: fs => functionNodes f ++ functionNodesList fs

end
end Stmt

/-- A use of a name and the scope that it was found in: the token of the name and the number of
scopes to step out. -/
structure Reference where
  kind : String
  token : Token
  hops : Nat

/-- Uses of global names are no references. -/
def Node.reference? : Node Hops → Option Reference
  | .expr e@(.read name (some hops)) | .expr e@(.assign _ name (some hops) _)
  | .expr e@(.this name (some hops)) | .expr e@(.super name (some hops) _) =>
    some ⟨e.kind, name, hops⟩
  | _ => none

def Stmt.references (program : List BoundStmt) : List Reference :=
  (Stmt.nodesList program).filterMap Node.reference?

end Lox
