import Lox.Syntax
import Lox.Number.Notation
/-!
Indented listings of syntax trees. A tree is first an `Outline`, whose only forms are texts, lists
and records; the listing of an outline then knows nothing of the language.
-/
namespace Lox

inductive Outline
  | text (value : String)
  | list (items : List Outline)
  | record (fields : List (String × Outline))

namespace Outline

def indent (n : Nat) : String := String.ofList (List.replicate (2 * n) ' ')

mutual

/-- The lines of an outline `n` levels in. A list without items still takes a line, which is
empty. -/
def lines (n : Nat) : Outline → List String
  | text value => [indent n ++ value]
  | list [] => [""]
  | list (item :: items) => itemLines n (item :: items)
  | record [] => [""]
  | record (field :: fields) => fieldLines n (field :: fields)

def itemLines (n : Nat) : List Outline → List String
  | [] => []
  | item :: items => (indent n ++ "-") :: lines (n + 1) item ++ itemLines n items

def fieldLines (n : Nat) : List (String × Outline) → List String
  | [] => []
  | (name, .text value) :: fields => (indent n ++ name ++ ": " ++ value) :: fieldLines n fields
  | (name, value) :: fields =>
    (indent n ++ name ++ ":") :: lines (n + 1) value ++ fieldLines n fields

end

def render (o : Outline) : String := "\n".intercalate (lines 0 o)

end Outline

/-- A literal as listings show it; strings stand there raw. -/
def Literal.listed : Literal → String
  | nil => "None"
  | bool true => "True"
  | bool false => "False"
  | number value => Notation.listed.write value
  | string value => value

def Token.outline (t : Token) : Outline := .text t.lexeme

def Outline.absent : Outline := .text "None"

def Outline.form (kind : String) (fields : List (String × Outline)) : Outline :=
  .record (("type", .text kind) :: fields)

namespace Expr
variable {ρ : Type}

mutual

def outline : Expr ρ → Outline
  | literal _ value => .form "Literal" [("value", .text value.listed)]
  | grouping _ inner => .form "Grouping" [("expression", outline inner)]
  | unary operator right => .form "Unary" [("op", operator.outline), ("right", outline right)]
  | binary left operator right =>
    .form "Binary" [("op", operator.outline), ("left", outline left), ("right", outline right)]
  | logical left operator right =>
    .form "Logical" [("op", operator.outline), ("left", outline left), ("right", outline right)]
  | read name _ => .form "Variable" [("name", name.outline)]
  | assign _ name _ value => .form "Assign" [("name", name.outline), ("value", outline value)]
  | call callee _ arguments =>
    .form "Call" [("callee", outline callee), ("args", .list (outlines arguments))]
  | get object name => .form "Get" [("object", outline object), ("name", name.outline)]
  | set _ object name value =>
    .form "Set" [("object", outline object), ("name", name.outline), ("value", outline value)]
  | this .. => .form "This" []
  | super _ _ method => .form "Super" [("method", method.outline)]

def outlines : List (Expr ρ) → List Outline
  | [] => []
  | e :: es => outline e :: outlines es

end

def outline? : Option (Expr ρ) → Outline
  | some e => e.outline
  | none => .absent

end Expr

namespace Stmt
variable {ρ : Type}

mutual

def outline : Stmt ρ → Outline
  | expression _ value => .form "Expression" [("expression", value.outline)]
  | print _ value => .form "Print" [("expression", value.outline)]
  | var name initializer =>
    .form "Var" [("name", name.outline), ("initializer", Expr.outline? initializer)]
  | block _ body => .form "Block" [("statements", .list (outlines body))]
  | ifThen _ condition thenBranch =>
    .form "If" [("condition", condition.outline), ("then_branch", outline thenBranch),
      ("else_branch", .absent)]
  | ifElse _ condition thenBranch elseBranch =>
    .form "If" [("condition", condition.outline), ("then_branch", outline thenBranch),
      ("else_branch", outline elseBranch)]
  | while_ _ condition body =>
    .form "While" [("condition", condition.outline), ("body", outline body)]
  | function declaration => functionOutline declaration
  | return_ _ value => .form "Return" [("value", Expr.outline? value)]
  | class_ _ name superclass methods =>
    .form "Class" [("name", name.outline),
      ("superclass", Expr.outline? (superclass.map Superclass.expr)),
      ("methods", .list (functionOutlines methods))]

def functionOutline : Function ρ → Outline
  | .mk name parameters body =>
    .form "Function" [("name", name.outline), ("params", .list (parameters.map Token.outline)),
      ("body", .list (outlines body))]

def outlines : List (Stmt ρ) → List Outline
  | [] => []
  | s :: ss => outline s :: outlines ss

def functionOutlines : List (Function ρ) → List Outline
  | [] => []
  | f :: fs => functionOutline f :: functionOutlines fs

end

def listing (program : List (Stmt ρ)) : String := (Outline.list (outlines program)).render

end Stmt
end Lox
