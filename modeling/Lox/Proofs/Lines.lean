import Lox.Syntax

/-! Trees up to the lines of their nodes. The line of a token belongs to the token and stays. -/

namespace Lox

namespace Expr
variable (f : RawExpr → Nat)

mutual

/-- The tree with each node on the line that `f` gives for it. -/
def relined : RawExpr → RawExpr
  | e@(literal _ value) => literal (f e) value
  | e@(grouping _ inner) => grouping (f e) (relined inner)
  | unary operator right => unary operator (relined right)
  | binary left operator right => binary (relined left) operator (relined right)
  | logical left operator right => logical (relined left) operator (relined right)
  | read name target => read name target
  | e@(assign _ name target value) => assign (f e) name target (relined value)
  | call callee paren arguments => call (relined callee) paren (relinedList arguments)
  | get object name => get (relined object) name
  | e@(set _ object name value) => set (f e) (relined object) name (relined value)
  | this keyword target => this keyword target
  | super keyword target method => super keyword target method

def relinedList : List RawExpr → List RawExpr
  | [] => []
  | e :: es => relined e :: relinedList es

end

theorem relinedList_eq_map (es : List RawExpr) : relinedList f es = es.map (relined f) := by
  induction es with
  | nil => rfl
  | cons e es ih => rw [relinedList, ih, List.map_cons]

mutual

theorem relined_relined (n : Nat) (e : RawExpr) :
    relined (fun _ => n) (relined f e) = relined (fun _ => n) e := by
  cases e with
  | grouping line inner => simp [relined, relined_relined n inner]
  | unary operator right => simp [relined, relined_relined n right]
  | binary left operator right =>
    simp [relined, relined_relined n left, relined_relined n right]
  | logical left operator right =>
    simp [relined, relined_relined n left, relined_relined n right]
  | assign line name _ value => simp [relined, relined_relined n value]
  | call callee paren arguments =>
    simp [relined, relined_relined n callee, relinedList_relinedList n arguments]
  | get object name => simp [relined, relined_relined n object]
  | set line object name value =>
    simp [relined, relined_relined n object, relined_relined n value]
  | _ => simp [relined]

theorem relinedList_relinedList (n : Nat) (es : List RawExpr) :
    relinedList (fun _ => n) (relinedList f es) = relinedList (fun _ => n) es := by
  cases es with
  | nil => rfl
  | cons e es => simp [relinedList, relined_relined n e, relinedList_relinedList n es]

end
end Expr

namespace Stmt
variable (f : RawExpr → Nat) (g : RawStmt → Nat)

mutual

/-- The tree with each node on the line that `f` or `g` gives for it. -/
def relined : RawStmt → RawStmt
  | s@(expression _ value) => expression (g s) (value.relined f)
  | s@(print _ value) => print (g s) (value.relined f)
  | var name initializer => var name (initializer.map (Expr.relined f))
  | s@(block _ body) => block (g s) (relinedList body)
  | s@(ifThen _ condition thenBranch) =>
    ifThen (g s) (condition.relined f) (relined thenBranch)
  | s@(ifElse _ condition thenBranch elseBranch) =>
    ifElse (g s) (condition.relined f) (relined thenBranch) (relined elseBranch)
  | s@(while_ _ condition body) => while_ (g s) (condition.relined f) (relined body)
  | function declaration => function (relinedFunction declaration)
  | return_ keyword value => return_ keyword (value.map (Expr.relined f))
  | s@(class_ _ name superclass methods) =>
    class_ (g s) name superclass (relinedFunctions methods)

def relinedList : List RawStmt → List RawStmt
  | [] => []
  | s :: ss => relined s :: relinedList ss

def relinedFunction : RawFunction → RawFunction
  | .mk name parameters body => .mk name parameters (relinedList body)

def relinedFunctions : List RawFunction → List RawFunction
  | [] => []
  | c :: cs => relinedFunction c :: relinedFunctions cs

end

mutual

theorem relined_relined (n : Nat) (s : RawStmt) :
    relined (fun _ => n) (fun _ => n) (relined f g s) = relined (fun _ => n) (fun _ => n) s := by
  cases s with
  | expression line value => simp [relined, Expr.relined_relined]
  | print line value => simp [relined, Expr.relined_relined]
  | var name initializer => cases initializer <;> simp [relined, Expr.relined_relined]
  | block line body => simp [relined, relinedList_relinedList n body]
  | ifThen line condition thenBranch =>
    simp [relined, Expr.relined_relined, relined_relined n thenBranch]
  | ifElse line condition thenBranch elseBranch =>
    simp [relined, Expr.relined_relined, relined_relined n thenBranch,
      relined_relined n elseBranch]
  | while_ line condition body =>
    simp [relined, Expr.relined_relined, relined_relined n body]
  | function c => simp [relined, relinedFunction_relinedFunction n c]
  | return_ keyword value => cases value <;> simp [relined, Expr.relined_relined]
  | class_ line name superclass methods =>
    simp [relined, relinedFunctions_relinedFunctions n methods]

theorem relinedList_relinedList (n : Nat) (ss : List RawStmt) :
    relinedList (fun _ => n) (fun _ => n) (relinedList f g ss) =
      relinedList (fun _ => n) (fun _ => n) ss := by
  cases ss with
  | nil => rfl
  | cons s ss => simp [relinedList, relined_relined n s, relinedList_relinedList n ss]

theorem relinedFunction_relinedFunction (n : Nat) (c : RawFunction) :
    relinedFunction (fun _ => n) (fun _ => n) (relinedFunction f g c) =
      relinedFunction (fun _ => n) (fun _ => n) c := by
  obtain ⟨name, parameters, body⟩ := c
  simp [relinedFunction, relinedList_relinedList n body]

theorem relinedFunctions_relinedFunctions (n : Nat) (cs : List RawFunction) :
    relinedFunctions (fun _ => n) (fun _ => n) (relinedFunctions f g cs) =
      relinedFunctions (fun _ => n) (fun _ => n) cs := by
  cases cs with
  | nil => rfl
  | cons c cs =>
    simp [relinedFunctions, relinedFunction_relinedFunction n c,
      relinedFunctions_relinedFunctions n cs]

end

/-- The trees with all their nodes on one line. -/
def unlined (ss : List RawStmt) : List RawStmt := relinedList (fun _ => 0) (fun _ => 0) ss

theorem unlined_relinedList (ss : List RawStmt) : unlined (relinedList f g ss) = unlined ss :=
  relinedList_relinedList f g 0 ss

end Stmt
end Lox
