import Lox.Proofs.Resolution
import Lox.Value

/-! What a program can be read from. Resolution adds distances to a tree and nothing else; without
them, and without its environments, a value is what can be told of it from outside. -/

namespace Lox
variable {ρ ε : Type}

namespace Expr

mutual

def raw : Expr ρ → RawExpr
  | literal line value => literal line value
  | grouping line inner => grouping line (raw inner)
  | unary operator right => unary operator (raw right)
  | binary left operator right => binary (raw left) operator (raw right)
  | logical left operator right => logical (raw left) operator (raw right)
  | read name _ => read name ()
  | assign line name _ value => assign line name () (raw value)
  | call callee paren arguments => call (raw callee) paren (rawList arguments)
  | get object name => get (raw object) name
  | set line object name value => set line (raw object) name (raw value)
  | this keyword _ => this keyword ()
  | super keyword _ method => super keyword () method

def rawList : List (Expr ρ) → List RawExpr
  | [] => []
  | e :: es => raw e :: rawList es

end

mutual

theorem raw_bound (s : Surroundings) (e : RawExpr) : (bound s e).raw = e.raw := by
  cases e with
  | grouping line inner => simp [bound, raw, raw_bound s inner]
  | unary operator right => simp [bound, raw, raw_bound s right]
  | binary left operator right => simp [bound, raw, raw_bound s left, raw_bound s right]
  | logical left operator right => simp [bound, raw, raw_bound s left, raw_bound s right]
  | assign line name _ value => simp [bound, raw, raw_bound s value]
  | call callee paren arguments =>
    simp [bound, raw, raw_bound s callee, rawList_boundList s arguments]
  | get object name => simp [bound, raw, raw_bound s object]
  | set line object name value => simp [bound, raw, raw_bound s object, raw_bound s value]
  | _ => simp [bound, raw]

theorem rawList_boundList (s : Surroundings) (es : List RawExpr) :
    rawList (boundList s es) = rawList es := by
  cases es with
  | nil => rfl
  | cons e es => simp [boundList, rawList, raw_bound s e, rawList_boundList s es]

end

mutual

theorem raw_self (e : RawExpr) : e.raw = e := by
  cases e with
  | grouping line inner => simp [raw, raw_self inner]
  | unary operator right => simp [raw, raw_self right]
  | binary left operator right => simp [raw, raw_self left, raw_self right]
  | logical left operator right => simp [raw, raw_self left, raw_self right]
  | assign line name _ value => simp [raw, raw_self value]
  | call callee paren arguments => simp [raw, raw_self callee, rawList_self arguments]
  | get object name => simp [raw, raw_self object]
  | set line object name value => simp [raw, raw_self object, raw_self value]
  | _ => rfl

theorem rawList_self (es : List RawExpr) : rawList es = es := by
  cases es with
  | nil => rfl
  | cons e es => simp [rawList, raw_self e, rawList_self es]

end
end Expr

namespace Stmt

mutual

def raw : Stmt ρ → RawStmt
  | expression line value => expression line value.raw
  | print line value => print line value.raw
  | var name initializer => var name (initializer.map Expr.raw)
  | block line body => block line (rawList body)
  | ifThen line condition thenBranch => ifThen line condition.raw (raw thenBranch)
  | ifElse line condition thenBranch elseBranch =>
    ifElse line condition.raw (raw thenBranch) (raw elseBranch)
  | while_ line condition body => while_ line condition.raw (raw body)
  | function declaration => function (rawFunction declaration)
  | return_ keyword value => return_ keyword (value.map Expr.raw)
  | class_ line name superclass methods =>
    class_ line name (superclass.map fun c => ⟨c.name, ()⟩) (rawFunctions methods)

def rawList : List (Stmt ρ) → List RawStmt
  | [] => []
  | st :: ss => raw st :: rawList ss

def rawFunction : Function ρ → RawFunction
  | .mk name parameters body => .mk name parameters (rawList body)

def rawFunctions : List (Function ρ) → List RawFunction
  | [] => []
  | f :: fs => rawFunction f :: rawFunctions fs

end

mutual

theorem raw_bound (s : Surroundings) (st : RawStmt) : (bound s st).raw = st.raw := by
  cases st with
  | expression line value => simp [bound, raw, Expr.raw_bound]
  | print line value => simp [bound, raw, Expr.raw_bound]
  | var name initializer => cases initializer <;> simp [bound, raw, Expr.raw_bound]
  | block line body => simp [bound, raw, rawList_boundList _ body]
  | ifThen line condition thenBranch =>
    simp [bound, raw, Expr.raw_bound, raw_bound _ thenBranch]
  | ifElse line condition thenBranch elseBranch =>
    simp [bound, raw, Expr.raw_bound, raw_bound _ thenBranch, raw_bound _ elseBranch]
  | while_ line condition body => simp [bound, raw, Expr.raw_bound, raw_bound _ body]
  | function f =>
    obtain ⟨name, parameters, body⟩ := f
    simp [bound, raw, rawFunction_functionBound _ _ (.mk name parameters body)]
  | return_ keyword value => cases value <;> simp [bound, raw, Expr.raw_bound]
  | class_ line name superclass methods =>
    cases superclass <;> simp [bound, raw, Superclass.bound, rawFunctions_methodsBound _ methods]

theorem rawList_boundList (s : Surroundings) (ss : List RawStmt) :
    rawList (boundList s ss) = rawList ss := by
  cases ss with
  | nil => rfl
  | cons st ss => simp [boundList, rawList, raw_bound _ st, rawList_boundList _ ss]

theorem rawFunction_functionBound (s : Surroundings) (activation : Activation) (f : RawFunction) :
    rawFunction (functionBound s activation f) = rawFunction f := by
  obtain ⟨name, parameters, body⟩ := f
  simp [functionBound, rawFunction, rawList_boundList _ body]

theorem rawFunctions_methodsBound (s : Surroundings) (fs : List RawFunction) :
    rawFunctions (methodsBound s fs) = rawFunctions fs := by
  cases fs with
  | nil => rfl
  | cons f fs =>
    simp [methodsBound, rawFunctions, rawFunction_functionBound _ _ f,
      rawFunctions_methodsBound _ fs]

end

mutual

theorem raw_self (st : RawStmt) : st.raw = st := by
  cases st with
  | expression line value => simp [raw, Expr.raw_self]
  | print line value => simp [raw, Expr.raw_self]
  | var name initializer => cases initializer <;> simp [raw, Expr.raw_self]
  | block line body => simp [raw, rawList_self body]
  | ifThen line condition thenBranch => simp [raw, Expr.raw_self, raw_self thenBranch]
  | ifElse line condition thenBranch elseBranch =>
    simp [raw, Expr.raw_self, raw_self thenBranch, raw_self elseBranch]
  | while_ line condition body => simp [raw, Expr.raw_self, raw_self body]
  | function f => simp [raw, rawFunction_self f]
  | return_ keyword value => cases value <;> simp [raw, Expr.raw_self]
  | class_ line name superclass methods =>
    cases superclass <;> simp [raw, rawFunctions_self methods]

theorem rawList_self (ss : List RawStmt) : rawList ss = ss := by
  cases ss with
  | nil => rfl
  | cons st ss => simp [rawList, raw_self st, rawList_self ss]

theorem rawFunction_self (f : RawFunction) : rawFunction f = f := by
  obtain ⟨name, parameters, body⟩ := f
  simp [rawFunction, rawList_self body]

theorem rawFunctions_self (fs : List RawFunction) : rawFunctions fs = fs := by
  cases fs with
  | nil => rfl
  | cons f fs => simp [rawFunctions, rawFunction_self f, rawFunctions_self fs]

end

/-- Resolution loses nothing. -/
theorem eq_of_bound_eq {s s' : Surroundings} {st st' : RawStmt} (h : st.bound s = st'.bound s') :
    st = st' := by
  have hraw := congrArg raw h
  rwa [raw_bound, raw_bound, raw_self, raw_self] at hraw

end Stmt

def Closure.erased (f : Closure ρ ε) : Closure Unit Unit :=
  ⟨f.id, Stmt.rawFunction f.declaration, (), f.isInitializer⟩

def Bindings.mapValues {α β : Type} (f : α → β) (b : Bindings α) : Bindings β :=
  b.map fun p => (p.1, f p.2)

def Class.erased : Class ρ ε → Class Unit Unit
  | root id name methods => root id name (methods.mapValues Closure.erased)
  | derived id name methods superclass =>
    derived id name (methods.mapValues Closure.erased) superclass.erased

/-- All of a value but what its functions close over and how far away that is. -/
def Value.erased : Value ρ ε → Value Unit Unit
  | nil => nil
  | bool value => bool value
  | number value => number value
  | string value => string value
  | native f => native f
  | function f => function f.erased
  | class_ c => class_ c.erased
  | object ref c => object ref c.erased

end Lox
