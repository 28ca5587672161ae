import Lox.Syntax

/-! Regular trees: every name stands where its kind belongs, and neither a branch nor the body of
a loop is a declaration. In apt trees so do all the other tokens. -/

namespace Lox

variable {ρ : Type}

structure Token.Names (T : Token → Prop) (t : Token) : Prop where
  good : T t
  kind : t.kind = .identifier

def Kind.isOperator : Kind → Bool
  | bang | minus | plus | slash | star | notEqual | equalEqual | greater | greaterEqual | less
  | lessEqual | keyword .and_ | keyword .or_ => true
  | _ => false

structure Token.Operates (T : Token → Prop) (t : Token) : Prop where
  good : T t
  kind : t.kind.isOperator

namespace Expr
variable (T : Token → Prop)

mutual

def Regular : Expr ρ → Prop
  | literal .. => True
  | grouping _ inner => Regular inner
  | unary operator right => T operator ∧ Regular right
  | binary left operator right | logical left operator right =>
    Regular left ∧ T operator ∧ Regular right
  | read name _ => name.Names T
  | assign _ name _ value => name.Names T ∧ Regular value
  | call callee paren arguments => Regular callee ∧ T paren ∧ RegularList arguments
  | get object name => Regular object ∧ name.Names T
  | set _ object name value => Regular object ∧ name.Names T ∧ Regular value
  | this keyword _ => T keyword ∧ keyword.kind = .keyword .this
  | super keyword _ method =>
    (T keyword ∧ keyword.kind = .keyword .super) ∧ method.Names T

def RegularList : List (Expr ρ) → Prop
  | [] => True
  | e :: es => Regular e ∧ RegularList es

end

def Regular? (e : Option (Expr ρ)) : Prop := ∀ a ∈ e, a.Regular T

mutual

def Apt : Expr ρ → Prop
  | literal .. => True
  | grouping _ inner => Apt inner
  | unary operator right => operator.Operates T ∧ Apt right
  | binary left operator right | logical left operator right =>
    Apt left ∧ operator.Operates T ∧ Apt right
  | read name _ => name.Names T
  | assign _ name _ value => name.Names T ∧ Apt value
  | call callee paren arguments =>
    Apt callee ∧ (T paren ∧ paren.kind = .rightParen) ∧ AptList arguments
  | get object name => Apt object ∧ name.Names T
  | set _ object name value => Apt object ∧ name.Names T ∧ Apt value
  | this keyword _ => T keyword ∧ keyword.kind = .keyword .this
  | super keyword _ method =>
    (T keyword ∧ keyword.kind = .keyword .super) ∧ method.Names T

def AptList : List (Expr ρ) → Prop
  | [] => True
  | e :: es => Apt e ∧ AptList es

end

def Apt? (e : Option (Expr ρ)) : Prop := ∀ a ∈ e, a.Apt T

variable {T}

mutual

theorem regular_of_apt (e : Expr ρ) (h : e.Apt T) : e.Regular T := by
  cases e with
  | literal => trivial
  | grouping _ inner => exact regular_of_apt inner h
  | unary _ right => exact ⟨h.1.good, regular_of_apt right h.2⟩
  | binary left _ right | logical left _ right =>
    exact ⟨regular_of_apt left h.1, h.2.1.good, regular_of_apt right h.2.2⟩
  | assign _ _ _ value => exact ⟨h.1, regular_of_apt value h.2⟩
  | call callee _ arguments =>
    exact ⟨regular_of_apt callee h.1, h.2.1.1, regularList_of_aptList arguments h.2.2⟩
  | get object => exact ⟨regular_of_apt object h.1, h.2⟩
  | set _ object _ value => exact ⟨regular_of_apt object h.1, h.2.1, regular_of_apt value h.2.2⟩
  | read | this | super => exact h

theorem regularList_of_aptList (es : List (Expr ρ)) (h : AptList T es) : RegularList T es := by
  cases es with
  | nil => trivial
  | cons e es => exact ⟨regular_of_apt e h.1, regularList_of_aptList es h.2⟩

end

theorem regular?_of_apt? {e : Option (Expr ρ)} (h : Apt? T e) : Regular? T e :=
  fun a ha => regular_of_apt a (h a ha)

end Expr

namespace Stmt

def isPlain : Stmt ρ → Bool
  | var .. | function .. | class_ .. => false
  | _ => true

variable (T : Token → Prop)

mutual

def Regular : Stmt ρ → Prop
  | expression _ value | print _ value => value.Regular T
  | var name initializer => name.Names T ∧ Expr.Regular? T initializer
  | block _ body => RegularList body
  | ifThen _ condition thenBranch =>
    condition.Regular T ∧ Regular thenBranch ∧ thenBranch.isPlain
  | ifElse _ condition thenBranch elseBranch =>
    condition.Regular T ∧ (Regular thenBranch ∧ thenBranch.isPlain) ∧
      Regular elseBranch ∧ elseBranch.isPlain
  | while_ _ condition body => condition.Regular T ∧ Regular body ∧ body.isPlain
  | function declaration => FunctionRegular declaration
  | return_ keyword value => T keyword ∧ Expr.Regular? T value
  | class_ _ name superclass methods =>
    name.Names T ∧ (∀ c ∈ superclass, c.name.Names T) ∧ MethodsRegular methods

def RegularList : List (Stmt ρ) → Prop
  | [] => True
  | s :: ss => Regular s ∧ RegularList ss

def FunctionRegular : Function ρ → Prop
  | .mk name parameters body =>
    name.Names T ∧ (∀ p ∈ parameters, p.Names T) ∧ RegularList body

def MethodsRegular : List (Function ρ) → Prop
  | [] => True
  | f :: fs => FunctionRegular f ∧ MethodsRegular fs

end

mutual

def Apt : Stmt ρ → Prop
  | expression _ value | print _ value => value.Apt T
  | var name initializer => name.Names T ∧ Expr.Apt? T initializer
  | block _ body => AptList body
  | ifThen _ condition thenBranch =>
    condition.Apt T ∧ Apt thenBranch ∧ thenBranch.isPlain
  | ifElse _ condition thenBranch elseBranch =>
    condition.Apt T ∧ (Apt thenBranch ∧ thenBranch.isPlain) ∧
      Apt elseBranch ∧ elseBranch.isPlain
  | while_ _ condition body => condition.Apt T ∧ Apt body ∧ body.isPlain
  | function declaration => FunctionApt declaration
  | return_ keyword value =>
    (T keyword ∧ keyword.kind = .keyword .return_) ∧ Expr.Apt? T value
  | class_ _ name superclass methods =>
    name.Names T ∧ (∀ c ∈ superclass, c.name.Names T) ∧ MethodsApt methods

def AptList : List (Stmt ρ) → Prop
  | [] => True
  | s :: ss => Apt s ∧ AptList ss

def FunctionApt : Function ρ → Prop
  | .mk name parameters body =>
    name.Names T ∧ (∀ p ∈ parameters, p.Names T) ∧ AptList body

def MethodsApt : List (Function ρ) → Prop
  | [] => True
  | f :: fs => FunctionApt f ∧ MethodsApt fs

end

variable {T}

mutual

theorem regular_of_apt (s : Stmt ρ) (h : s.Apt T) : s.Regular T := by
  cases s with
  | expression _ value | print _ value => exact value.regular_of_apt h
  | var => exact ⟨h.1, Expr.regular?_of_apt? h.2⟩
  | block _ body => exact regularList_of_aptList body h
  | ifThen _ condition thenBranch =>
    exact ⟨condition.regular_of_apt h.1, regular_of_apt thenBranch h.2.1, h.2.2⟩
  | ifElse _ condition thenBranch elseBranch =>
    exact ⟨condition.regular_of_apt h.1, ⟨regular_of_apt thenBranch h.2.1.1, h.2.1.2⟩,
      regular_of_apt elseBranch h.2.2.1, h.2.2.2⟩
  | while_ _ condition body =>
    exact ⟨condition.regular_of_apt h.1, regular_of_apt body h.2.1, h.2.2⟩
  | function f => exact functionRegular_of_apt f h
  | return_ => exact ⟨h.1.1, Expr.regular?_of_apt? h.2⟩
  | class_ _ _ _ methods => exact ⟨h.1, h.2.1, methodsRegular_of_apt methods h.2.2⟩

theorem regularList_of_aptList (ss : List (Stmt ρ)) (h : AptList T ss) : RegularList T ss := by
  cases ss with
  | nil => trivial
  | cons s ss => exact ⟨regular_of_apt s h.1, regularList_of_aptList ss h.2⟩

theorem functionRegular_of_apt (f : Function ρ) (h : FunctionApt T f) : FunctionRegular T f := by
  cases f with
  | mk name parameters body => exact ⟨h.1, h.2.1, regularList_of_aptList body h.2.2⟩

theorem methodsRegular_of_apt (fs : List (Function ρ)) (h : MethodsApt T fs) :
    MethodsRegular T fs := by
  cases fs with
  | nil => trivial
  | cons f fs => exact ⟨functionRegular_of_apt f h.1, methodsRegular_of_apt fs h.2⟩

end
end Stmt

end Lox
