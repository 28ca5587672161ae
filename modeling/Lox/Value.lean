import Lox.Bindings
import Lox.Number.Notation
import Lox.Syntax
/-!
Values. Functions and classes never change and are held as they are, with a number that tells one
creation from every other; an instance is held as its class and a reference to its fields. The
parameter `ρ` is what the uses of names in a function carry, `ε` what a function knows its
surroundings by; a machine has names resolved and environments numbered.
-/
namespace Lox

inductive Native
  | clock
deriving DecidableEq

structure Closure (ρ : Type := Hops) (ε : Type := Nat) where
  id : Nat
  declaration : Function ρ
  environment : ε
  isInitializer : Bool

inductive Class (ρ : Type := Hops) (ε : Type := Nat)
  | root (id : Nat) (name : String) (methods : Bindings (Closure ρ ε))
  | derived (id : Nat) (name : String) (methods : Bindings (Closure ρ ε))
      (superclass : Class ρ ε)

inductive Value (ρ : Type := Hops) (ε : Type := Nat)
  | nil
  | bool (value : Bool)
  | number (value : Float)
  | string (value : String)
  | native (function : Native)
  | function (closure : Closure ρ ε)
  | class_ (c : Class ρ ε)
  | object (ref : Nat) (c : Class ρ ε)

variable {ρ ε : Type}

namespace Closure

def name (f : Closure ρ ε) : String := f.declaration.name.lexeme
def arity (f : Closure ρ ε) : Nat := f.declaration.parameters.length

end Closure

namespace Class

def id : Class ρ ε → Nat | root id .. | derived id .. => id
def name : Class ρ ε → String | root _ name _ | derived _ name .. => name

def methods : Class ρ ε → Bindings (Closure ρ ε)
  | root _ _ methods | derived _ _ methods _ => methods

/-- The method of the nearest class that has one of this name, beginning with the class itself. -/
def findMethod (name : String) : Class ρ ε → Option (Closure ρ ε)
  | root _ _ methods => methods.find? name
  | derived _ _ methods superclass =>
    match methods.find? name with
    | some f => some f
    | none => superclass.findMethod name

def initializer (c : Class ρ ε) : Option (Closure ρ ε) := c.findMethod Function.initializerName

/-- A class without an initializer takes no arguments. -/
def arity (c : Class ρ ε) : Nat := (c.initializer.map Closure.arity).getD 0

end Class

namespace Value

def ofLiteral : Literal → Value ρ ε
  | .nil => nil
  | .bool value => bool value
  | .number value => number value
  | .string value => string value

/-- Only `nil` and `false` are not. -/
def isTruthy : Value ρ ε → Bool
  | nil => false
  | bool value => value
  | _ => true

/-- Numbers are equal when they are the same number: one that is not a number equals itself, and
the two zeros differ. Functions, classes and instances equal themselves only, values of different
sorts never each other. -/
def equal : Value ρ ε → Value ρ ε → Bool
  | nil, nil => true
  | bool a, bool b => a == b
  | number a, number b => decide (a = b)
  | string a, string b => a == b
  | native a, native b => a == b
  | function a, function b => a.id == b.id
  | class_ a, class_ b => a.id == b.id
  | object a _, object b _ => a == b
  | _, _ => false

def text : Value ρ ε → String
  | nil => "nil"
  | bool true => "true"
  | bool false => "false"
  | number value => Notation.printed.write value
  | string value => value
  | native _ => "<native fn>"
  | function f => "<fn " ++ f.name ++ ">"
  | class_ c => c.name
  | object _ c => c.name ++ " instance"

/-- The number of arguments that a value has to be called with; none if it cannot be called. -/
def arity? : Value ρ ε → Option Nat
  | native .clock => some 0
  | function f => some f.arity
  | class_ c => some c.arity
  | _ => none

end Value
end Lox
