import Lox.Diagnostics
/-!
Runtime errors: what can stop a running program, and the one wording of each.
-/
namespace Lox

inductive Cause
  | undefinedVariable (name : String)
  | undefinedProperty (name : String)
  | propertyOfNonInstance
  | fieldOfNonInstance
  | superclassNotClass
  | notCallable
  | wrongArity (expected given : Nat)
  | tooManyCalls
  | tooDeeplyNested
  | negatedNonNumber
  | addedOthers
  | nonNumbers (operator : String)
  | unknownUnary (operator : String)
  | unknownBinary (operator : String)
deriving DecidableEq

/-- Calls that go too deep and other nesting that does read the same. -/
def Cause.text : Cause → String
  | undefinedVariable name => "Undefined variable '" ++ name ++ "'."
  | undefinedProperty name => "Undefined property '" ++ name ++ "'."
  | propertyOfNonInstance => "Only instances have properties."
  | fieldOfNonInstance => "Only instances have fields."
  | superclassNotClass => "Superclass must be a class."
  | notCallable => "Can only call functions and classes."
  | wrongArity expected given =>
    "Expected " ++ toString expected ++ " arguments but got " ++ toString given ++ "."
  | tooManyCalls => "Stack overflow."
  | tooDeeplyNested => "Stack overflow."
  | negatedNonNumber => "Operand of '-' must be a number."
  | addedOthers => "Operands of '+' must be two numbers or two strings."
  | nonNumbers operator => "Operands of '" ++ operator ++ "' must be numbers."
  | unknownUnary operator => "Unknown unary operator '" ++ operator ++ "'."
  | unknownBinary operator => "Unknown binary operator '" ++ operator ++ "'."

/-- A cause and the line of the token it shows at, if it shows at one. -/
structure RuntimeError where
  cause : Cause
  line : Option Int
deriving DecidableEq

def RuntimeError.text (e : RuntimeError) : String := Diagnostics.runtimeText e.cause.text e.line

end Lox
