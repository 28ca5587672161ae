import Lox.Token
/-!
Static errors: what can be wrong with a text before it runs, and the one wording of each.
-/
namespace Lox

/-- The two forms that share the grammar of a name, parameters and a body. -/
inductive Callable
  | function | method

def Callable.text : Callable → String
  | function => "function"
  | method => "method"

/-- What the grammar asks for at a place where something else stands. -/
inductive Expected
  | className | superclassName | classBody | classEnd
  | callableName (c : Callable) | parameters (c : Callable) | parameterName | parametersEnd
  | callableBody (c : Callable)
  | variableName | declarationEnd
  | forClauses | loopConditionEnd | forClausesEnd
  | ifCondition | ifConditionEnd
  | whileCondition | whileConditionEnd
  | printEnd | returnEnd | statementEnd | blockEnd
  | expression | expressionEnd | groupEnd | argumentsEnd
  | propertyName | superDot | superMethodName

def Expected.text : Expected → String
  | className => "class name"
  | superclassName => "superclass name"
  | classBody => "'\x7b' before class body"
  | classEnd => "'\x7d' after class body"
  | callableName c => c.text ++ " name"
  | parameters c => "'(' after " ++ c.text ++ " name"
  | parameterName => "parameter name"
  | parametersEnd => "')' after parameters"
  | callableBody c => "'\x7b' before " ++ c.text ++ " body"
  | variableName => "variable name"
  | declarationEnd => "';' after variable declaration"
  | forClauses => "'(' after 'for'"
  | loopConditionEnd => "';' after loop condition"
  | forClausesEnd => "')' after for clauses"
  | ifCondition => "'(' after 'if'"
  | ifConditionEnd => "')' after if condition"
  | whileCondition => "'(' after 'while'"
  | whileConditionEnd => "')' after condition"
  | printEnd => "';' after value"
  | returnEnd => "';' after return value"
  | statementEnd => "';' after expression"
  | blockEnd => "'\x7d' after block"
  | expression => "expression"
  | expressionEnd => "end of expression"
  | groupEnd => "')' after expression"
  | argumentsEnd => "')' after arguments"
  | propertyName => "property name after '.'"
  | superDot => "'.' after 'super'"
  | superMethodName => "superclass method name"

def maxArity : Nat := 255

inductive Problem
  | unexpectedCharacter | unterminatedString
  | expected (what : Expected)
  | tooManyParameters | tooManyArguments
  | invalidAssignmentTarget
  | alreadyDeclared
  | localInOwnInitializer | globalInOwnInitializer
  | returnOutsideFunction | valueFromInitializer
  | inheritsFromItself
  | thisOutsideClass | superOutsideClass | superWithoutSuperclass

def Problem.text : Problem → String
  | unexpectedCharacter => "Unexpected character."
  | unterminatedString => "Unterminated string."
  | expected what => "Expect " ++ what.text ++ "."
  | tooManyParameters => "Can't have more than " ++ toString maxArity ++ " parameters."
  | tooManyArguments => "Can't have more than " ++ toString maxArity ++ " arguments."
  | invalidAssignmentTarget => "Invalid assignment target."
  | alreadyDeclared => "Already a variable with this name in this scope."
  | localInOwnInitializer => "Can't read local variable in its own initializer."
  | globalInOwnInitializer => "Can't read variable in its own initializer."
  | returnOutsideFunction => "Can't return from top-level code."
  | valueFromInitializer => "Can't return a value from an initializer."
  | inheritsFromItself => "A class can't inherit from itself."
  | thisOutsideClass => "Can't use 'this' outside of a class."
  | superOutsideClass => "Can't use 'super' outside of a class."
  | superWithoutSuperclass => "Can't use 'super' in a class with no superclass."

inductive Place
  | somewhere
  | finish
  | lexeme (text : String)

def Place.text : Place → String
  | somewhere => ""
  | finish => " at end"
  | lexeme text => " at '" ++ text ++ "'"

structure StaticError where
  line : Nat
  place : Place
  problem : Problem

namespace StaticError

def atToken (t : Token) (problem : Problem) : StaticError := ⟨t.line, .lexeme t.lexeme, problem⟩

end StaticError
end Lox
