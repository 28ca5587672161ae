import Lox.Bindings
import Lox.Problem
import Lox.Syntax
/-!
Static scopes. Resolving a program finds for each use of a name how many scopes out the name is
declared, and reports what a program may not do with its scopes, functions and classes.
-/
namespace Lox

inductive Activation
  | topLevel | function | initializer | method
deriving DecidableEq

inductive ClassContext
  | outside | class_ | subclass
deriving DecidableEq

/-- The local scopes around a place in a program, the innermost first, and what else is known
there. A name is bound to `false` from its declaration to the end of its initializer. -/
structure Surroundings where
  scopes : List (Bindings Bool)
  /-- The global whose initializer this is. -/
  pending : Option String
  activation : Activation
  context : ClassContext

/-- What a resolver knows at a place, and what it has found wrong before. -/
structure Scoping extends Surroundings where
  /-- Newest first. -/
  errors : List StaticError

abbrev Resolver := StateM Scoping

namespace Resolver

def report (t : Token) (problem : Problem) : Resolver Unit :=
  modify fun s => { s with errors := .atToken t problem :: s.errors }

/-- Names at the top level are not kept. -/
def bind (name : String) (ready : Bool) : Resolver Unit :=
  modify fun s =>
    match s.scopes with
    | [] => s
    | scope :: scopes => { s with scopes := scope.put name ready :: scopes }

def declare (name : Token) : Resolver Unit := do
  if ((← get).scopes.head?.bind (·.find? name.lexeme)).isSome then report name .alreadyDeclared
  bind name.lexeme false

def define (name : Token) : Resolver Unit := bind name.lexeme true

def hops (name : String) : Resolver Hops :=
  return (← get).scopes.findIdx? fun scope => (scope.find? name).isSome

def inScope {α : Type} (initial : Bindings Bool) (body : Resolver α) : Resolver α := do
  modify fun s => { s with scopes := initial :: s.scopes }
  let a ← body
  modify fun s => { s with scopes := s.scopes.tail }
  return a

def inActivation {α : Type} (activation : Activation) (body : Resolver α) : Resolver α := do
  let outer := (← get).activation
  modify fun s => { s with activation }
  let a ← body
  modify fun s => { s with activation := outer }
  return a

def inContext {α : Type} (context : ClassContext) (body : Resolver α) : Resolver α := do
  let outer := (← get).context
  modify fun s => { s with context }
  let a ← body
  modify fun s => { s with context := outer }
  return a

/-- The initializer of `name`; only that of a global is remembered as one. -/
def inInitializer {α : Type} (name : Token) (body : Resolver α) : Resolver α := do
  let outer := (← get).pending
  if (← get).scopes.isEmpty then modify fun s => { s with pending := some name.lexeme }
  let a ← body
  modify fun s => { s with pending := outer }
  return a

/-- A name read. A name may not be read in its own initializer; a local one is the name that is
declared but not ready in the innermost scope. -/
def read (name : Token) : Resolver Hops := do
  let s ← get
  match s.scopes with
  | scope :: _ =>
    if scope.find? name.lexeme = some false then report name .localInOwnInitializer
  | [] => if s.pending = some name.lexeme then report name .globalInOwnInitializer
  hops name.lexeme

def this (keyword : Token) : Resolver Hops := do
  if (← get).context = .outside then
    report keyword .thisOutsideClass
    return none
  else hops keyword.lexeme

def super (keyword : Token) : Resolver Hops := do
  match (← get).context with
  | .outside => report keyword .superOutsideClass
  | .class_ => report keyword .superWithoutSuperclass
  | .subclass => pure ()
  hops keyword.lexeme

mutual

/-- The parts are visited in the order in which they would report: the value of an assignment
before its target. -/
def expr : RawExpr → Resolver BoundExpr
  | .literal line value => return .literal line value
  | .grouping line inner => return .grouping line (← expr inner)
  | .unary operator right => return .unary operator (← expr right)
  | .binary left operator right => return .binary (← expr left) operator (← expr right)
  | .logical left operator right => return .logical (← expr left) operator (← expr right)
  | .read name _ => return .read name (← read name)
  | .assign line name _ value => do
    let value ← expr value
    return .assign line name (← hops name.lexeme) value
  | .call callee paren arguments => return .call (← expr callee) paren (← exprs arguments)
  | .get object name => return .get (← expr object) name
  | .set line object name value => do
    let value ← expr value
    return .set line (← expr object) name value
  | .this keyword _ => return .this keyword (← this keyword)
  | .super keyword _ method => return .super keyword (← super keyword) method

def exprs : List RawExpr → Resolver (List BoundExpr)
  | [] => return []
  | e :: es => return (← expr e) :: (← exprs es)

end

def expr? : Option RawExpr → Resolver (Option BoundExpr)
  | some e => some <$> expr e
  | none => return none

def superclass (name : Token) (s : Superclass Unit) : Resolver (Superclass Hops) := do
  if s.name.lexeme = name.lexeme then report s.name .inheritsFromItself
  return ⟨s.name, ← read s.name⟩

def methodActivation (f : RawFunction) : Activation :=
  if f.isInitializer then .initializer else .method

mutual

def stmt : RawStmt → Resolver BoundStmt
  | .expression line value => return .expression line (← expr value)
  | .print line value => return .print line (← expr value)
  | .var name initializer => do
    declare name
    let initializer ←
      match initializer with
      | some e => some <$> inInitializer name (expr e)
      | none => pure none
    define name
    return .var name initializer
  | .block line body => return .block line (← inScope [] (stmts body))
  | .ifThen line condition thenBranch =>
    return .ifThen line (← expr condition) (← stmt thenBranch)
  | .ifElse line condition thenBranch elseBranch =>
    return .ifElse line (← expr condition) (← stmt thenBranch) (← stmt elseBranch)
  | .while_ line condition body => return .while_ line (← expr condition) (← stmt body)
  | .function (.mk name parameters body) => do
    declare name
    define name
    return .function (← function .function (.mk name parameters body))
  | .return_ keyword value => do
    let activation := (← get).activation
    if activation = .topLevel then report keyword .returnOutsideFunction
    if value.isSome ∧ activation = .initializer then report keyword .valueFromInitializer
    return .return_ keyword (← expr? value)
  | .class_ line name superclass? methods => do
    declare name
    define name
    match superclass? with
    | none =>
      inContext .class_ do
        let methods ← inScope [("this", true)] (functions methods)
        return .class_ line name none methods
    | some s =>
      inContext .subclass do
        let s ← superclass name s
        let methods ← inScope [("super", true)] (inScope [("this", true)] (functions methods))
        return .class_ line name (some s) methods

/-- Parameters and body share a scope. -/
def function (activation : Activation) : RawFunction → Resolver BoundFunction
  | .mk name parameters body =>
    inActivation activation do
      let body ← inScope [] do
        parameters.forM fun p => do
          declare p
          define p
        stmts body
      return .mk name parameters body

def functions : List RawFunction → Resolver (List BoundFunction)
  | [] => return []
  | f :: fs => return (← function (methodActivation f) f) :: (← functions fs)

def stmts : List RawStmt → Resolver (List BoundStmt)
  | [] => return []
  | s :: ss => return (← stmt s) :: (← stmts ss)

end

end Resolver

def Surroundings.topLevel : Surroundings := ⟨[], none, .topLevel, .outside⟩

def Scoping.topLevel : Scoping := ⟨.topLevel, []⟩

structure Resolution where
  program : List BoundStmt
  errors : List StaticError

def Resolution.ofProgram (program : List RawStmt) : Resolution :=
  let (program, s) := (Resolver.stmts program).run .topLevel
  ⟨program, s.errors.reverse⟩

end Lox
