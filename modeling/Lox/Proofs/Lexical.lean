import Lox.Proofs.Placement
import Lox.Machine
import Lox.Value.Operator

/-! Lexical scoping as a semantics of its own. A scope is a map from names to locations that never
changes: a local declaration extends it with a fresh location, from the declaration itself to the
end of the block. A function keeps the map in force where it is declared. A name that is not in the
map is the global of that name. Nothing is resolved beforehand. -/

namespace Lox.Lexical

/-- At the top level of a program every name is global. -/
inductive Scope
  | topLevel
  | local_ (locations : Bindings Nat)

namespace Scope

def location? : Scope → String → Option Nat
  | topLevel, _ => none
  | local_ locations, name => locations.find? name

/-- Inside a block, a function or a class. -/
def inner : Scope → Scope
  | topLevel => local_ []
  | local_ locations => local_ locations

end Scope

abbrev Datum := Value Unit Scope
abbrev Code := Closure Unit Scope
abbrev Blueprint := Class Unit Scope

structure Store where
  cells : Array Datum
  globals : Bindings Datum
  objects : Array (Bindings Datum)
  created : Nat
  callDepth : Nat
  clock : Float
  output : String

inductive Stop
  | runtime (e : RuntimeError)
  /-- The run is longer or lies deeper than was to be followed. -/
  | outOfFuel

abbrev Run := EStateM Stop Store

def Store.initial (clock : Float) : Store where
  cells := #[]
  globals := [("clock", .native .clock)]
  objects := #[]
  created := 0
  callDepth := 0
  clock
  output := ""

def raise {α : Type} (cause : Cause) (line : Nat) : Run α := throw (.runtime ⟨cause, some line⟩)

def ofOperator {α : Type} (line : Nat) : Except Cause α → Run α
  | .ok a => return a
  | .error cause => raise cause line

def printLine (text : String) : Run Unit :=
  modify fun s => { s with output := s.output ++ (text ++ "\n") }

def readClock : Run Datum := modifyGet fun s =>
  (.number s.clock, { s with clock := s.clock + Machine.tick })

def nextId : Run Nat := modifyGet fun s => (s.created, { s with created := s.created + 1 })

/-- Extends a local scope with a fresh location. -/
def declare (name : String) : Scope → Run Scope
  | .topLevel => return .topLevel
  | .local_ locations => modifyGet fun s =>
    (.local_ ((name, s.cells.size) :: locations), { s with cells := s.cells.push .nil })

def write (location : Nat) (value : Datum) : Run Unit :=
  modify fun s => { s with cells := s.cells.setIfInBounds location value }

def writeGlobal (name : String) (value : Datum) : Run Unit :=
  modify fun s => { s with globals := s.globals.put name value }

/-- Gives a declared name its value. -/
def define (scope : Scope) (name : String) (value : Datum) : Run Unit :=
  match scope.location? name with
  | some location => write location value
  | none => writeGlobal name value

def bind (scope : Scope) (name : String) (value : Datum) : Run Scope := do
  let scope ← declare name scope
  define scope name value
  return scope

def bindAll : Scope → List Token → List Datum → Run Scope
  | scope, p :: ps, v :: vs => do bindAll (← bind scope p.lexeme v) ps vs
  | scope, _, _ => return scope

def lookUp (scope : Scope) (name : Token) : Run Datum := do
  let s ← get
  match scope.location? name.lexeme with
  | some location => return s.cells[location]?.getD .nil
  | none =>
    match s.globals.find? name.lexeme with
    | some value => return value
    | none => raise (.undefinedVariable name.lexeme) name.line

def assign (scope : Scope) (name : Token) (value : Datum) : Run Unit := do
  match scope.location? name.lexeme with
  | some location => write location value
  | none =>
    match (← get).globals.find? name.lexeme with
    | some _ => writeGlobal name.lexeme value
    | none => raise (.undefinedVariable name.lexeme) name.line

/-- The value of a name that classes bind. -/
def special (scope : Scope) (name : String) : Run Datum :=
  return ((scope.location? name).bind ((← get).cells[·]?)).getD .nil

def newInstance (c : Blueprint) : Run Datum :=
  modifyGet fun s => (.object s.objects.size c, { s with objects := s.objects.push [] })

def getField? (ref : Nat) (name : String) : Run (Option Datum) :=
  return ((← get).objects[ref]?).bind (·.find? name)

def setField (ref : Nat) (name : String) (value : Datum) : Run Unit :=
  modify fun s => { s with objects := s.objects.modify ref (·.put name value) }

def bindMethod (method : Code) (receiver : Datum) : Run Code := do
  let environment ← bind method.environment.inner "this" receiver
  return { method with id := ← nextId, environment }

def inCall {α : Type} (act : Run α) : Run α := fun s =>
  match act { s with callDepth := s.callDepth + 1 } with
  | .ok a s' => .ok a { s' with callDepth := s'.callDepth - 1 }
  | .error f s' => .error f { s' with callDepth := s'.callDepth - 1 }

def evaluateAll (ev : RawExpr → Run Datum) : List RawExpr → Run (List Datum)
  | [] => return []
  | e :: es => do
    let value ← ev e
    return value :: (← evaluateAll ev es)

/-- Statements in order; the value is that of the first one that returns. A declaration is in
scope from its own statement on. -/
def executeAll (ex : Scope → RawStmt → Run (Option Datum)) :
    Scope → List RawStmt → Run (Option Datum)
  | _, [] => return none
  | scope, st :: ss => do
    let scope ←
      match st.declared? with
      | some name => declare name.lexeme scope
      | none => pure scope
    match ← ex scope st with
    | none => executeAll ex scope ss
    | some value => return some value

def apply (ex : Scope → RawStmt → Run (Option Datum)) (f : Code) (arguments : List Datum) :
    Run Datum := do
  let scope ← bindAll f.environment.inner f.declaration.parameters arguments
  let returned ← executeAll ex scope f.declaration.body
  if f.isInitializer then special f.environment "this" else return returned.getD .nil

def callValue (enter : Code → List Datum → Run Datum) (callee : Datum) (arguments : List Datum) :
    Run Datum := do
  match callee with
  | .native .clock => readClock
  | .function f => enter f arguments
  | .class_ c =>
    let receiver ← newInstance c
    match c.initializer with
    | some f =>
      let _ ← enter (← bindMethod f receiver) arguments
      return receiver
    | none => return receiver
  | _ => return .nil

def call (settings : Settings) (enter : Code → List Datum → Run Datum) (callee : Datum)
    (arguments : List Datum) (line : Nat) : Run Datum := do
  match callee.arity? with
  | none => raise .notCallable line
  | some expected =>
    if arguments.length ≠ expected then raise (.wrongArity expected arguments.length) line
    else if settings.calls ≤ (← get).callDepth then raise .tooManyCalls line
    else inCall (callValue enter callee arguments)

def getProperty (object : Datum) (name : Token) : Run Datum := do
  match object with
  | .object ref c =>
    match ← getField? ref name.lexeme with
    | some value => return value
    | none =>
      match c.findMethod name.lexeme with
      | some f => return .function (← bindMethod f object)
      | none => raise (.undefinedProperty name.lexeme) name.line
  | _ => raise .propertyOfNonInstance name.line

def superMethod (scope : Scope) (method : Token) : Run Datum := do
  let superclass ← special scope "super"
  let receiver ← special scope "this"
  match superclass with
  | .class_ c =>
    match c.findMethod method.lexeme with
    | some f => return .function (← bindMethod f receiver)
    | none => raise (.undefinedProperty method.lexeme) method.line
  | _ => raise .superclassNotClass method.line

def evaluateForm (settings : Settings) (ev : RawExpr → Run Datum)
    (enter : Code → List Datum → Run Datum) (scope : Scope) : RawExpr → Run Datum
  | .literal _ value => return .ofLiteral value
  | .grouping _ inner => ev inner
  | .unary operator right => do
    let right ← ev right
    ofOperator operator.line (Value.unary operator.kind operator.lexeme right)
  | .binary left operator right => do
    let left ← ev left
    let right ← ev right
    ofOperator operator.line (Value.binary operator.kind operator.lexeme left right)
  | .logical left operator right => do
    let left ← ev left
    if Value.decides operator.kind left then return left else ev right
  | .read name _ => lookUp scope name
  | .assign _ name _ value => do
    let value ← ev value
    assign scope name value
    return value
  | .call callee paren arguments => do
    let callee ← ev callee
    let arguments ← evaluateAll ev arguments
    call settings enter callee arguments paren.line
  | .get object name => do
    let object ← ev object
    getProperty object name
  | .set _ object name value => do
    match ← ev object with
    | .object ref _ =>
      let value ← ev value
      setField ref name.lexeme value
      return value
    | _ => raise .fieldOfNonInstance name.line
  | .this keyword _ => lookUp scope keyword
  | .super _ _ method => superMethod scope method

def loop (test : Run Datum) (body : Run (Option Datum)) : (turns : Nat) → Run (Option Datum)
  | 0 => throw .outOfFuel
  | turns + 1 => do
    if (← test).isTruthy then
      match ← body with
      | none => loop test body turns
      | some value => return some value
    else return none

def newFunction (scope : Scope) (declaration : RawFunction) (isInitializer : Bool) : Run Code := do
  return { id := ← nextId, declaration, environment := scope, isInitializer }

def newMethods (scope : Scope) : List RawFunction → Bindings Code → Run (Bindings Code)
  | [], methods => return methods
  | f :: fs, methods => do
    let method ← newFunction scope f f.isInitializer
    newMethods scope fs (methods.put f.name.lexeme method)

def declareClass (ev : RawExpr → Run Datum) (scope : Scope) (name : Token)
    (superclass? : Option (Superclass Unit)) (methods : List RawFunction) : Run Unit := do
  match superclass? with
  | none =>
    define scope name.lexeme .nil
    let methods ← newMethods scope methods []
    define scope name.lexeme (.class_ (.root (← nextId) name.lexeme methods))
  | some s =>
    match ← ev s.expr with
    | .class_ superclass =>
      define scope name.lexeme .nil
      let methods ← newMethods (← bind scope.inner "super" (.class_ superclass)) methods []
      define scope name.lexeme (.class_ (.derived (← nextId) name.lexeme methods superclass))
    | _ => raise .superclassNotClass s.name.line

/-- Executes a statement whose own declaration is in the scope already. -/
def executeForm (settings : Settings) (ev : RawExpr → Run Datum)
    (ex : Scope → RawStmt → Run (Option Datum)) (scope : Scope) : RawStmt → Run (Option Datum)
  | .expression _ value => do
    let _ ← ev value
    return none
  | .print _ value => do
    let value ← ev value
    printLine value.text
    return none
  | .var name initializer => do
    let value ←
      match initializer with
      | some e => ev e
      | none => pure .nil
    define scope name.lexeme value
    return none
  | .block _ body => executeAll ex scope.inner body
  | .ifThen _ condition thenBranch => do
    if (← ev condition).isTruthy then ex scope thenBranch else return none
  | .ifElse _ condition thenBranch elseBranch => do
    if (← ev condition).isTruthy then ex scope thenBranch else ex scope elseBranch
  | .while_ _ condition body => loop (ev condition) (ex scope body) settings.turns
  | .function declaration => do
    let f ← newFunction scope declaration false
    define scope f.name (.function f)
    return none
  | .return_ _ value => do
    match value with
    | some e => return some (← ev e)
    | none => return some .nil
  | .class_ _ name superclass methods => do
    declareClass ev scope name superclass methods
    return none

mutual

def evaluate (settings : Settings) : (fuel : Nat) → Scope → RawExpr → Run Datum
  | 0, _, _ => throw .outOfFuel
  | fuel + 1, scope, e =>
    evaluateForm settings (evaluate settings fuel scope) (apply (execute settings fuel)) scope e

def execute (settings : Settings) : (fuel : Nat) → Scope → RawStmt → Run (Option Datum)
  | 0, _, _ => throw .outOfFuel
  | fuel + 1, scope, st =>
    executeForm settings (evaluate settings fuel scope) (execute settings fuel) scope st

end

def executeProgram (settings : Settings) : List RawStmt → Run Unit
  | [] => return ()
  | st :: ss => do
    let _ ← execute settings settings.nesting .topLevel st
    executeProgram settings ss

def run (settings : Settings) (program : List RawStmt) (clock : Float) : Option Stop × Store :=
  match executeProgram settings program (.initial clock) with
  | .ok _ s => (none, s)
  | .error stop s => (some stop, s)

end Lox.Lexical
