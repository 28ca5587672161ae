import Lox.Machine
import Lox.Value.Operator
/-!
Evaluation of resolved programs. Each form is evaluated in terms of `ev` and `ex`, which evaluate
what lies inside it, and of `enter`, which runs a function; `evaluate` and `execute` close the
circle, one level of nesting at a time.
-/
namespace Lox.Eval

@[specialize] def evaluateAll (ev : BoundExpr → Eval Value) : List BoundExpr → Eval (List Value)
  | [] => return []
  | e :: es => do
    let value ← ev e
    return value :: (← evaluateAll ev es)

@[specialize] def executeAll (ex : BoundStmt → Eval Completion) : List BoundStmt → Eval Completion
  | [] => return .normal
  | s :: ss => do
    match ← ex s with
    | .normal => executeAll ex ss
    | .returned value => return .returned value

@[specialize] def executeBlock (ex : BoundStmt → Eval Completion) (enclosing : Nat)
    (bindings : Bindings Value) (body : List BoundStmt) : Eval Completion := do
  let e ← newEnvironment enclosing bindings
  inEnvironment e (executeAll ex body)

/-- Runs a function. Parameters of one name are one binding, the last argument its value. An
initializer gives the instance that it was bound to, whatever it returns. -/
@[specialize] def apply (ex : BoundStmt → Eval Completion) (f : Closure) (arguments : List Value) :
    Eval Value := do
  let names := f.declaration.parameters.map Token.lexeme
  let completion ← executeBlock ex f.environment (.ofPairs (names.zip arguments)) f.declaration.body
  if f.isInitializer then
    ofFault ((← get).environments.getAt f.environment 0 "this")
  else
    match completion with
    | .normal => return .nil
    | .returned value => return value

@[specialize] def callValue (enter : Closure → List Value → Eval Value) (callee : Value)
    (arguments : List Value) : Eval Value := do
  match callee with
  | .native .clock => readClock
  | .function f => enter f arguments
  | .class_ c =>
    let receiver ← newInstance c
    match c.initializer with
    | some f =>
      let _ ← enter (← bindMethod f receiver) arguments
      return receiver
    | none => return receiver
  | _ => return .nil

/-- Calls a value if it can be called with so many arguments and the calls in progress leave
room. -/
@[specialize] def call (settings : Settings) (enter : Closure → List Value → Eval Value)
    (callee : Value) (arguments : List Value) (line : Nat) : Eval Value := do
  match callee.arity? with
  | none => raise .notCallable line
  | some expected =>
    if arguments.length ≠ expected then raise (.wrongArity expected arguments.length) line
    else if settings.calls ≤ (← get).callDepth then raise .tooManyCalls line
    else inCall line (callValue enter callee arguments)

def getProperty (object : Value) (name : Token) : Eval Value := do
  match object with
  | .object ref c =>
    match ← getField? ref name.lexeme with
    | some value => return value
    | none =>
      match c.findMethod name.lexeme with
      | some f => return .function (← bindMethod f object)
      | none => raise (.undefinedProperty name.lexeme) name.line
  | _ => raise .propertyOfNonInstance name.line

/-- A method of the superclass bound to the current instance, which lies in the environment just
inside the one that binds `super`. -/
def superMethod (keyword : Token) (target : Hops) (method : Token) : Eval Value := do
  match target with
  | none => throw (.fault (.unresolved keyword.lexeme))
  | some distance =>
    let m ← get
    let superclass ← ofFault (m.environments.getAt m.current distance "super")
    let receiver ← ofFault (m.environments.getAt m.current (distance - 1) "this")
    match superclass with
    | .class_ c =>
      match c.findMethod method.lexeme with
      | some f => return .function (← bindMethod f receiver)
      | none => raise (.undefinedProperty method.lexeme) method.line
    | _ => throw (.fault .notClass)

@[inline] def evaluateForm (settings : Settings) (ev : BoundExpr → Eval Value)
    (enter : Closure → List Value → Eval Value) : BoundExpr → Eval Value
  | .literal _ value => return .ofLiteral value
  | .grouping _ inner => ev inner
  | .unary operator right => do
    let right ← ev right
    ofOperator operator.line (Value.unary operator.kind operator.lexeme right)
  | .binary left operator right => do
    let left ← ev left
    let right ← ev right
    ofOperator operator.line (Value.binary operator.kind operator.lexeme left right)
  | .logical left operator right => do
    let left ← ev left
    if Value.decides operator.kind left then return left else ev right
  | .read name target => lookUp name target
  | .assign _ name target value => do
    let value ← ev value
    assign name target value
    return value
  | .call callee paren arguments => do
    let callee ← ev callee
    let arguments ← evaluateAll ev arguments
    call settings enter callee arguments paren.line
  | .get object name => do
    let object ← ev object
    getProperty object name
  | .set _ object name value => do
    match ← ev object with
    | .object ref _ =>
      let value ← ev value
      setField ref name.lexeme value
      return value
    | _ => raise .fieldOfNonInstance name.line
  | .this keyword target => lookUp keyword target
  | .super keyword target method => superMethod keyword target method

@[specialize] def loop (test : Eval Value) (body : Eval Completion) :
    (turns : Nat) → Eval Completion
  | 0 => throw .outOfTurns
  | turns + 1 => do
    if (← test).isTruthy then
      match ← body with
      | .normal => loop test body turns
      | .returned value => return .returned value
    else return .normal

def newFunction (declaration : BoundFunction) (isInitializer : Bool) : Eval Closure := do
  return { id := ← nextId, declaration, environment := (← get).current, isInitializer }

/-- Methods by name; of two with one name the later one is kept. -/
def newMethods : List BoundFunction → Bindings Closure → Eval (Bindings Closure)
  | [], methods => return methods
  | f :: fs, methods => do
    let method ← newFunction f f.isInitializer
    newMethods fs (methods.put f.name.lexeme method)

/-- Creates a class. Its name is bound before its methods are created; those of a subclass are
created in an environment of their own that binds `super`. -/
@[specialize] def declareClass (ev : BoundExpr → Eval Value) (name : Token)
    (superclass? : Option (Superclass Hops)) (methods : List BoundFunction) : Eval Unit := do
  match superclass? with
  | none =>
    define name.lexeme .nil
    let methods ← newMethods methods []
    let c := Class.root (← nextId) name.lexeme methods
    assignFrom (← get).current name (.class_ c)
  | some s =>
    match ← ev s.expr with
    | .class_ superclass =>
      define name.lexeme .nil
      let e ← newEnvironment (← get).current [("super", .class_ superclass)]
      let methods ← inEnvironment e (newMethods methods [])
      let c := Class.derived (← nextId) name.lexeme methods superclass
      assignFrom (← get).current name (.class_ c)
    | _ => raise .superclassNotClass s.name.line

@[inline] def executeForm (settings : Settings) (ev : BoundExpr → Eval Value)
    (ex : BoundStmt → Eval Completion) : BoundStmt → Eval Completion
  | .expression _ value => do
    let _ ← ev value
    return .normal
  | .print _ value => do
    let value ← ev value
    emit (.printed value.text)
    return .normal
  | .var name initializer => do
    let value ←
      match initializer with
      | some e => ev e
      | none => pure .nil
    define name.lexeme value
    return .normal
  | .block _ body => do executeBlock ex (← get).current [] body
  | .ifThen _ condition thenBranch => do
    if (← ev condition).isTruthy then ex thenBranch else return .normal
  | .ifElse _ condition thenBranch elseBranch => do
    if (← ev condition).isTruthy then ex thenBranch else ex elseBranch
  | .while_ _ condition body => loop (ev condition) (ex body) settings.turns
  | .function declaration => do
    let f ← newFunction declaration false
    define f.name (.function f)
    return .normal
  | .return_ _ value => do
    match value with
    | some e => return .returned (← ev e)
    | none => return .returned .nil
  | .class_ _ name superclass methods => do
    declareClass ev name superclass methods
    return .normal

mutual

def evaluate (settings : Settings) : (nesting : Nat) → BoundExpr → Eval Value
  | 0, _ => throw .exhausted
  | nesting + 1, e =>
    evaluateForm settings (evaluate settings nesting) (apply (execute settings nesting)) e

/-- Executes a statement, with so much nesting left. A trace shows it before anything it does. -/
def execute (settings : Settings) : (nesting : Nat) → BoundStmt → Eval Completion
  | 0, _ => throw .exhausted
  | nesting + 1, s => do
    if settings.trace then emit (.traced s.line s.kind)
    executeForm settings (evaluate settings nesting) (execute settings nesting) s

end

/-- Runs the statements of a program; one that returns does not keep the next from running. -/
def executeProgram (settings : Settings) : List BoundStmt → Eval Unit
  | [] => return ()
  | s :: ss => do
    let _ ← execute settings settings.nesting s
    executeProgram settings ss

end Lox.Eval

namespace Lox.Machine

/-- Runs a program to its end; the machine is then ready for the next one, however this one ends. -/
def run (program : Eval Unit) (m : Machine) : Option Failure × Machine :=
  match program m with
  | .ok _ m => (none, { m with current := globals, callDepth := 0 })
  | .error f m => (some f, { m with current := globals, callDepth := 0 })

def globalValues (m : Machine) : List (String × Value) :=
  (m.environments.bindings globals).mergeSort fun a b => decide (a.1 ≤ b.1)

end Lox.Machine
