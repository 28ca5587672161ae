import Lox.Environment
import Lox.RuntimeError
import Lox.Transcript
/-!
The state that a program runs on, and the steps that its evaluation is made of. A step that fails
keeps what was done before it.
-/
namespace Lox

structure Settings where
  trace : Bool := false
  /-- The greatest number of calls in progress. -/
  calls : Nat := 1000
  /-- How deep expressions and statements being evaluated may lie in each other. -/
  nesting : Nat := 50000
  /-- How often one execution of a loop may turn. -/
  turns : Nat := 0x4000000000000000

structure Machine where
  environments : Environments
  objects : Array (Bindings Value)
  /-- The number of functions and classes created. -/
  created : Nat
  /-- The environment that names are looked up from. -/
  current : Nat
  callDepth : Nat
  clock : Float
  events : Transcript

inductive Failure
  | runtime (e : RuntimeError)
  /-- No nesting is left, and no call has noticed it yet. -/
  | exhausted
  /-- A loop has used up its turns. -/
  | outOfTurns
  | fault (f : Fault)

def Failure.text : Failure → String
  | runtime e => e.text
  | exhausted => Cause.tooDeeplyNested.text
  | outOfTurns => "A loop turned too often"
  | fault f => f.text

abbrev Eval := EStateM Failure Machine

inductive Completion
  | normal
  | returned (value : Value)

namespace Machine

def globals : Nat := 0

/-- The seconds that pass from one reading of the clock to the next. -/
def tick : Float := Number.ofMagnitude false (Magnitude.nearest 1 1000000)

def initial (clock : Float) : Machine where
  environments := (Environments.empty.create none [("clock", .native .clock)]).2
  objects := #[]
  created := 0
  current := globals
  callDepth := 0
  clock
  events := []

end Machine

namespace Eval

def raise {α : Type} (cause : Cause) (line : Nat) : Eval α :=
  throw (.runtime ⟨cause, some line⟩)

def ofOperator {α : Type} (line : Nat) : Except Cause α → Eval α
  | .ok a => return a
  | .error cause => raise cause line

def ofFault {α : Type} : Except Fault α → Eval α
  | .ok a => return a
  | .error f => throw (.fault f)

def emit (e : Event) : Eval Unit := modify fun m => { m with events := e :: m.events }

def readClock : Eval Value := modifyGet fun m =>
  (.number m.clock, { m with clock := m.clock + Machine.tick })

def nextId : Eval Nat := modifyGet fun m => (m.created, { m with created := m.created + 1 })

def newEnvironment (enclosing : Nat) (bindings : Bindings Value) : Eval Nat :=
  modifyGet fun m =>
    let (e, environments) := m.environments.create (some enclosing) bindings
    (e, { m with environments })

def define (name : String) (value : Value) : Eval Unit :=
  modify fun m => { m with environments := m.environments.define m.current name value }

/-- The value of a name: in the environment so many links out, or among the globals. -/
def lookUp (name : Token) (target : Hops) : Eval Value := do
  let m ← get
  match target with
  | some distance => ofFault (m.environments.getAt m.current distance name.lexeme)
  | none =>
    match m.environments.get? Machine.globals name.lexeme with
    | some value => return value
    | none => raise (.undefinedVariable name.lexeme) name.line

def defineIn (e : Nat) (name : String) (value : Value) : Eval Unit :=
  modify fun m => { m with environments := m.environments.define e name value }

/-- Rebinds a name in the environment `e` or the nearest one around it that binds the name. -/
def assignFrom (e : Nat) (name : Token) (value : Value) : Eval Unit := do
  match (← get).environments.owner? name.lexeme e with
  | some owner => defineIn owner name.lexeme value
  | none => raise (.undefinedVariable name.lexeme) name.line

def assign (name : Token) (target : Hops) (value : Value) : Eval Unit := do
  match target with
  | some distance =>
    let m ← get
    defineIn (← ofFault (m.environments.ancestor m.current distance)) name.lexeme value
  | none => assignFrom Machine.globals name value

def newInstance (c : Class) : Eval Value :=
  modifyGet fun m => (.object m.objects.size c, { m with objects := m.objects.push [] })

def getField? (ref : Nat) (name : String) : Eval (Option Value) :=
  return ((← get).objects[ref]?).bind (·.find? name)

def setField (ref : Nat) (name : String) (value : Value) : Eval Unit :=
  modify fun m => { m with objects := m.objects.modify ref (·.put name value) }

def bindMethod (method : Closure) (receiver : Value) : Eval Closure := do
  let environment ← newEnvironment method.environment [("this", receiver)]
  return { method with id := ← nextId, environment }

/-- Runs in the environment `e` and comes back to the current one, however the run ends. -/
@[inline] def inEnvironment {α : Type} (e : Nat) (act : Eval α) : Eval α := fun m =>
  match act { m with current := e } with
  | .ok a m' => .ok a { m' with current := m.current }
  | .error f m' => .error f { m' with current := m.current }

/-- Runs a call in progress, whose closing parenthesis is on `line`. Where the nesting runs out,
the innermost call says so. -/
@[inline] def inCall {α : Type} (line : Nat) (act : Eval α) : Eval α := fun m =>
  match act { m with callDepth := m.callDepth + 1 } with
  | .ok a m' => .ok a { m' with callDepth := m'.callDepth - 1 }
  | .error .exhausted m' =>
    .error (.runtime ⟨.tooDeeplyNested, some line⟩) { m' with callDepth := m'.callDepth - 1 }
  | .error f m' => .error f { m' with callDepth := m'.callDepth - 1 }

end Eval
end Lox
