import Lox.Proofs.Homes

/-! Construction. A class that is called gives a new instance, set up by the nearest initializer on
its chain, and an initializer gives the instance that it is bound to. A run is supervised when each
call is checked to do so, with an alarm that goes off otherwise. -/

namespace Lox

namespace Class

def chain : Class → List Class
  | root id name methods => [root id name methods]
  | derived id name methods superclass => derived id name methods superclass :: superclass.chain

/-- The method of the nearest class on the chain that has one of the name. -/
def nearest (name : String) (c : Class) : Option Closure :=
  c.chain.findSome? fun d => d.methods.find? name

theorem nearest_eq (name : String) (c : Class) : c.nearest name = c.findMethod name := by
  induction c with
  | root id className methods =>
    simp only [nearest, chain, List.findSome?_cons, List.findSome?_nil, Class.methods, findMethod]
    cases methods.find? name <;> rfl
  | derived id className methods superclass ih =>
    simp only [nearest, chain, List.findSome?_cons, Class.methods, findMethod] at ih ⊢
    rw [ih]
    cases methods.find? name <;> rfl

end Class

def Value.RefersTo (ref : Nat) : Value → Prop
  | .object r _ => r = ref
  | _ => False

/-- There is no instance of that number on the machine, and nothing refers to one. -/
structure Machine.Lacks (m : Machine) (ref : Nat) : Prop where
  object : m.objects[ref]? = none
  bound : ∀ e x v, m.environments.find? e x = some v → ¬v.RefersTo ref
  fields : ∀ (r : Nat) b x v, m.objects[r]? = some b → b.find? x = some v → ¬v.RefersTo ref

namespace Eval

/-- A method of the superclass, bound as `bind` says. -/
def superMethodBy (bind : Closure → Value → Eval Closure) (keyword : Token) (target : Hops)
    (method : Token) : Eval Value := do
  match target with
  | none => throw (.fault (.unresolved keyword.lexeme))
  | some distance =>
    let m ← get
    let superclass ← ofFault (m.environments.getAt m.current distance "super")
    let receiver ← ofFault (m.environments.getAt m.current (distance - 1) "this")
    match superclass with
    | .class_ c =>
      match c.findMethod method.lexeme with
      | some f => return .function (← bind f receiver)
      | none => raise (.undefinedProperty method.lexeme) method.line
    | _ => throw (.fault .notClass)

end Eval

/-- The instance that each function is bound to, if it is bound to one. -/
abbrev Register := Nat → Option Value

namespace Register
open Eval
variable (settings : Settings) (R : Register) (alarm : Failure)

open Classical in
noncomputable def require (p : Prop) : Eval Unit := if p then return () else throw alarm

noncomputable def bindMethod (method : Closure) (receiver : Value) : Eval Closure := do
  let f ← Eval.bindMethod method receiver
  require alarm (R f.id = some receiver)
  return f

/-- However its body ends, an initializer gives the instance that it is bound to. -/
noncomputable def enter (ex : BoundStmt → Eval Completion) (f : Closure) (arguments : List Value) :
    Eval Value := do
  let value ← apply ex f arguments
  require alarm (∀ receiver ∈ R f.id, f.declaration.isInitializer → value = receiver)
  return value

/-- An instance of the class, or what the nearest initializer gives when it is bound to that. -/
noncomputable def construct (enter : Closure → List Value → Eval Value) (c : Class)
    (arguments : List Value) : Eval Value := do
  let receiver ← newInstance c
  match c.nearest Function.initializerName with
  | some f => enter (← bindMethod R alarm f receiver) arguments
  | none => return receiver

/-- What a class gives is an instance of that very class, and was nowhere before the call. -/
noncomputable def callValue (enter : Closure → List Value → Eval Value) (callee : Value)
    (arguments : List Value) : Eval Value := do
  match callee with
  | .class_ c =>
    let m ← get
    let value ← construct R alarm enter c arguments
    require alarm (∃ ref, value = .object ref c ∧ m.Lacks ref ∧ ∀ v ∈ arguments, ¬v.RefersTo ref)
    return value
  | _ => Eval.callValue enter callee arguments

noncomputable def call (enter : Closure → List Value → Eval Value) (callee : Value)
    (arguments : List Value) (line : Nat) : Eval Value := do
  match callee.arity? with
  | none => raise .notCallable line
  | some expected =>
    if arguments.length ≠ expected then raise (.wrongArity expected arguments.length) line
    else if settings.calls ≤ (← get).callDepth then raise .tooManyCalls line
    else inCall line (callValue R alarm enter callee arguments)

noncomputable def evaluateForm (ev : BoundExpr → Eval Value)
    (enter : Closure → List Value → Eval Value) : BoundExpr → Eval Value
  | .call callee paren arguments => do
    let callee ← ev callee
    let arguments ← evaluateAll ev arguments
    call settings R alarm enter callee arguments paren.line
  | .get object name => do
    let object ← ev object
    getPropertyBy (bindMethod R alarm) object name
  | .super keyword target method => superMethodBy (bindMethod R alarm) keyword target method
  | e => Eval.evaluateForm settings ev enter e

mutual

noncomputable def evaluate : (nesting : Nat) → BoundExpr → Eval Value
  | 0, _ => throw .exhausted
  | nesting + 1, e =>
    evaluateForm settings R alarm (evaluate nesting) (enter R alarm (execute nesting)) e

noncomputable def execute : (nesting : Nat) → BoundStmt → Eval Completion
  | 0, _ => throw .exhausted
  | nesting + 1, s => do
    if settings.trace then emit (.traced s.line s.kind)
    executeForm settings (evaluate nesting) (execute nesting) s

end

noncomputable def executeProgram : List BoundStmt → Eval Unit
  | [] => return ()
  | s :: ss => do
    let _ ← execute settings R alarm settings.nesting s
    executeProgram ss

end Register
end Lox
