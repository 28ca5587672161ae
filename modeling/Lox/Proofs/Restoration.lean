import Lox.Proofs.Heap
import Lox.Proofs.Lockstep
import Lox.Proofs.Splitting

/-! Restoration. However an evaluation ends, the environment and the number of calls in progress are
afterwards what they were before. A watched evaluation is told how many calls it lies in, and puts
nothing back when it fails; it ends as the evaluation itself does, and leaves a failing machine as
it was at the moment of the failure. -/

namespace Lox
namespace Watch
open Eval
variable {α : Type}

/-- Goes to another environment, and comes back from it unless the run fails. -/
def inEnvironment (e : Nat) (act : Eval α) : Eval α := fun m =>
  match act { m with current := e } with
  | .ok a m' => .ok a { m' with current := m.current }
  | .error f m' => .error f m'

/-- Counts a call until it ends, unless it fails. -/
def inCall (line : Nat) (act : Eval α) : Eval α := fun m =>
  match act { m with callDepth := m.callDepth + 1 } with
  | .ok a m' => .ok a { m' with callDepth := m'.callDepth - 1 }
  | .error .exhausted m' => .error (.runtime ⟨.tooDeeplyNested, some line⟩) m'
  | .error f m' => .error f m'

section
variable (settings : Settings) (alarm : Failure)

/-- Goes into an environment and then out of it again, along its link. -/
def passThrough (e : Nat) (act : Eval α) : Eval α := do
  modify fun m => { m with current := e }
  let a ← act
  let m ← get
  match m.environments.link? m.current with
  | some outer =>
    modify fun m => { m with current := outer }
    return a
  | none => throw alarm

/-- Sounds the alarm unless the machine counts the calls that are in progress, and no more than
there may be. -/
def check (opened : Nat) : Eval Unit := do
  let m ← get
  if m.callDepth = opened ∧ opened ≤ settings.calls then return () else throw alarm

def executeBlock (ex : BoundStmt → Eval Completion) (enclosing : Nat) (bindings : Bindings Value)
    (body : List BoundStmt) : Eval Completion := do
  let e ← newEnvironment enclosing bindings
  inEnvironment e (executeAll ex body)

def apply (ex : BoundStmt → Eval Completion) (f : Closure) (arguments : List Value) :
    Eval Value := do
  let names := f.declaration.parameters.map Token.lexeme
  let completion ← executeBlock ex f.environment (.ofPairs (names.zip arguments)) f.declaration.body
  if f.isInitializer then
    ofFault ((← get).environments.getAt f.environment 0 "this")
  else
    match completion with
    | .normal => return .nil
    | .returned value => return value

/-- A class is called together with its initializer: that is one call. -/
def call (opened : Nat) (enter : Closure → List Value → Eval Value) (callee : Value)
    (arguments : List Value) (line : Nat) : Eval Value := do
  match callee.arity? with
  | none => raise .notCallable line
  | some expected =>
    if arguments.length ≠ expected then raise (.wrongArity expected arguments.length) line
    else if settings.calls ≤ opened then raise .tooManyCalls line
    else inCall line do
      check settings alarm (opened + 1)
      callValue enter callee arguments

def declareClass (ev : BoundExpr → Eval Value) (name : Token)
    (superclass? : Option (Superclass Hops)) (methods : List BoundFunction) : Eval Unit := do
  match superclass? with
  | none =>
    define name.lexeme .nil
    let methods ← newMethods methods []
    let c := Class.root (← nextId) name.lexeme methods
    assignFrom (← get).current name (.class_ c)
  | some s =>
    match ← ev s.expr with
    | .class_ superclass =>
      define name.lexeme .nil
      let e ← newEnvironment (← get).current [("super", .class_ superclass)]
      let methods ← passThrough alarm e (newMethods methods [])
      let c := Class.derived (← nextId) name.lexeme methods superclass
      assignFrom (← get).current name (.class_ c)
    | _ => raise .superclassNotClass s.name.line

def evaluateForm (opened : Nat) (ev : BoundExpr → Eval Value)
    (enter : Closure → List Value → Eval Value) : BoundExpr → Eval Value
  | .call callee paren arguments => do
    let callee ← ev callee
    let arguments ← evaluateAll ev arguments
    call settings alarm opened enter callee arguments paren.line
  | e => Eval.evaluateForm settings ev enter e

def executeForm (ev : BoundExpr → Eval Value) (ex : BoundStmt → Eval Completion) :
    BoundStmt → Eval Completion
  | .block _ body => do executeBlock ex (← get).current [] body
  | .class_ _ name superclass methods => do
    declareClass alarm ev name superclass methods
    return .normal
  | s => Eval.executeForm settings ev ex s

mutual

/-- Within so many calls. A function that is called lies in one more. -/
def evaluate : (opened nesting : Nat) → BoundExpr → Eval Value
  | _, 0, _ => throw .exhausted
  | opened, nesting + 1, e => do
    check settings alarm opened
    evaluateForm settings alarm opened (evaluate opened nesting)
      (apply (execute (opened + 1) nesting)) e

def execute : (opened nesting : Nat) → BoundStmt → Eval Completion
  | _, 0, _ => throw .exhausted
  | opened, nesting + 1, s => do
    check settings alarm opened
    if settings.trace then emit (.traced s.line s.kind)
    executeForm settings alarm (evaluate opened nesting) (execute opened nesting) s

end

def executeProgram : List BoundStmt → Eval Unit
  | [] => return ()
  | s :: ss => do
    let _ ← execute settings alarm 0 settings.nesting s
    executeProgram ss

end

/-- How a program ends, and the machine as it is at that moment. -/
def run (program : Eval Unit) (m : Machine) : Option Failure × Machine :=
  match program m with
  | .ok _ m' => (none, m')
  | .error f m' => (some f, m')

end Watch

/-- On `m`, `y` ends as `x` does. What `x` has changed stays so, but `y` comes back to the current
environment and to the calls in progress even if it fails. -/
def Restores {α : Type} (x y : Eval α) (m : Machine) : Prop :=
  match x m with
  | .ok a m' => y m = .ok a m' ∧ m'.current = m.current ∧ m'.callDepth = m.callDepth
  | .error f m' => y m = .error f { m' with current := m.current, callDepth := m.callDepth }

section
variable {α β : Type} {x y : Eval α} {m : Machine}

theorem Restores.of_eq {x' y' : Eval α} (hx : x' m = x m) (hy : y' m = y m)
    (h : Restores x y m) : Restores x' y' m := by
  unfold Restores at h ⊢
  rw [hx, hy]
  exact h

/-- After a step that ends where it began. -/
theorem Restores.after {f g : α → Eval β} {a : α} {m' : Machine} (hx : x m = .ok a m')
    (hy : y m = .ok a m') (hcurrent : m'.current = m.current) (hcalls : m'.callDepth = m.callDepth)
    (h : Restores (f a) (g a) m') : Restores (x >>= f) (y >>= g) m := by
  unfold Restores at h ⊢
  rw [Eval.bind_ok hx, Eval.bind_ok hy, ← hcurrent, ← hcalls]
  exact h

theorem Restores.bind {f g : α → Eval β} (h : Restores x y m)
    (hf : ∀ a m', m'.callDepth = m.callDepth → Restores (f a) (g a) m') :
    Restores (x >>= f) (y >>= g) m := by
  cases hx : x m with
  | error failure m' =>
    unfold Restores at h ⊢
    rw [hx] at h
    rw [Eval.bind_error hx, Eval.bind_error h]
  | ok a m' =>
    unfold Restores at h
    rw [hx] at h
    obtain ⟨hy, hcurrent, hcalls⟩ := h
    exact .after hx hy hcurrent hcalls (hf a m' hcalls)

theorem Restores.refl_of_ok {a : α} {m' : Machine} (h : x m = .ok a m')
    (hcurrent : m'.current = m.current) (hcalls : m'.callDepth = m.callDepth) : Restores x x m := by
  unfold Restores
  rw [h]
  exact ⟨rfl, hcurrent, hcalls⟩

end

namespace Watch
open Eval

/-- Evaluations that lie in so many calls. -/
def restoration (opened : Nat) : Comparison where
  Holds x y := ∀ m : Machine, m.callDepth = opened → Restores x y m
  pure _ _ _ := ⟨rfl, rfl, rfl⟩
  bind hx hf m hm := (hx m hm).bind fun a m' hcalls => hf a m' (hcalls.trans hm)
  throw _ _ _ := rfl
  inspect _ _ h m hm := h m m hm
  store hf m _ := Restores.refl_of_ok rfl (hf.current m) (hf.callDepth m)
  emit _ _ _ := ⟨rfl, rfl, rfl⟩

section
variable {α : Type} {settings : Settings} {alarm : Failure} {opened : Nat}

theorem inEnvironment_restores (e : Nat) {x y : Eval α}
    (h : (restoration opened).Holds x y) :
    (restoration opened).Holds (inEnvironment e x) (Eval.inEnvironment e y) := by
  intro m hm
  have h := h { m with current := e } hm
  unfold Restores at h ⊢
  unfold inEnvironment Eval.inEnvironment
  cases hx : x { m with current := e } with
  | ok a m' =>
    rw [hx] at h
    obtain ⟨hy, -, hcalls⟩ := h
    rw [hy]
    exact ⟨rfl, rfl, hcalls⟩
  | error f m' =>
    rw [hx] at h
    rw [h]

theorem check_restores {x y : Eval α} (hopened : opened ≤ settings.calls)
    (h : (restoration opened).Holds x y) :
    (restoration opened).Holds (check settings alarm opened >>= fun _ => x) y := by
  intro m hm
  have hpass : check settings alarm opened m = .ok () m := by
    show (if m.callDepth = opened ∧ opened ≤ settings.calls then
      (Pure.pure () : Eval Unit) else throw alarm) m = _
    rw [if_pos ⟨hm, hopened⟩]
    rfl
  exact .of_eq (Eval.bind_ok hpass _) rfl (h m hm)

/-- A call that ends takes itself off the count, and one that fails leaves it to the machine. -/
theorem inCall_restores (line : Nat) {x y : Eval α} (h : (restoration (opened + 1)).Holds x y) :
    (restoration opened).Holds (inCall line x) (Eval.inCall line y) := by
  intro m hm
  have h := h { m with callDepth := m.callDepth + 1 } (congrArg (· + 1) hm)
  unfold Restores at h ⊢
  unfold inCall Eval.inCall
  cases hx : x { m with callDepth := m.callDepth + 1 } with
  | ok a m' =>
    rw [hx] at h
    obtain ⟨hy, hcurrent, hcalls⟩ := h
    rw [hy]
    exact ⟨rfl, hcurrent, congrArg (· - 1) hcalls⟩
  | error f m' =>
    rw [hx] at h
    rw [h]
    cases f <;> rfl

/-- While the calls in progress leave room. -/
theorem room_restores {x y : Eval α} (line : Nat)
    (h : opened + 1 ≤ settings.calls → (restoration opened).Holds x y) :
    (restoration opened).Holds
      (if settings.calls ≤ opened then raise .tooManyCalls line else x)
      (get >>= fun m => if settings.calls ≤ m.callDepth then raise .tooManyCalls line else y) := by
  intro m hm
  subst hm
  show Restores _ (if settings.calls ≤ m.callDepth then raise .tooManyCalls line else y) m
  split
  · exact (restoration m.callDepth).raise _ _ m rfl
  · next hroom => exact h (Nat.lt_of_not_le hroom) m rfl

theorem call_restores {enter enter' : Closure → List Value → Eval Value}
    (hen : opened + 1 ≤ settings.calls → ∀ f vs,
      (restoration (opened + 1)).Holds (enter f vs) (enter' f vs))
    (callee : Value) (arguments : List Value) (line : Nat) :
    (restoration opened).Holds (call settings alarm opened enter callee arguments line)
      (Eval.call settings enter' callee arguments line) := by
  unfold call Eval.call
  cases callee.arity? with
  | none => exact (restoration opened).raise _ _
  | some expected =>
    dsimp only
    split
    · exact (restoration opened).raise _ _
    · exact room_restores line fun hroom => inCall_restores line
        (check_restores hroom ((restoration (opened + 1)).callValue (hen hroom) callee arguments))

theorem executeBlock_restores {ex ex' : BoundStmt → Eval Completion}
    (hex : ∀ s, (restoration opened).Holds (ex s) (ex' s)) (enclosing : Nat) (b : Bindings Value)
    (body : List BoundStmt) :
    (restoration opened).Holds (executeBlock ex enclosing b body)
      (Eval.executeBlock ex' enclosing b body) :=
  (restoration opened).bind ((restoration opened).newEnvironment enclosing b) fun e =>
    inEnvironment_restores e ((restoration opened).executeAll hex body)

theorem apply_restores {ex ex' : BoundStmt → Eval Completion}
    (hex : ∀ s, (restoration opened).Holds (ex s) (ex' s)) (f : Closure) (arguments : List Value) :
    (restoration opened).Holds (apply ex f arguments) (Eval.apply ex' f arguments) := by
  refine (restoration opened).bind (executeBlock_restores hex _ _ _) fun completion => ?_
  cases f.isInitializer with
  | true =>
    exact (restoration opened).inspect (fun _ _ => rfl) (fun _ _ => rfl) fun _ =>
      (restoration opened).ofFault _
  | false => cases completion <;> exact (restoration opened).pure _

/-- Creating methods cannot fail, and the environments stay as they are. -/
theorem newMethods_run (fs : List BoundFunction) (methods : Bindings Closure) (m : Machine) :
    ∃ made created, newMethods fs methods m = .ok made { m with created } := by
  induction fs generalizing methods m with
  | nil => exact ⟨methods, m.created, rfl⟩
  | cons f fs ih => exact ih _ { m with created := m.created + 1 }

/-- The way out of an environment leads back to where it was entered from. -/
theorem passThrough_restores {e : Nat} {m : Machine} (h : m.environments.link? e = some m.current)
    (fs : List BoundFunction) :
    Restores (passThrough alarm e (newMethods fs [])) (Eval.inEnvironment e (newMethods fs []))
      m := by
  obtain ⟨made, created, hmade⟩ := newMethods_run fs [] { m with current := e }
  have hleave : passThrough alarm e (newMethods fs []) m = .ok made { m with created } := by
    refine (Eval.bind_ok hmade _).trans ?_
    show (match m.environments.link? e with
      | some outer => _
      | none => _ : Eval _) { m with current := e, created } = _
    rw [h]
    rfl
  have hback : Eval.inEnvironment e (newMethods fs []) m = .ok made { m with created } := by
    unfold Eval.inEnvironment
    rw [hmade]
  unfold Restores
  rw [hleave]
  exact ⟨hback, rfl, rfl⟩

theorem declareClass_restores {ev ev' : BoundExpr → Eval Value}
    (hev : ∀ e, (restoration opened).Holds (ev e) (ev' e)) (name : Token)
    (superclass : Option (Superclass Hops)) (methods : List BoundFunction) :
    (restoration opened).Holds (declareClass alarm ev name superclass methods)
      (Eval.declareClass ev' name superclass methods) := by
  have hassign (k : Nat → Class) : (restoration opened).Holds
      (nextId >>= fun id => get >>= fun m => assignFrom m.current name (.class_ (k id)))
      (nextId >>= fun id => get >>= fun m => assignFrom m.current name (.class_ (k id))) :=
    (restoration opened).bind (restoration opened).nextId fun id =>
      (restoration opened).inspect (fun _ _ => rfl) (fun _ _ => rfl) fun m =>
        (restoration opened).assignFrom m.current name _
  cases superclass with
  | none =>
    exact (restoration opened).bind ((restoration opened).define _ _) fun _ =>
      (restoration opened).bind ((restoration opened).newMethods methods []) fun ms =>
        hassign (.root · name.lexeme ms)
  | some s =>
    refine (restoration opened).bind (hev s.expr) fun v => ?_
    cases v with
    | class_ k =>
      refine (restoration opened).bind ((restoration opened).define _ _) fun _ m hm => ?_
      have hlink : (m.environments.create (some m.current) [("super", .class_ k)]).2.link?
          m.environments.frames.size = some m.current := by
        rw [Environments.link?_create, if_pos rfl]
      refine .after rfl rfl rfl rfl (.after rfl rfl rfl rfl ?_)
      exact (passThrough_restores hlink methods).bind fun ms m' hcalls =>
        hassign (.derived · name.lexeme ms k) m' (hcalls.trans hm)
    | _ => exact (restoration opened).raise _ _

theorem evaluateForm_of_ne {ev : BoundExpr → Eval Value} {enter : Closure → List Value → Eval Value}
    {e : BoundExpr} (h : ∀ callee paren arguments, e ≠ .call callee paren arguments) :
    evaluateForm settings alarm opened ev enter e = Eval.evaluateForm settings ev enter e := by
  cases e with
  | call callee paren arguments => exact absurd rfl (h callee paren arguments)
  | _ => rfl

theorem executeForm_of_ne {ev : BoundExpr → Eval Value} {ex : BoundStmt → Eval Completion}
    {s : BoundStmt} (hblock : ∀ line body, s ≠ .block line body)
    (hclass : ∀ line name superclass methods, s ≠ .class_ line name superclass methods) :
    executeForm settings alarm ev ex s = Eval.executeForm settings ev ex s := by
  cases s with
  | block line body => exact absurd rfl (hblock line body)
  | class_ line name superclass methods => exact absurd rfl (hclass line name superclass methods)
  | _ => rfl

theorem evaluateForm_restores {ev ev' : BoundExpr → Eval Value}
    {enter enter' : Closure → List Value → Eval Value}
    (hev : ∀ e, (restoration opened).Holds (ev e) (ev' e))
    (hen : opened + 1 ≤ settings.calls → ∀ f vs,
      (restoration (opened + 1)).Holds (enter f vs) (enter' f vs)) (e : BoundExpr) :
    (restoration opened).Holds (evaluateForm settings alarm opened ev enter e)
      (Eval.evaluateForm settings ev' enter' e) := by
  cases e with
  | call callee paren arguments =>
    exact (restoration opened).bind (hev callee) fun v =>
      (restoration opened).bind ((restoration opened).evaluateAll hev arguments) fun vs =>
        call_restores hen v vs paren.line
  | _ =>
    rw [evaluateForm_of_ne]
    · exact (restoration opened).evaluateForm hev fun _ _ _ h => nomatch h
    · exact fun _ _ _ h => nomatch h

theorem executeForm_restores {ev ev' : BoundExpr → Eval Value}
    {ex ex' : BoundStmt → Eval Completion} (hev : ∀ e, (restoration opened).Holds (ev e) (ev' e))
    (hex : ∀ s, (restoration opened).Holds (ex s) (ex' s)) (s : BoundStmt) :
    (restoration opened).Holds (executeForm settings alarm ev ex s)
      (Eval.executeForm settings ev' ex' s) := by
  cases s with
  | block line body =>
    exact (restoration opened).inspect (fun _ _ => rfl) (fun _ _ => rfl) fun m =>
      executeBlock_restores hex m.current [] body
  | class_ line name superclass methods =>
    exact (restoration opened).bind (declareClass_restores hev name superclass methods) fun _ =>
      (restoration opened).pure _
  | _ =>
    rw [executeForm_of_ne]
    · exact (restoration opened).executeForm rfl hev hex (fun _ _ h => nomatch h)
        fun _ _ _ _ h => nomatch h
    · exact fun _ _ h => nomatch h
    · exact fun _ _ _ _ h => nomatch h

variable (alarm) in
/-- Within so many calls, whatever is evaluated or executed. -/
theorem evaluate_execute_restore (nesting : Nat) (hopened : opened ≤ settings.calls) :
    (∀ e, (restoration opened).Holds (evaluate settings alarm opened nesting e)
        (Eval.evaluate settings nesting e)) ∧
      ∀ s, (restoration opened).Holds (execute settings alarm opened nesting s)
        (Eval.execute settings nesting s) := by
  induction nesting generalizing opened with
  | zero =>
    exact ⟨fun e => (restoration opened).throw .exhausted,
      fun s => (restoration opened).throw .exhausted⟩
  | succ nesting ih =>
    obtain ⟨hev, hex⟩ := ih hopened
    refine ⟨fun e => check_restores hopened ?_, fun s => check_restores hopened ?_⟩
    · exact evaluateForm_restores hev (fun hroom => apply_restores (ih hroom).2) e
    · simp only [Eval.execute]
      split
      · exact (restoration opened).bind ((restoration opened).emit _) fun _ =>
          executeForm_restores hev hex s
      · exact executeForm_restores hev hex s

/-- Statements of a program lie in no call. -/
theorem executeProgram_restores (ss : List BoundStmt) :
    (restoration 0).Holds (executeProgram settings alarm ss) (Eval.executeProgram settings ss) := by
  induction ss with
  | nil => exact (restoration 0).pure ()
  | cons s ss ih =>
    exact (restoration 0).bind
      ((evaluate_execute_restore alarm settings.nesting (Nat.zero_le _)).2 s) fun _ => ih

end
end Watch

namespace Session

/-- `t` is what becomes of `s` when a run has ended and the machine was then as given: it is at rest
again, all that was stored and written is kept, and only the failure is added. -/
structure Concludes (s t : Session) (ending : Option Failure) (m : Machine) : Prop where
  atRest : t.machine.AtRest
  environments : t.machine.environments = m.environments
  objects : t.machine.objects = m.objects
  output : t.machine.events.output = m.events.output
  failure : t = ({ s with machine := { m with current := Machine.globals, callDepth := 0 } } :
    Session).conclude ending

theorem concludes_conclude (s : Session) (ending : Option Failure) (m : Machine) :
    s.Concludes (({ s with machine := { m with current := Machine.globals, callDepth := 0 } } :
      Session).conclude ending) ending m := by
  obtain ⟨events, hm⟩ := machine_conclude
    { s with machine := { m with current := Machine.globals, callDepth := 0 } } ending
  exact ⟨atRest_conclude ⟨rfl, rfl⟩ ending, by rw [hm], by rw [hm], output_conclude _ ending, rfl⟩

theorem interpret_concludes (settings : Settings) (alarm : Failure) {s : Session}
    (h : s.machine.AtRest) (program : List BoundStmt) :
    s.Concludes (s.interpret settings program)
      (Watch.run (Watch.executeProgram settings alarm program) s.machine).1
      (Watch.run (Watch.executeProgram settings alarm program) s.machine).2 := by
  have hrestores : Restores (Watch.executeProgram settings alarm program)
      (Eval.executeProgram settings program) s.machine :=
    Watch.executeProgram_restores program s.machine h.callDepth
  suffices heq : s.interpret settings program =
      ({ s with machine :=
        { (Watch.run (Watch.executeProgram settings alarm program) s.machine).2 with
          current := Machine.globals, callDepth := 0 } } : Session).conclude
        (Watch.run (Watch.executeProgram settings alarm program) s.machine).1 by
    rw [heq]
    exact s.concludes_conclude _ _
  unfold interpret
  rw [run_def]
  unfold Restores at hrestores
  unfold Watch.run Machine.run
  cases hx : Watch.executeProgram settings alarm program s.machine with
  | ok a m' =>
    rw [hx] at hrestores
    rw [hrestores.1]
  | error f m' =>
    rw [hx] at hrestores
    rw [hrestores]

end Session

/-- An evaluation that begins in so many calls as there may be puts the machine back however it
ends, and at every moment the calls in progress are counted rightly: no alarm, whichever it is,
changes anything. Between inputs the machine is at rest, and what was done before a failure stays
done. -/
theorem run_restores (settings : Settings) (alarm : Failure) :
    (∀ m : Machine, m.callDepth ≤ settings.calls → ∀ nesting,
      (∀ e, Restores (Watch.evaluate settings alarm m.callDepth nesting e)
        (Eval.evaluate settings nesting e) m) ∧
      (∀ s, Restores (Watch.execute settings alarm m.callDepth nesting s)
        (Eval.execute settings nesting s) m) ∧
      ∀ callee arguments line, Restores
        (Watch.call settings alarm m.callDepth
          (Watch.apply (Watch.execute settings alarm (m.callDepth + 1) nesting))
          callee arguments line)
        (Eval.call settings (Eval.apply (Eval.execute settings nesting)) callee arguments line) m) ∧
    ∀ clock (s : Session), s.Reachable clock → ∀ program,
      s.Concludes (s.interpret settings program)
        (Watch.run (Watch.executeProgram settings alarm program) s.machine).1
        (Watch.run (Watch.executeProgram settings alarm program) s.machine).2 := by
  refine ⟨fun m hm nesting => ?_, fun clock s hs program =>
    s.interpret_concludes settings alarm hs.atRest program⟩
  obtain ⟨hev, hex⟩ := Watch.evaluate_execute_restore alarm nesting hm
  refine ⟨fun e => hev e m rfl, fun s => hex s m rfl, fun callee arguments line => ?_⟩
  exact Watch.call_restores
    (fun hroom => Watch.apply_restores (Watch.evaluate_execute_restore alarm nesting hroom).2)
    callee arguments line m rfl

/-- Fails in a block of a function that an initializer has called. -/
def stumble : String :=
  "fun f(s) \x7b \x7b print s; return -s; \x7d \x7d\n" ++
  "class A \x7b init() \x7b f(\"one\"); \x7d \x7d\nA();"

theorem stumble_restores :
    let ending := Watch.run (Watch.executeProgram {} .outOfTurns (Text.program stumble))
      (Session.initial 0).machine
    (ending.2.current = 4 ∧ ending.2.callDepth = 2 ∧ ending.2.events.output = "one\n") ∧
      (Session.initial 0).Concludes ((Session.initial 0).interpret {} (Text.program stumble))
        ending.1 ending.2 ∧
      ∀ e, Restores (Watch.evaluate {} .outOfTurns 0 1 e) (Eval.evaluate {} 1 e) (.initial 0) := by
  intro ending
  obtain ⟨hevery, hsession⟩ := run_restores {} .outOfTurns
  exact ⟨by decide +kernel, hsession 0 _ .initial _, (hevery (.initial 0) (by decide +kernel) 1).1⟩

end Lox
