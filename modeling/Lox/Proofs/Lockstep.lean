import Lox.Machine.Evaluation

/-! Evaluators in lockstep. A comparison of computations that passes from parts to the whole, and
that holds of the few steps that touch a machine, holds of everything that is evaluated. -/

namespace Lox

/-- A step on what is stored. It leaves the place of the evaluation alone, and what has been
written does not count for it. -/
structure Machine.Stores {α : Type} (f : Machine → α × Machine) : Prop where
  current : ∀ m, (f m).2.current = m.current
  callDepth : ∀ m, (f m).2.callDepth = m.callDepth
  events : ∀ m events, f { m with events } = ((f m).1, { (f m).2 with events })

theorem Machine.Stores.keeps {α : Type} {f : Machine → α × Machine} (h : Stores f) (m : Machine) :
    (f m).2.events = m.events :=
  (congrArg (·.2.events) (h.events m m.events)).trans rfl

namespace Eval
variable {σ α β : Type} {x : EStateM Failure σ α} {s s' : σ}

theorem bind_ok {a : α} (h : x s = .ok a s') (f : α → EStateM Failure σ β) :
    (x >>= f) s = f a s' := by
  show EStateM.bind x f s = _
  rw [EStateM.bind, h]

theorem bind_error {failure : Failure} (h : x s = .error failure s')
    (f : α → EStateM Failure σ β) : (x >>= f) s = .error failure s' := by
  show EStateM.bind x f s = _
  rw [EStateM.bind, h]

/-- What comes out in the end is what comes out of the last part. -/
theorem of_bind_ok {f : α → EStateM Failure σ β} {P : β → Prop}
    (h : ∀ a s b s', f a s = .ok b s' → P b) {b : β} (hb : (x >>= f) s = .ok b s') : P b := by
  cases hx : x s with
  | ok a t => exact h a t b s' ((bind_ok hx f).symm.trans hb)
  | error failure t =>
    rw [bind_error hx f] at hb
    cases hb

end Eval

/-- A relation between computations that holds of whatever is put together from parts of which it
holds, and of each step that reads, stores or prints. -/
structure Likeness where
  Holds {α : Type} : Eval α → Eval α → Prop
  pure {α : Type} (a : α) : Holds (Pure.pure a) (Pure.pure a)
  bind {α β : Type} {x y : Eval α} {f g : α → Eval β} :
    Holds x y → (∀ a, Holds (f a) (g a)) → Holds (x >>= f) (y >>= g)
  throw {α : Type} (f : Failure) : Holds (throw f : Eval α) (throw f)
  inspect {α : Type} {f g : Machine → Eval α} :
    (∀ m events, f { m with events } = f m) → (∀ m events, g { m with events } = g m) →
      (∀ m, Holds (f m) (g m)) → Holds (get >>= f) (get >>= g)
  store {α : Type} {f : Machine → α × Machine} :
    Machine.Stores f → Holds (modifyGet f) (modifyGet f)
  print (text : String) : Holds (Eval.emit (.printed text)) (Eval.emit (.printed text))

/-- A likeness that holds of each step that writes. -/
structure Comparison extends Likeness where
  emit (e : Event) : Holds (Eval.emit e) (Eval.emit e)
  print := fun text => emit (.printed text)

/-- A likeness that also passes through calls and changes of the environment. -/
structure Passage extends Likeness where
  inEnvironment {α : Type} {x y : Eval α} (e : Nat) :
    Holds x y → Holds (Eval.inEnvironment e x) (Eval.inEnvironment e y)
  inCall {α : Type} {x y : Eval α} (line : Nat) :
    Holds x y → Holds (Eval.inCall line x) (Eval.inCall line y)

/-- A passage that holds of each step that writes. -/
structure Congruence extends Passage where
  emit (e : Event) : Holds (Eval.emit e) (Eval.emit e)
  print := fun text => emit (.printed text)

namespace Likeness
open Eval
variable (c : Likeness)

section steps
variable {α : Type}

theorem raise (cause : Cause) (line : Nat) :
    c.Holds (Eval.raise cause line : Eval α) (Eval.raise cause line) := c.throw _

theorem ofOperator (line : Nat) (r : Except Cause α) :
    c.Holds (Eval.ofOperator line r) (Eval.ofOperator line r) := by
  cases r with
  | ok a => exact c.pure a
  | error cause => exact c.raise cause line

theorem ofFault (r : Except Fault α) : c.Holds (Eval.ofFault r) (Eval.ofFault r) := by
  cases r with
  | ok a => exact c.pure a
  | error f => exact c.throw (.fault f)

theorem readClock : c.Holds Eval.readClock Eval.readClock :=
  c.store ⟨fun _ => rfl, fun _ => rfl, fun _ _ => rfl⟩

theorem nextId : c.Holds Eval.nextId Eval.nextId :=
  c.store ⟨fun _ => rfl, fun _ => rfl, fun _ _ => rfl⟩

theorem newEnvironment (enclosing : Nat) (b : Bindings Value) :
    c.Holds (Eval.newEnvironment enclosing b) (Eval.newEnvironment enclosing b) :=
  c.store ⟨fun _ => rfl, fun _ => rfl, fun _ _ => rfl⟩

theorem define (name : String) (v : Value) : c.Holds (Eval.define name v) (Eval.define name v) :=
  c.store ⟨fun _ => rfl, fun _ => rfl, fun _ _ => rfl⟩

theorem defineIn (e : Nat) (name : String) (v : Value) :
    c.Holds (Eval.defineIn e name v) (Eval.defineIn e name v) :=
  c.store ⟨fun _ => rfl, fun _ => rfl, fun _ _ => rfl⟩

theorem newInstance (k : Class) : c.Holds (Eval.newInstance k) (Eval.newInstance k) :=
  c.store ⟨fun _ => rfl, fun _ => rfl, fun _ _ => rfl⟩

theorem setField (ref : Nat) (name : String) (v : Value) :
    c.Holds (Eval.setField ref name v) (Eval.setField ref name v) :=
  c.store ⟨fun _ => rfl, fun _ => rfl, fun _ _ => rfl⟩

theorem getField? (ref : Nat) (name : String) :
    c.Holds (Eval.getField? ref name) (Eval.getField? ref name) :=
  c.inspect (fun _ _ => rfl) (fun _ _ => rfl) fun _ => c.pure _

theorem lookUp (name : Token) (target : Hops) :
    c.Holds (Eval.lookUp name target) (Eval.lookUp name target) := by
  refine c.inspect (fun _ _ => rfl) (fun _ _ => rfl) fun m => ?_
  cases target with
  | some distance => exact c.ofFault _
  | none =>
    cases m.environments.get? Machine.globals name.lexeme with
    | some v => exact c.pure v
    | none => exact c.raise _ _

theorem assignFrom (e : Nat) (name : Token) (v : Value) :
    c.Holds (Eval.assignFrom e name v) (Eval.assignFrom e name v) := by
  refine c.inspect (fun _ _ => rfl) (fun _ _ => rfl) fun m => ?_
  cases m.environments.owner? name.lexeme e with
  | some owner => exact c.defineIn owner _ v
  | none => exact c.raise _ _

theorem assign (name : Token) (target : Hops) (v : Value) :
    c.Holds (Eval.assign name target v) (Eval.assign name target v) := by
  cases target with
  | none => exact c.assignFrom Machine.globals name v
  | some distance =>
    exact c.inspect (fun _ _ => rfl) (fun _ _ => rfl) fun m =>
      c.bind (c.ofFault _) fun owner => c.defineIn owner _ v

theorem bindMethod (f : Closure) (receiver : Value) :
    c.Holds (Eval.bindMethod f receiver) (Eval.bindMethod f receiver) :=
  c.bind (c.newEnvironment _ _) fun _ => c.bind c.nextId fun _ => c.pure _

theorem newFunction (f : BoundFunction) (isInitializer : Bool) :
    c.Holds (Eval.newFunction f isInitializer) (Eval.newFunction f isInitializer) :=
  c.bind c.nextId fun _ => c.inspect (fun _ _ => rfl) (fun _ _ => rfl) fun _ => c.pure _

theorem newMethods (fs : List BoundFunction) (methods : Bindings Closure) :
    c.Holds (Eval.newMethods fs methods) (Eval.newMethods fs methods) := by
  induction fs generalizing methods with
  | nil => exact c.pure methods
  | cons f fs ih => exact c.bind (c.newFunction f _) fun method => ih _

theorem getProperty (object : Value) (name : Token) :
    c.Holds (Eval.getProperty object name) (Eval.getProperty object name) := by
  cases object with
  | object ref k =>
    refine c.bind (c.getField? ref name.lexeme) fun v? => ?_
    cases v? with
    | some v => exact c.pure v
    | none =>
      dsimp only
      cases k.findMethod name.lexeme with
      | some f => exact c.bind (c.bindMethod f _) fun f' => c.pure _
      | none => exact c.raise _ _
  | _ => exact c.raise _ _

theorem superMethod (keyword : Token) (target : Hops) (method : Token) :
    c.Holds (Eval.superMethod keyword target method) (Eval.superMethod keyword target method) := by
  cases target with
  | none => exact c.throw _
  | some distance =>
    refine c.inspect (fun _ _ => rfl) (fun _ _ => rfl) fun m => ?_
    refine c.bind (c.ofFault _) fun superclass => c.bind (c.ofFault _) fun receiver => ?_
    cases superclass with
    | class_ k =>
      dsimp only
      cases k.findMethod method.lexeme with
      | some f => exact c.bind (c.bindMethod f receiver) fun f' => c.pure _
      | none => exact c.raise _ _
    | _ => exact c.throw _

end steps

section forms
variable {ev ev' : BoundExpr → Eval Value} {ex ex' : BoundStmt → Eval Completion}
  {enter enter' : Closure → List Value → Eval Value} {settings settings' : Settings}

theorem evaluateAll (hev : ∀ e, c.Holds (ev e) (ev' e)) (es : List BoundExpr) :
    c.Holds (Eval.evaluateAll ev es) (Eval.evaluateAll ev' es) := by
  induction es with
  | nil => exact c.pure []
  | cons e es ih => exact c.bind (hev e) fun v => c.bind ih fun vs => c.pure _

theorem executeAll (hex : ∀ s, c.Holds (ex s) (ex' s)) (ss : List BoundStmt) :
    c.Holds (Eval.executeAll ex ss) (Eval.executeAll ex' ss) := by
  induction ss with
  | nil => exact c.pure _
  | cons s ss ih =>
    refine c.bind (hex s) fun completion => ?_
    cases completion with
    | normal => exact ih
    | returned v => exact c.pure _

theorem callValue (hen : ∀ f vs, c.Holds (enter f vs) (enter' f vs)) (callee : Value)
    (arguments : List Value) :
    c.Holds (Eval.callValue enter callee arguments) (Eval.callValue enter' callee arguments) := by
  cases callee with
  | native f =>
    cases f
    exact c.readClock
  | function f => exact hen f arguments
  | class_ k =>
    refine c.bind (c.newInstance k) fun receiver => ?_
    cases k.initializer with
    | none => exact c.pure receiver
    | some f =>
      exact c.bind (c.bindMethod f receiver) fun f' => c.bind (hen f' arguments) fun _ => c.pure _
  | _ => exact c.pure _

theorem loop {test test' : Eval Value} {body body' : Eval Completion} (htest : c.Holds test test')
    (hbody : c.Holds body body') (turns : Nat) :
    c.Holds (Eval.loop test body turns) (Eval.loop test' body' turns) := by
  induction turns with
  | zero => exact c.throw _
  | succ turns ih =>
    refine c.bind htest fun v => ?_
    cases v.isTruthy with
    | false => exact c.pure _
    | true =>
      refine c.bind hbody fun completion => ?_
      cases completion with
      | normal => exact ih
      | returned v => exact c.pure _

/-- Calls are left to be compared where they are known. -/
theorem evaluateForm (hev : ∀ e, c.Holds (ev e) (ev' e)) {e : BoundExpr}
    (hcall : ∀ callee paren arguments, e = .call callee paren arguments → ∀ v vs,
      c.Holds (call settings enter v vs paren.line) (call settings' enter' v vs paren.line)) :
    c.Holds (Eval.evaluateForm settings ev enter e) (Eval.evaluateForm settings' ev' enter' e) := by
  cases e with
  | literal line value => exact c.pure _
  | grouping line inner => exact hev inner
  | unary operator right => exact c.bind (hev right) fun v => c.ofOperator _ _
  | binary left operator right =>
    exact c.bind (hev left) fun v => c.bind (hev right) fun w => c.ofOperator _ _
  | logical left operator right =>
    refine c.bind (hev left) fun v => ?_
    cases Value.decides operator.kind v with
    | true => exact c.pure v
    | false => exact hev right
  | read name target => exact c.lookUp name target
  | assign line name target value =>
    exact c.bind (hev value) fun v => c.bind (c.assign name target v) fun _ => c.pure v
  | call callee paren arguments =>
    exact c.bind (hev callee) fun v => c.bind (c.evaluateAll hev arguments) fun vs =>
      hcall callee paren arguments rfl v vs
  | get object name => exact c.bind (hev object) fun v => c.getProperty v name
  | set line object name value =>
    refine c.bind (hev object) fun o => ?_
    cases o with
    | object ref k =>
      exact c.bind (hev value) fun v => c.bind (c.setField ref name.lexeme v) fun _ => c.pure v
    | _ => exact c.raise _ _
  | this keyword target => exact c.lookUp keyword target
  | super keyword target method => exact c.superMethod keyword target method

/-- Blocks and classes are left to be compared where they are known. -/
theorem executeForm (hturns : settings'.turns = settings.turns)
    (hev : ∀ e, c.Holds (ev e) (ev' e)) (hex : ∀ s, c.Holds (ex s) (ex' s)) {s : BoundStmt}
    (hblock : ∀ line body, s = .block line body → ∀ enclosing,
      c.Holds (executeBlock ex enclosing [] body) (executeBlock ex' enclosing [] body))
    (hclass : ∀ line name superclass methods, s = .class_ line name superclass methods →
      c.Holds (declareClass ev name superclass methods)
        (declareClass ev' name superclass methods)) :
    c.Holds (Eval.executeForm settings ev ex s) (Eval.executeForm settings' ev' ex' s) := by
  cases s with
  | expression line value => exact c.bind (hev value) fun _ => c.pure _
  | print line value => exact c.bind (hev value) fun v => c.bind (c.print _) fun _ => c.pure _
  | var name initializer =>
    have hdefine (v : Value) := c.bind (c.define name.lexeme v) fun _ => c.pure Completion.normal
    cases initializer with
    | none => exact hdefine .nil
    | some e => exact c.bind (hev e) hdefine
  | block line body =>
    exact c.inspect (fun _ _ => rfl) (fun _ _ => rfl) fun m => hblock line body rfl m.current
  | ifThen line condition thenBranch =>
    refine c.bind (hev condition) fun v => ?_
    cases v.isTruthy with
    | true => exact hex thenBranch
    | false => exact c.pure _
  | ifElse line condition thenBranch elseBranch =>
    refine c.bind (hev condition) fun v => ?_
    cases v.isTruthy with
    | true => exact hex thenBranch
    | false => exact hex elseBranch
  | while_ line condition body =>
    have hloop := c.loop (hev condition) (hex body) settings.turns
    unfold Eval.executeForm
    rwa [hturns]
  | function f =>
    exact c.bind (c.newFunction f false) fun g => c.bind (c.define g.name _) fun _ => c.pure _
  | return_ keyword value =>
    cases value with
    | none => exact c.pure _
    | some e => exact c.bind (hev e) fun v => c.pure _
  | class_ line name superclass methods =>
    exact c.bind (hclass line name superclass methods rfl) fun _ => c.pure _

end forms
end Likeness

namespace Passage
open Eval
variable (c : Passage) {ev ev' : BoundExpr → Eval Value} {ex ex' : BoundStmt → Eval Completion}
  {enter enter' : Closure → List Value → Eval Value} {settings settings' : Settings}

theorem executeBlock (hex : ∀ s, c.Holds (ex s) (ex' s)) (enclosing : Nat) (b : Bindings Value)
    (body : List BoundStmt) :
    c.Holds (Eval.executeBlock ex enclosing b body) (Eval.executeBlock ex' enclosing b body) :=
  c.bind (c.newEnvironment enclosing b) fun e => c.inEnvironment e (c.executeAll hex body)

theorem apply (hex : ∀ s, c.Holds (ex s) (ex' s)) (f : Closure) (arguments : List Value) :
    c.Holds (Eval.apply ex f arguments) (Eval.apply ex' f arguments) := by
  refine c.bind (c.executeBlock hex _ _ _) fun completion => ?_
  cases f.isInitializer with
  | true => exact c.inspect (fun _ _ => rfl) (fun _ _ => rfl) fun _ => c.ofFault _
  | false => cases completion <;> exact c.pure _

theorem call (hen : ∀ f vs, c.Holds (enter f vs) (enter' f vs)) (callee : Value)
    (arguments : List Value) (line : Nat) :
    c.Holds (Eval.call settings enter callee arguments line)
      (Eval.call settings enter' callee arguments line) := by
  unfold Eval.call
  cases callee.arity? with
  | none => exact c.raise _ _
  | some expected =>
    dsimp only
    split
    · exact c.raise _ _
    · refine c.inspect (fun _ _ => rfl) (fun _ _ => rfl) fun m => ?_
      split
      · exact c.raise _ _
      · exact c.inCall line (c.callValue hen callee arguments)

theorem declareClass (hev : ∀ e, c.Holds (ev e) (ev' e)) (name : Token)
    (superclass : Option (Superclass Hops)) (methods : List BoundFunction) :
    c.Holds (Eval.declareClass ev name superclass methods)
      (Eval.declareClass ev' name superclass methods) := by
  have hassign (k : Nat → Class) : c.Holds
      (Eval.nextId >>= fun id => get >>= fun m => Eval.assignFrom m.current name (.class_ (k id)))
      (Eval.nextId >>= fun id => get >>= fun m =>
        Eval.assignFrom m.current name (.class_ (k id))) :=
    c.bind c.nextId fun id => c.inspect (fun _ _ => rfl) (fun _ _ => rfl) fun m =>
      c.assignFrom m.current name _
  cases superclass with
  | none =>
    exact c.bind (c.define _ _) fun _ => c.bind (c.newMethods methods []) fun ms =>
      hassign (.root · name.lexeme ms)
  | some s =>
    refine c.bind (hev s.expr) fun v => ?_
    cases v with
    | class_ k =>
      refine c.bind (c.define _ _) fun _ => c.inspect (fun _ _ => rfl) (fun _ _ => rfl) fun m => ?_
      exact c.bind (c.newEnvironment m.current _) fun e =>
        c.bind (c.inEnvironment e (c.newMethods methods [])) fun ms =>
          hassign (.derived · name.lexeme ms k)
    | _ => exact c.raise _ _

/-- Calls are left to be compared where they are known, and so are the lines of a trace. -/
theorem evaluate_execute (hturns : settings'.turns = settings.turns)
    (htrace : settings'.trace = settings.trace)
    (hlines : settings.trace = true → ∀ line kind,
      c.Holds (emit (.traced line kind)) (emit (.traced line kind)))
    (hcall : ∀ enter enter' : Closure → List Value → Eval Value,
      (∀ f vs, c.Holds (enter f vs) (enter' f vs)) → ∀ v vs line,
        c.Holds (Eval.call settings enter v vs line) (Eval.call settings' enter' v vs line))
    (nesting : Nat) :
    (∀ e, c.Holds (evaluate settings nesting e) (evaluate settings' nesting e)) ∧
      ∀ s, c.Holds (execute settings nesting s) (execute settings' nesting s) := by
  induction nesting with
  | zero => exact ⟨fun e => c.throw .exhausted, fun s => c.throw .exhausted⟩
  | succ nesting ih =>
    obtain ⟨hev, hex⟩ := ih
    refine ⟨fun e => c.evaluateForm hev fun _ paren _ _ => ?_, fun s => ?_⟩
    · exact fun v vs => hcall _ _ (c.apply hex) v vs paren.line
    have hform : c.Holds
        (executeForm settings (evaluate settings nesting) (execute settings nesting) s)
        (executeForm settings' (evaluate settings' nesting) (execute settings' nesting) s) :=
      c.executeForm hturns hev hex
        (fun _ body _ enclosing => c.executeBlock hex enclosing [] body)
        fun _ name superclass methods _ => c.declareClass hev name superclass methods
    simp only [execute, htrace]
    split
    · next ht => exact c.bind (hlines ht s.line s.kind) fun _ => hform
    · exact hform

theorem executeProgram (hnesting : settings'.nesting = settings.nesting)
    (hex : ∀ s, c.Holds (execute settings settings.nesting s)
      (execute settings' settings.nesting s)) (ss : List BoundStmt) :
    c.Holds (Eval.executeProgram settings ss) (Eval.executeProgram settings' ss) := by
  induction ss with
  | nil => exact c.pure ()
  | cons s ss ih =>
    unfold Eval.executeProgram
    rw [hnesting]
    exact c.bind (hex s) fun _ => ih

end Passage

/-- Whatever is evaluated or executed compares with itself. -/
theorem Congruence.executeProgram (c : Congruence) (settings : Settings) (ss : List BoundStmt) :
    c.Holds (Eval.executeProgram settings ss) (Eval.executeProgram settings ss) :=
  c.toPassage.executeProgram rfl
    (c.evaluate_execute rfl rfl (fun _ _ _ => c.emit _) (fun _ _ => c.call) settings.nesting).2 ss

end Lox
