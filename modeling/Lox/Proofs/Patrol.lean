import Lox.Proofs.Grounds
import Lox.Proofs.Supervision

/-! Patrols. A patrolled run looks at the machine before and after each expression, each statement
and each function that is entered, and sets off an alarm where something may not be grounded. It
goes as the run itself does. -/

namespace Lox

def Completion.Grounded (m : Machine) : Completion → Prop
  | .normal => True
  | .returned v => v.Grounded m

namespace Patrol
open Eval
variable (settings : Settings) (alarm : Failure)

open Classical in
/-- However the act ends, the machine has to be in order before and after it, and what was on the
machine to be there still. -/
noncomputable def watch {α : Type} (before : Machine → Prop) (after : Machine → α → Prop)
    (act : Eval α) : Eval α := fun m =>
  if m.Orderly ∧ before m then
    match act m with
    | .ok a m' => if m'.Orderly ∧ m.Precedes m' ∧ after m' a then .ok a m' else .error alarm m'
    | .error f m' => if m'.Orderly ∧ m.Precedes m' then .error f m' else .error alarm m'
  else .error alarm m

noncomputable def enter (ex : BoundStmt → Eval Completion) (f : Closure) (arguments : List Value) :
    Eval Value :=
  watch alarm (fun m => f.Grounded m ∧ ∀ v ∈ arguments, v.Grounded m) (fun m v => v.Grounded m)
    (apply ex f arguments)

mutual

noncomputable def evaluate : (nesting : Nat) → BoundExpr → Eval Value
  | 0, _ => throw .exhausted
  | nesting + 1, e =>
    watch alarm (fun _ => True) (fun m v => v.Grounded m)
      (evaluateForm settings (evaluate nesting) (enter alarm (execute nesting)) e)

noncomputable def execute : (nesting : Nat) → BoundStmt → Eval Completion
  | 0, _ => throw .exhausted
  | nesting + 1, s =>
    watch alarm (fun _ => True) (fun m c => c.Grounded m) do
      if settings.trace then emit (.traced s.line s.kind)
      executeForm settings (evaluate nesting) (execute nesting) s

end

noncomputable def executeProgram : List BoundStmt → Eval Unit
  | [] => return ()
  | s :: ss => do
    let _ ← execute settings alarm settings.nesting s
    executeProgram ss

end Patrol

namespace Ground
open Eval
variable {s t : Ground} {α : Type} {Q : Ground → α → Prop}

def Ends (s : Ground) (c : Completion) : Prop := c.Grounded s.machine

/-- A watch has nothing to say. -/
theorem Runs.watch {x : Failure → Eval α} {y : Eval α} {before : Machine → Prop}
    {after : Machine → α → Prop} (h : s.Runs x y Q) (hb : before s.machine)
    (ha : ∀ t a, Q t a → after t.machine a) :
    s.Runs (fun alarm => Patrol.watch alarm before after (x alarm)) y Q := by
  have hs : s.machine.Orderly ∧ before s.machine := ⟨s.grounded.orderly, hb⟩
  obtain ⟨t, ht, ⟨a, b, ⟨rfl, hq⟩, hy, hx⟩ | ⟨f, g, hf, hy, hx⟩⟩ := h
  · refine ⟨t, ht, .inl ⟨a, a, ⟨rfl, hq⟩, hy, fun alarm htold => ?_⟩⟩
    have ht : t.machine.Orderly ∧ s.machine.Precedes t.machine ∧ after t.machine a :=
      ⟨t.grounded.orderly, ht.machine, ha t a hq⟩
    have hx : x alarm s.machine = .ok a t.machine := hx alarm htold
    show Patrol.watch alarm before after (x alarm) s.machine = .ok a t.machine
    simp only [Patrol.watch, if_pos hs, hx, if_pos ht]
  · refine ⟨t, ht, .inr ⟨f, g, hf, hy, fun alarm htold => ?_⟩⟩
    have ht : t.machine.Orderly ∧ s.machine.Precedes t.machine := ⟨t.grounded.orderly, ht.machine⟩
    have hx : x alarm s.machine = .error f t.machine := hx alarm htold
    show Patrol.watch alarm before after (x alarm) s.machine = .error f t.machine
    simp only [Patrol.watch, if_pos hs, hx, if_pos ht]

section
variable (ev : Failure → BoundExpr → Eval Value) (ev' : BoundExpr → Eval Value)
  (ex : Failure → BoundStmt → Eval Completion) (ex' : BoundStmt → Eval Completion)
  (enter : Failure → Closure → List Value → Eval Value)
  (enter' : Closure → List Value → Eval Value)

def EvaluateGrounded : Prop :=
  ∀ (s : Ground) (e : BoundExpr), s.Runs (fun alarm => ev alarm e) (ev' e) Has

def ExecuteGrounded : Prop :=
  ∀ (s : Ground) (st : BoundStmt), s.Runs (fun alarm => ex alarm st) (ex' st) Ends

def EnterGrounded : Prop :=
  ∀ (s : Ground) (f : Closure) (vs : List Value), f.Grounded s.machine → (∀ v ∈ vs, s.Has v) →
    s.Runs (fun alarm => enter alarm f vs) (enter' f vs) Has

end

section forms
variable {ev : Failure → BoundExpr → Eval Value} {ev' : BoundExpr → Eval Value}
  {ex : Failure → BoundStmt → Eval Completion} {ex' : BoundStmt → Eval Completion}
  {enter : Failure → Closure → List Value → Eval Value}
  {enter' : Closure → List Value → Eval Value}

theorem evaluateAll_runs (hev : EvaluateGrounded ev ev') (es : List BoundExpr) :
    s.Runs (fun alarm => evaluateAll (ev alarm) es) (evaluateAll ev' es)
      fun t vs => ∀ v ∈ vs, t.Has v := by
  induction es generalizing s with
  | nil => exact .pure fun v hv => nomatch hv
  | cons e es ih =>
    refine (hev s e).bind fun t v _ hv => ih.bind fun u vs hu hvs => .pure ?_
    rintro w (_ | ⟨_, hw⟩)
    · exact hv.later hu
    · exact hvs w hw

theorem executeAll_runs (hex : ExecuteGrounded ex ex') (ss : List BoundStmt) :
    s.Runs (fun alarm => executeAll (ex alarm) ss) (executeAll ex' ss) Ends := by
  induction ss generalizing s with
  | nil => exact .pure trivial
  | cons st ss ih =>
    refine (hex s st).bind fun t c _ hc => ?_
    cases c with
    | normal => exact ih
    | returned v => exact .pure hc

theorem executeBlock_runs (hex : ExecuteGrounded ex ex') {p : Nat}
    (hp : p < s.machine.environments.frames.size) {b : Bindings Value}
    (hb : ∀ x v, b.find? x = some v → s.Has v) (body : List BoundStmt) :
    s.Runs (fun alarm => executeBlock (ex alarm) p b body) (executeBlock ex' p b body) Ends := by
  refine (newEnvironment_runs hp hb).bind fun t e _ he =>
    inEnvironment_runs he (fun t u c hm hc => ?_) (executeAll_runs hex body)
  cases c with
  | normal => trivial
  | returned v => exact Value.Grounded.mono hc hm

theorem apply_runs (hex : ExecuteGrounded ex ex') :
    EnterGrounded (fun alarm => apply (ex alarm)) (apply ex') := by
  intro s f vs hf hvs
  have harguments (x : String) (v : Value)
      (hv : (Bindings.ofPairs ((f.declaration.parameters.map Token.lexeme).zip vs)).find? x =
        some v) : s.Has v :=
    hvs v (List.of_mem_zip (Bindings.mem_of_find?_ofPairs hv)).2
  refine (executeBlock_runs hex hf.exists_ harguments f.declaration.body).bind fun t c _ hc => ?_
  split
  · exact .get (.ofFault fun v hv => has_of_getAt hv)
  · cases c with
    | normal => exact .pure trivial
    | returned v => exact .pure hc

theorem callValue_runs (hen : EnterGrounded enter enter') {callee : Value} (hc : s.Has callee)
    {vs : List Value} (hvs : ∀ v ∈ vs, s.Has v) :
    s.Runs (fun alarm => callValue (enter alarm) callee vs) (callValue enter' callee vs) Has := by
  cases callee with
  | native f =>
    cases f
    exact readClock_runs s
  | function f => exact hen s f vs hc hvs
  | class_ c =>
    refine (newInstance_runs s hc).bind fun t receiver ht hreceiver => ?_
    cases hf : c.initializer with
    | none => exact .pure hreceiver
    | some f =>
      have hf : f.Grounded t.machine := (Class.Grounded.findMethod hc hf).mono ht.machine
      refine (bindMethod_runs hf hreceiver).bind fun u g hu hg => ?_
      refine (hen u g vs hg fun v hv => (hvs v hv).later (ht.trans hu)).bind fun u' _ hu' _ => ?_
      exact .pure (hreceiver.later (hu.trans hu'))
  | _ => exact .pure trivial

theorem call_runs (settings : Settings) (hen : EnterGrounded enter enter') {callee : Value}
    (hc : s.Has callee) {vs : List Value} (hvs : ∀ v ∈ vs, s.Has v) (line : Nat) :
    s.Runs (fun alarm => call settings (enter alarm) callee vs line)
      (call settings enter' callee vs line) Has := by
  unfold call
  cases callee.arity? with
  | none => exact .throw _
  | some expected =>
    dsimp only
    split
    · exact .throw _
    · refine .get ?_
      split
      · exact .throw _
      · exact inCall_runs s line fun t ht =>
          callValue_runs hen (hc.later ht) fun v hv => (hvs v hv).later ht

theorem getProperty_runs {object : Value} (ho : s.Has object) (name : Token) :
    s.Runs (fun _ => getProperty object name) (getProperty object name) Has := by
  cases object with
  | object ref c =>
    refine (getField?_runs s ref name.lexeme).bind fun t v? ht hv => ?_
    cases v? with
    | some v => exact .pure (hv v rfl)
    | none =>
      dsimp only
      cases hf : c.findMethod name.lexeme with
      | none => exact .throw _
      | some f =>
        have hf : f.Grounded t.machine := (ho.2.findMethod hf).mono ht.machine
        exact (bindMethod_runs hf (ho.later ht)).bind fun u g _ hg => .pure hg
  | _ => exact .throw _

theorem superMethod_runs (s : Ground) (keyword : Token) (target : Hops) (method : Token) :
    s.Runs (fun _ => superMethod keyword target method) (superMethod keyword target method)
      Has := by
  cases target with
  | none => exact .throw _
  | some d =>
    refine .get (Runs.bind (Q := Has) (.ofFault fun v hv => has_of_getAt hv) ?_)
    intro t superclass ht hsuper
    refine Runs.bind (Q := Has) (.ofFault fun v hv => (has_of_getAt hv).later ht) ?_
    intro u receiver hu hreceiver
    cases superclass with
    | class_ c =>
      dsimp only
      cases hf : c.findMethod method.lexeme with
      | none => exact .throw _
      | some f =>
        have hf : f.Grounded u.machine := (Class.Grounded.findMethod hsuper hf).mono hu.machine
        exact (bindMethod_runs hf hreceiver).bind fun _ g _ hg => .pure hg
    | _ => exact .throw _

theorem assignClass_runs (name : Token) {k : Nat → Class}
    (hk : ∀ t, s.Later t → ∀ id, s.machine.created = id → id < t.machine.created →
      (k id).Grounded t.machine) :
    s.Runs
      (fun _ => nextId >>= fun id => get >>= fun m => assignFrom m.current name (.class_ (k id)))
      (nextId >>= fun id => get >>= fun m => assignFrom m.current name (.class_ (k id)))
      fun _ _ => True :=
  (nextId_runs s).bind fun t id ht hid =>
    .get (assignFrom_runs t.machine.current name (hk t ht id hid.1 hid.2))

/-- The superclass is evaluated before the class is created. -/
theorem declareClass_runs (hev : EvaluateGrounded ev ev') (name : Token)
    (superclass : Option (Superclass Hops)) (methods : List BoundFunction) :
    s.Runs (fun alarm => declareClass (ev alarm) name superclass methods)
      (declareClass ev' name superclass methods) fun _ _ => True := by
  have hnone {t : Ground} (x : String) (f : Closure) (hx : Bindings.find? [] x = some f) :
      f.Grounded t.machine := nomatch hx
  cases superclass with
  | none =>
    refine (define_runs name.lexeme (v := .nil) trivial).bind fun t _ _ _ => ?_
    refine (newMethods_runs methods hnone).bind fun u ms _ hms => ?_
    exact assignClass_runs name (k := (.root · name.lexeme ms)) fun u' hu' id _ hid =>
      ⟨hid, fun x f hx => (hms x f hx).mono hu'.machine⟩
  | some superclass =>
    refine (hev s superclass.expr).bind fun t v _ hv => ?_
    cases v with
    | class_ c =>
      refine (define_runs name.lexeme (v := .nil) trivial).bind fun u _ hu _ => .get ?_
      have hc : u.Has (.class_ c) := hv.later hu
      refine (newEnvironment_runs u.grounded.current (has_singleton hc)).bind fun u₁ e hu₁ he => ?_
      refine (inEnvironment_runs he (fun t u ms hm hms x f hx => (hms x f hx).mono hm)
        (newMethods_runs methods hnone)).bind fun u₂ ms hu₂ hms => ?_
      refine assignClass_runs name (k := (.derived · name.lexeme ms c)) fun u₃ hu₃ id heq hid => ?_
      have hc₂ : c.Grounded u₂.machine := Class.Grounded.mono hc (hu₁.trans hu₂).machine
      exact ⟨⟨hid, fun x f hx => (hms x f hx).mono hu₃.machine⟩, heq ▸ hc₂.id_lt,
        hc₂.mono hu₃.machine⟩
    | _ => exact .throw _

theorem loop_runs {x : Failure → Eval Value} {y : Eval Value} {z : Failure → Eval Completion}
    {z' : Eval Completion} (htest : ∀ t : Ground, t.Runs x y Has)
    (hbody : ∀ t : Ground, t.Runs z z' Ends) (turns : Nat) :
    s.Runs (fun alarm => loop (x alarm) (z alarm) turns) (loop y z' turns) Ends := by
  induction turns generalizing s with
  | zero => exact .throw _
  | succ turns ih =>
    refine (htest s).bind fun t v _ _ => ?_
    split
    · refine (hbody t).bind fun u c _ hc => ?_
      cases c with
      | normal => exact ih
      | returned v => exact .pure hc
    · exact .pure trivial

theorem has_of_isPrimitive {v : Value} (h : v.IsPrimitive) : s.Has v := by
  cases v <;> trivial

theorem evaluateForm_runs (settings : Settings) (hev : EvaluateGrounded ev ev')
    (hen : EnterGrounded enter enter') (e : BoundExpr) :
    s.Runs (fun alarm => evaluateForm settings (ev alarm) (enter alarm) e)
      (evaluateForm settings ev' enter' e) Has := by
  cases e with
  | literal line value => exact .pure (has_of_isPrimitive (Value.isPrimitive_ofLiteral value))
  | grouping line inner => exact hev s inner
  | unary operator right =>
    exact (hev s right).bind fun t v _ _ => .ofOperator _ fun w hw =>
      has_of_isPrimitive (Value.isPrimitive_of_unary hw)
  | binary left operator right =>
    refine (hev s left).bind fun t v _ _ => (hev t right).bind fun u w _ _ => ?_
    exact .ofOperator _ fun w hw => has_of_isPrimitive (Value.isPrimitive_of_binary hw)
  | logical left operator right =>
    refine (hev s left).bind fun t v _ hv => ?_
    split
    · exact .pure hv
    · exact hev t right
  | read name target => exact lookUp_runs s name target
  | assign line name target value =>
    refine (hev s value).bind fun t v _ hv => ?_
    exact (assign_runs name target hv).bind fun u _ hu _ => .pure (hv.later hu)
  | call callee paren arguments =>
    refine (hev s callee).bind fun t v _ hv => ?_
    refine (evaluateAll_runs hev arguments).bind fun u vs hu hvs => ?_
    exact call_runs settings hen (hv.later hu) hvs paren.line
  | get object name => exact (hev s object).bind fun t v _ hv => getProperty_runs hv name
  | set line object name value =>
    refine (hev s object).bind fun t v _ _ => ?_
    cases v with
    | object ref c =>
      refine (hev t value).bind fun u w _ hw => ?_
      exact (setField_runs u ref name.lexeme hw).bind fun u' _ hu' _ => .pure (hw.later hu')
    | _ => exact .throw _
  | this keyword target => exact lookUp_runs s keyword target
  | super keyword target method => exact superMethod_runs s keyword target method

theorem executeForm_runs (settings : Settings) (hev : EvaluateGrounded ev ev')
    (hex : ExecuteGrounded ex ex') (st : BoundStmt) :
    s.Runs (fun alarm => executeForm settings (ev alarm) (ex alarm) st)
      (executeForm settings ev' ex' st) Ends := by
  cases st with
  | expression line value => exact (hev s value).bind fun _ _ _ _ => .pure trivial
  | print line value =>
    exact (hev s value).bind fun t _ _ _ => (emit_runs t _).bind fun _ _ _ _ => .pure trivial
  | var name initializer =>
    have hdefine {t : Ground} {v : Value} (hv : t.Has v) :
        t.Runs (fun _ => define name.lexeme v >>= fun _ => pure Completion.normal)
          (define name.lexeme v >>= fun _ => pure .normal) Ends :=
      (define_runs name.lexeme hv).bind fun _ _ _ _ => .pure trivial
    cases initializer with
    | none => exact hdefine (v := .nil) trivial
    | some e => exact (hev s e).bind fun t v _ hv => hdefine hv
  | block line body =>
    refine .get (executeBlock_runs hex s.grounded.current (fun x v hv => ?_) body)
    exact nomatch (hv : Bindings.find? [] x = some v)
  | ifThen line condition thenBranch =>
    refine (hev s condition).bind fun t _ _ _ => ?_
    split
    · exact hex t thenBranch
    · exact .pure trivial
  | ifElse line condition thenBranch elseBranch =>
    refine (hev s condition).bind fun t _ _ _ => ?_
    split
    · exact hex t thenBranch
    · exact hex t elseBranch
  | while_ line condition body =>
    exact loop_runs (fun t => hev t condition) (fun t => hex t body) settings.turns
  | function f =>
    refine (newFunction_runs s f false).bind fun t g _ hg => ?_
    exact (define_runs g.name (v := .function g) hg).bind fun _ _ _ _ => .pure trivial
  | return_ keyword value =>
    cases value with
    | none => exact .pure trivial
    | some e => exact (hev s e).bind fun _ _ _ hv => .pure hv
  | class_ line name superclass methods =>
    exact (declareClass_runs hev name superclass methods).bind fun _ _ _ _ => .pure trivial

end forms

theorem enter_runs {ex : Failure → BoundStmt → Eval Completion} {ex' : BoundStmt → Eval Completion}
    (hex : ExecuteGrounded ex ex') :
    EnterGrounded (fun alarm => Patrol.enter alarm (ex alarm)) (apply ex') :=
  fun s f vs hf hvs => (apply_runs hex s f vs hf hvs).watch ⟨hf, hvs⟩ fun _ _ hv => hv

theorem evaluate_execute_grounded (settings : Settings) (nesting : Nat) :
    EvaluateGrounded (fun alarm => Patrol.evaluate settings alarm nesting)
        (evaluate settings nesting) ∧
      ExecuteGrounded (fun alarm => Patrol.execute settings alarm nesting)
        (execute settings nesting) := by
  induction nesting with
  | zero => exact ⟨fun _ _ => .throw _, fun _ _ => .throw _⟩
  | succ nesting ih =>
    obtain ⟨hev, hex⟩ := ih
    refine ⟨fun s e => ?_, fun s st => ?_⟩
    · exact (evaluateForm_runs settings hev (enter_runs hex) e).watch trivial fun _ _ hv => hv
    · refine Runs.watch (Q := Ends) ?_ trivial fun _ _ hc => hc
      simp only [execute]
      split
      · exact (emit_runs s _).bind fun t _ _ _ => executeForm_runs settings hev hex st
      · exact executeForm_runs settings hev hex st

theorem executeProgram_runs (settings : Settings) (ss : List BoundStmt) :
    s.Runs (fun alarm => Patrol.executeProgram settings alarm ss) (executeProgram settings ss)
      fun _ _ => True := by
  induction ss generalizing s with
  | nil => exact .pure trivial
  | cons st ss ih =>
    exact ((evaluate_execute_grounded settings settings.nesting).2 s st).bind fun t _ _ _ => ih

theorem supervises :
    grounds.Supervises fun alarm settings => Patrol.executeProgram settings alarm where
  left_eq _ := rfl
  fails_eq h := h
  current_eq h := h.current
  rests s callDepth events := by
    have hm : s.machine.Precedes { s.machine with callDepth, events } :=
      ⟨Nat.le_refl _, Nat.le_refl _, Nat.le_refl _, fun _ _ => rfl⟩
    have hgrounded := s.grounded.next hm s.grounded.environments rfl (fun _ _ _ hv => .inl hv)
      fun _ b _ _ hb hv => .inl ⟨b, hb, hv⟩
    exact ⟨⟨_, hgrounded⟩, ⟨hm, rfl⟩, rfl⟩
  runs s settings program _ _ :=
    Parallel.Runs.mono (executeProgram_runs settings _) fun _ _ _ _ _ => trivial

end Ground

namespace Session

/-- Whatever is given to a session and whatever the alarm, the session goes as if it were
patrolled: before and after every expression, every statement and every function that is entered,
each environment but the globals lies in one created before it, each class inherits from one
created before it, and no environment has come to lie elsewhere. So every chain of environments
ends at the globals, every search along the links comes to an end, and a method is that of the
nearest class on the chain that has one of its name. The machine that is left in the end is in the
same order. -/
theorem patrol_run (clock : Float) (inputs : List Input) :
    (∀ alarm : Failure,
      inputs.foldl (Input.runBy fun settings => Patrol.executeProgram settings alarm)
          (initial clock) =
        inputs.foldl Input.run (initial clock)) ∧
      (inputs.foldl Input.run (initial clock)).machine.Orderly := by
  let s : Ground := ⟨.initial clock, Machine.grounded_initial clock⟩
  have hinitial : (initial clock).machine = grounds.right s := rfl
  obtain ⟨t, -, hmachine, ht⟩ := foldl_follows Ground.supervises hinitial rfl inputs
  refine ⟨fun alarm => ht alarm trivial, ?_⟩
  rw [hmachine]
  exact t.grounded.orderly

end Session
end Lox
