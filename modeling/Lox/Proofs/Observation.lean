import Lox.Proofs.Lockstep

/-! Observation. An observed run keeps a log beside the machine: of every statement that it begins
to execute and of every line that it writes about one, each with the machine as it was just then.
The log is never read, so the run does what it does unobserved. Two observed runs that differ in
the setting for traces go through the same moments, and write the same but for the lines of the
trace. -/

namespace Lox

structure Visit where
  statement : BoundStmt
  /-- Just before what is noted. -/
  machine : Machine

/-- What has been noted of a run, newest first. -/
structure Log where
  /-- The statements that were begun. -/
  arrivals : List Visit
  /-- The statements that a line was written about. -/
  announcements : List Visit

abbrev Observed := EStateM Failure (Machine × Log)

namespace Observed
variable {α : Type}

/-- A step with nothing to note. -/
def lift (act : Eval α) : Observed α := fun (m, log) =>
  match act m with
  | .ok a m' => .ok a (m', log)
  | .error f m' => .error f (m', log)

/-- Comes to a statement that is to be executed. -/
def arrive (s : BoundStmt) : Observed Unit := fun (m, log) =>
  .ok () (m, { log with arrivals := ⟨s, m⟩ :: log.arrivals })

/-- Writes a statement's line. -/
def announce (s : BoundStmt) : Observed Unit := fun (m, log) =>
  .ok () ({ m with events := .traced s.line s.kind :: m.events },
    { log with announcements := ⟨s, m⟩ :: log.announcements })

def inEnvironment (e : Nat) (act : Observed α) : Observed α := fun (m, log) =>
  match act ({ m with current := e }, log) with
  | .ok a (m', log') => .ok a ({ m' with current := m.current }, log')
  | .error f (m', log') => .error f ({ m' with current := m.current }, log')

def inCall (line : Nat) (act : Observed α) : Observed α := fun (m, log) =>
  match act ({ m with callDepth := m.callDepth + 1 }, log) with
  | .ok a (m', log') => .ok a ({ m' with callDepth := m'.callDepth - 1 }, log')
  | .error .exhausted (m', log') =>
    .error (.runtime ⟨.tooDeeplyNested, some line⟩)
      ({ m' with callDepth := m'.callDepth - 1 }, log')
  | .error f (m', log') => .error f ({ m' with callDepth := m'.callDepth - 1 }, log')

def evaluateAll (ev : BoundExpr → Observed Value) : List BoundExpr → Observed (List Value)
  | [] => return []
  | e :: es => do
    let value ← ev e
    return value :: (← evaluateAll ev es)

def executeAll (ex : BoundStmt → Observed Completion) : List BoundStmt → Observed Completion
  | [] => return .normal
  | s :: ss => do
    match ← ex s with
    | .normal => executeAll ex ss
    | .returned value => return .returned value

def executeBlock (ex : BoundStmt → Observed Completion) (enclosing : Nat)
    (bindings : Bindings Value) (body : List BoundStmt) : Observed Completion := do
  let e ← lift (Eval.newEnvironment enclosing bindings)
  inEnvironment e (executeAll ex body)

def apply (ex : BoundStmt → Observed Completion) (f : Closure) (arguments : List Value) :
    Observed Value := do
  let names := f.declaration.parameters.map Token.lexeme
  let completion ← executeBlock ex f.environment (.ofPairs (names.zip arguments)) f.declaration.body
  if f.isInitializer then
    lift (get >>= fun m => Eval.ofFault (m.environments.getAt f.environment 0 "this"))
  else
    match completion with
    | .normal => return .nil
    | .returned value => return value

def callValue (enter : Closure → List Value → Observed Value) (callee : Value)
    (arguments : List Value) : Observed Value := do
  match callee with
  | .native .clock => lift Eval.readClock
  | .function f => enter f arguments
  | .class_ c =>
    let receiver ← lift (Eval.newInstance c)
    match c.initializer with
    | some f =>
      let _ ← enter (← lift (Eval.bindMethod f receiver)) arguments
      return receiver
    | none => return receiver
  | _ => return .nil

def call (settings : Settings) (enter : Closure → List Value → Observed Value) (callee : Value)
    (arguments : List Value) (line : Nat) : Observed Value := do
  match callee.arity? with
  | none => lift (Eval.raise .notCallable line)
  | some expected =>
    if arguments.length ≠ expected then
      lift (Eval.raise (.wrongArity expected arguments.length) line)
    else if settings.calls ≤ (← lift get).callDepth then lift (Eval.raise .tooManyCalls line)
    else inCall line (callValue enter callee arguments)

def evaluateForm (settings : Settings) (ev : BoundExpr → Observed Value)
    (enter : Closure → List Value → Observed Value) : BoundExpr → Observed Value
  | .literal _ value => return .ofLiteral value
  | .grouping _ inner => ev inner
  | .unary operator right => do
    let right ← ev right
    lift (Eval.ofOperator operator.line (Value.unary operator.kind operator.lexeme right))
  | .binary left operator right => do
    let left ← ev left
    let right ← ev right
    lift (Eval.ofOperator operator.line (Value.binary operator.kind operator.lexeme left right))
  | .logical left operator right => do
    let left ← ev left
    if Value.decides operator.kind left then return left else ev right
  | .read name target => lift (Eval.lookUp name target)
  | .assign _ name target value => do
    let value ← ev value
    lift (Eval.assign name target value)
    return value
  | .call callee paren arguments => do
    let callee ← ev callee
    let arguments ← evaluateAll ev arguments
    call settings enter callee arguments paren.line
  | .get object name => do
    let object ← ev object
    lift (Eval.getProperty object name)
  | .set _ object name value => do
    match ← ev object with
    | .object ref _ =>
      let value ← ev value
      lift (Eval.setField ref name.lexeme value)
      return value
    | _ => lift (Eval.raise .fieldOfNonInstance name.line)
  | .this keyword target => lift (Eval.lookUp keyword target)
  | .super keyword target method => lift (Eval.superMethod keyword target method)

def loop (test : Observed Value) (body : Observed Completion) : (turns : Nat) → Observed Completion
  | 0 => throw .outOfTurns
  | turns + 1 => do
    if (← test).isTruthy then
      match ← body with
      | .normal => loop test body turns
      | .returned value => return .returned value
    else return .normal

def declareClass (ev : BoundExpr → Observed Value) (name : Token)
    (superclass? : Option (Superclass Hops)) (methods : List BoundFunction) : Observed Unit := do
  match superclass? with
  | none => lift (Eval.declareClass (fun _ => throw .exhausted) name none methods)
  | some s =>
    let superclass ← ev s.expr
    lift (Eval.declareClass (fun _ => return superclass) name (some s) methods)

def executeForm (settings : Settings) (ev : BoundExpr → Observed Value)
    (ex : BoundStmt → Observed Completion) : BoundStmt → Observed Completion
  | .expression _ value => do
    let _ ← ev value
    return .normal
  | .print _ value => do
    let value ← ev value
    lift (Eval.emit (.printed value.text))
    return .normal
  | .var name initializer => do
    let value ←
      match initializer with
      | some e => ev e
      | none => pure .nil
    lift (Eval.define name.lexeme value)
    return .normal
  | .block _ body => do executeBlock ex (← lift get).current [] body
  | .ifThen _ condition thenBranch => do
    if (← ev condition).isTruthy then ex thenBranch else return .normal
  | .ifElse _ condition thenBranch elseBranch => do
    if (← ev condition).isTruthy then ex thenBranch else ex elseBranch
  | .while_ _ condition body => loop (ev condition) (ex body) settings.turns
  | .function declaration => do
    let f ← lift (Eval.newFunction declaration false)
    lift (Eval.define f.name (.function f))
    return .normal
  | .return_ _ value => do
    match value with
    | some e => return .returned (← ev e)
    | none => return .returned .nil
  | .class_ _ name superclass methods => do
    declareClass ev name superclass methods
    return .normal

mutual

def evaluate (settings : Settings) : (nesting : Nat) → BoundExpr → Observed Value
  | 0, _ => throw .exhausted
  | nesting + 1, e =>
    evaluateForm settings (evaluate settings nesting) (apply (execute settings nesting)) e

def execute (settings : Settings) : (nesting : Nat) → BoundStmt → Observed Completion
  | 0, _ => throw .exhausted
  | nesting + 1, s => do
    arrive s
    if settings.trace then announce s
    executeForm settings (evaluate settings nesting) (execute settings nesting) s

end

def executeProgram (settings : Settings) : List BoundStmt → Observed Unit
  | [] => return ()
  | s :: ss => do
    let _ ← execute settings settings.nesting s
    executeProgram settings ss

def run (program : Observed Unit) (m : Machine) (log : Log) : Option Failure × Machine × Log :=
  match program (m, log) with
  | .ok _ (m, log) => (none, { m with current := Machine.globals, callDepth := 0 }, log)
  | .error f (m, log) => (some f, { m with current := Machine.globals, callDepth := 0 }, log)

theorem lift_bind {β : Type} (x : Eval α) (f : α → Eval β) :
    lift (x >>= f) = lift x >>= fun a => lift (f a) := by
  funext ⟨m, log⟩
  show lift (EStateM.bind x f) (m, log) = EStateM.bind (lift x) (fun a => lift (f a)) (m, log)
  simp only [lift, EStateM.bind]
  cases x m <;> rfl

theorem lift_inEnvironment (e : Nat) (x : Eval α) :
    lift (Eval.inEnvironment e x) = inEnvironment e (lift x) := by
  funext ⟨m, log⟩
  simp only [lift, inEnvironment, Eval.inEnvironment]
  cases x { m with current := e } <;> rfl

theorem lift_inCall (line : Nat) (x : Eval α) :
    lift (Eval.inCall line x) = inCall line (lift x) := by
  funext ⟨m, log⟩
  simp only [lift, inCall, Eval.inCall]
  cases x { m with callDepth := m.callDepth + 1 } with
  | ok a m' => rfl
  | error f m' => cases f <;> rfl

end Observed

def Event.isTrace : Event → Bool
  | .traced .. => true
  | _ => false

/-- The line of a trace about a statement. -/
def Visit.line (v : Visit) : Event := .traced v.statement.line v.statement.kind

/-- The statements begun so far and what has been written, without a trace and with one. Each
statement begins on the same machine, but for what is written, and its line comes right then. -/
inductive Woven : List Visit → Transcript → List Visit → Transcript → Prop
  | start : Woven [] [] [] []
  | event {visits visits' : List Visit} {t t' : Transcript} {e : Event} : e.isTrace = false →
      Woven visits t visits' t' → Woven visits (e :: t) visits' (e :: t')
  | visit {visits visits' : List Visit} (s : BoundStmt) {m : Machine} {events : Transcript} :
      Woven visits m.events visits' events →
      Woven (⟨s, m⟩ :: visits) m.events (⟨s, { m with events }⟩ :: visits')
        (.traced s.line s.kind :: events)

namespace Woven
variable {visits visits' : List Visit} {t t' : Transcript}

theorem output_eq (h : Woven visits t visits' t') : t'.output = t.output := by
  induction h with
  | start => rfl
  | event _ _ ih => rw [Transcript.output_cons, Transcript.output_cons, ih]
  | visit s _ ih =>
    rw [Transcript.output_cons, ih]
    exact String.append_empty

theorem others (h : Woven visits t visits' t') : t'.filter (!·.isTrace) = t := by
  induction h with
  | start => rfl
  | event he _ ih => simp [he, ih]
  | visit s _ ih => exact ih

theorem lines (h : Woven visits t visits' t') : t'.filter (·.isTrace) = visits.map Visit.line := by
  induction h with
  | start => rfl
  | event he _ ih => simp [he, ih]
  | visit s _ ih => exact congrArg _ ih

end Woven

/-- Where two observed runs are that differ in the setting for traces. -/
structure Moment where
  machine : Machine
  log : Log
  /-- What has been written with a trace. -/
  events : Transcript
  tracedLog : Log
  woven : Woven log.arrivals machine.events tracedLog.arrivals events
  silent : log.announcements = []
  announced : tracedLog.announcements = tracedLog.arrivals

namespace Moment
variable (t : Moment)

def traced : Machine := { t.machine with events := t.events }

def move (m : Machine) (h : m.events = t.machine.events) : Moment :=
  { t with machine := m, woven := h ▸ t.woven }

def write (e : Event) (h : e.isTrace = false) : Moment :=
  { t with
    machine := { t.machine with events := e :: t.machine.events }
    events := e :: t.events
    woven := .event h t.woven }

/-- A statement begins, and if there is a trace, its line is written. -/
def begin (s : BoundStmt) : Moment where
  machine := t.machine
  log := { t.log with arrivals := ⟨s, t.machine⟩ :: t.log.arrivals }
  events := .traced s.line s.kind :: t.events
  tracedLog :=
    ⟨⟨s, t.traced⟩ :: t.tracedLog.arrivals, ⟨s, t.traced⟩ :: t.tracedLog.announcements⟩
  woven := .visit s t.woven
  silent := t.silent
  announced := congrArg _ t.announced

end Moment

namespace Observed

section
variable {σ α β : Type}

/-- A computation's outcome and the state that it leaves. -/
def ending : Except Failure α → σ → EStateM.Result Failure σ α
  | .ok a, s => .ok a s
  | .error f, s => .error f s

variable {x x' : Observed α} {y y' : Eval α} {m m' : Machine} {log log' : Log}
  {r : Except Failure α}

theorem inEnvironment_ending (e : Nat)
    (h : x ({ m with current := e }, log) = ending r (m', log')) :
    Observed.inEnvironment e x (m, log) = ending r ({ m' with current := m.current }, log') := by
  unfold Observed.inEnvironment
  dsimp only
  rw [h]
  cases r <;> rfl

theorem eval_inEnvironment_ending (e : Nat) (h : y { m with current := e } = ending r m') :
    Eval.inEnvironment e y m = ending r { m' with current := m.current } := by
  unfold Eval.inEnvironment
  rw [h]
  cases r <;> rfl

/-- How a call ends: nesting that has run out is noticed there. -/
def noticed (line : Nat) : Except Failure α → Except Failure α
  | .error .exhausted => .error (.runtime ⟨.tooDeeplyNested, some line⟩)
  | r => r

theorem inCall_ending (line : Nat)
    (h : x ({ m with callDepth := m.callDepth + 1 }, log) = ending r (m', log')) :
    Observed.inCall line x (m, log) =
      ending (noticed line r) ({ m' with callDepth := m'.callDepth - 1 }, log') := by
  unfold Observed.inCall
  dsimp only
  rw [h]
  cases r with
  | ok a => rfl
  | error f => cases f <;> rfl

theorem eval_inCall_ending (line : Nat)
    (h : y { m with callDepth := m.callDepth + 1 } = ending r m') :
    Eval.inCall line y m = ending (noticed line r) { m' with callDepth := m'.callDepth - 1 } := by
  unfold Eval.inCall
  rw [h]
  cases r with
  | ok a => rfl
  | error f => cases f <;> rfl

/-- From one moment to another, without a trace and with one, observed and not. -/
structure Passes (x : Observed α) (y : Eval α) (x' : Observed α) (y' : Eval α) (t : Moment)
    (r : Except Failure α) (u : Moment) : Prop where
  observed : x (t.machine, t.log) = ending r (u.machine, u.log)
  plain : y t.machine = ending r u.machine
  tracedObserved : x' (t.traced, t.tracedLog) = ending r (u.traced, u.tracedLog)
  tracedPlain : y' t.traced = ending r u.traced

/-- From any moment on, `x` and `x'` do, and note, what `y` and `y'` do. The latter two end alike,
though only `x'` and `y'` show a trace. -/
def Observes (x : Observed α) (y : Eval α) (x' : Observed α) (y' : Eval α) : Prop :=
  ∀ t, ∃ r u, Passes x y x' y' t r u

namespace Observes

theorem pure (a : α) : Observes (Pure.pure a) (Pure.pure a) (Pure.pure a) (Pure.pure a) :=
  fun t => ⟨.ok a, t, rfl, rfl, rfl, rfl⟩

theorem throw (f : Failure) :
    Observes (MonadExcept.throw f : Observed α) (MonadExcept.throw f) (MonadExcept.throw f)
      (MonadExcept.throw f) := fun t => ⟨.error f, t, rfl, rfl, rfl, rfl⟩

theorem bind {f f' : α → Observed β} {g g' : α → Eval β} (h : Observes x y x' y')
    (hf : ∀ a, Observes (f a) (g a) (f' a) (g' a)) :
    Observes (x >>= f) (y >>= g) (x' >>= f') (y' >>= g') := by
  intro t
  obtain ⟨r, u, hu⟩ := h t
  cases r with
  | error failure =>
    exact ⟨.error failure, u, {
      observed := Eval.bind_error hu.observed f
      plain := Eval.bind_error hu.plain g
      tracedObserved := Eval.bind_error hu.tracedObserved f'
      tracedPlain := Eval.bind_error hu.tracedPlain g' }⟩
  | ok a =>
    obtain ⟨r, v, hv⟩ := hf a u
    exact ⟨r, v, {
      observed := (Eval.bind_ok hu.observed f).trans hv.observed
      plain := (Eval.bind_ok hu.plain g).trans hv.plain
      tracedObserved := (Eval.bind_ok hu.tracedObserved f').trans hv.tracedObserved
      tracedPlain := (Eval.bind_ok hu.tracedPlain g').trans hv.tracedPlain }⟩

theorem inspect {f f' : Machine → Observed α} {g g' : Machine → Eval α}
    (hf' : ∀ m events, f' { m with events } = f' m) (hg' : ∀ m events, g' { m with events } = g' m)
    (h : ∀ m, Observes (f m) (g m) (f' m) (g' m)) :
    Observes (Observed.lift get >>= f) (get >>= g) (Observed.lift get >>= f') (get >>= g') := by
  intro t
  obtain ⟨r, u, hu⟩ := h t.machine t
  exact ⟨r, u, hu.observed, hu.plain,
    (congrFun (hf' t.machine t.events) _).trans hu.tracedObserved,
    (congrFun (hg' t.machine t.events) _).trans hu.tracedPlain⟩

theorem inEnvironment (e : Nat) (h : Observes x y x' y') :
    Observes (Observed.inEnvironment e x) (Eval.inEnvironment e y) (Observed.inEnvironment e x')
      (Eval.inEnvironment e y') := by
  intro t
  obtain ⟨r, u, hu⟩ := h (t.move { t.machine with current := e } rfl)
  have hobserved := inEnvironment_ending (m := t.traced) e hu.tracedObserved
  have hplain := eval_inEnvironment_ending (m := t.traced) e hu.tracedPlain
  exact ⟨r, u.move { u.machine with current := t.machine.current } rfl,
    inEnvironment_ending e hu.observed, eval_inEnvironment_ending e hu.plain, hobserved, hplain⟩

theorem inCall (line : Nat) (h : Observes x y x' y') :
    Observes (Observed.inCall line x) (Eval.inCall line y) (Observed.inCall line x')
      (Eval.inCall line y') := by
  intro t
  obtain ⟨r, u, hu⟩ := h (t.move { t.machine with callDepth := t.machine.callDepth + 1 } rfl)
  have hobserved := inCall_ending (m := t.traced) line hu.tracedObserved
  have hplain := eval_inCall_ending (m := t.traced) line hu.tracedPlain
  exact ⟨noticed line r, u.move { u.machine with callDepth := u.machine.callDepth - 1 } rfl,
    inCall_ending line hu.observed, eval_inCall_ending line hu.plain, hobserved, hplain⟩

end Observes

/-- Whatever is not observed by itself. -/
def steps : Passage where
  Holds x y := Observes (Observed.lift x) x (Observed.lift y) y
  pure a := .pure a
  bind hx hf := by
    rw [Observed.lift_bind, Observed.lift_bind]
    exact hx.bind hf
  throw f := .throw f
  inspect _ hg h := by
    rw [Observed.lift_bind, Observed.lift_bind]
    exact .inspect (fun m events => congrArg _ (hg m events)) hg h
  store {_ f} hf t := by
    have htraced : f t.traced = ((f t.machine).1, { (f t.machine).2 with events := t.events }) :=
      hf.events t.machine t.events
    refine ⟨.ok (f t.machine).1, t.move (f t.machine).2 (hf.keeps t.machine), rfl, rfl, ?_, ?_⟩
    · show EStateM.Result.ok (f t.traced).1 ((f t.traced).2, t.tracedLog) = _
      rw [htraced]
      rfl
    · show EStateM.Result.ok (f t.traced).1 (f t.traced).2 = _
      rw [htraced]
      rfl
  print text t := ⟨.ok (), t.write (.printed text) rfl, rfl, rfl, rfl, rfl⟩
  inEnvironment e h := by
    rw [Observed.lift_inEnvironment, Observed.lift_inEnvironment]
    exact h.inEnvironment e
  inCall line h := by
    rw [Observed.lift_inCall, Observed.lift_inCall]
    exact h.inCall line

theorem Observes.visit (s : BoundStmt) (h : Observes x y x' y') :
    Observes (Observed.arrive s >>= fun _ => x) y
      (Observed.arrive s >>= fun _ => Observed.announce s >>= fun _ => x')
      (Eval.emit (.traced s.line s.kind) >>= fun _ => y') := by
  intro t
  obtain ⟨r, u, hu⟩ := h (t.begin s)
  exact ⟨r, u, hu.observed, hu.plain, hu.tracedObserved, hu.tracedPlain⟩

end

end Observed

def Settings.traced (settings : Settings) (trace : Bool) : Settings := { settings with trace }

namespace Observed
variable {ev ev' : BoundExpr → Observed Value} {bev bev' : BoundExpr → Eval Value}
  {ex ex' : BoundStmt → Observed Completion} {bex bex' : BoundStmt → Eval Completion}
  {enter enter' : Closure → List Value → Observed Value}
  {benter benter' : Closure → List Value → Eval Value} {settings settings' : Settings}

theorem evaluateAll_observes (hev : ∀ e, Observes (ev e) (bev e) (ev' e) (bev' e))
    (es : List BoundExpr) :
    Observes (evaluateAll ev es) (Eval.evaluateAll bev es) (evaluateAll ev' es)
      (Eval.evaluateAll bev' es) := by
  induction es with
  | nil => exact .pure []
  | cons e es ih => exact (hev e).bind fun v => ih.bind fun vs => .pure _

theorem executeAll_observes (hex : ∀ s, Observes (ex s) (bex s) (ex' s) (bex' s))
    (ss : List BoundStmt) :
    Observes (executeAll ex ss) (Eval.executeAll bex ss) (executeAll ex' ss)
      (Eval.executeAll bex' ss) := by
  induction ss with
  | nil => exact .pure _
  | cons s ss ih =>
    apply (hex s).bind
    intro completion
    cases completion with
    | normal => exact ih
    | returned v => exact .pure _

theorem executeBlock_observes (hex : ∀ s, Observes (ex s) (bex s) (ex' s) (bex' s))
    (enclosing : Nat) (b : Bindings Value) (body : List BoundStmt) :
    Observes (executeBlock ex enclosing b body) (Eval.executeBlock bex enclosing b body)
      (executeBlock ex' enclosing b body) (Eval.executeBlock bex' enclosing b body) := by
  apply Observes.bind (steps.newEnvironment enclosing b)
  intro e
  exact (executeAll_observes hex body).inEnvironment e

theorem apply_observes (hex : ∀ s, Observes (ex s) (bex s) (ex' s) (bex' s)) (f : Closure)
    (arguments : List Value) :
    Observes (apply ex f arguments) (Eval.apply bex f arguments) (apply ex' f arguments)
      (Eval.apply bex' f arguments) := by
  apply (executeBlock_observes hex _ _ _).bind
  intro completion
  cases f.isInitializer with
  | true => exact steps.inspect (fun _ _ => rfl) (fun _ _ => rfl) fun _ => steps.ofFault _
  | false => cases completion <;> exact .pure _

theorem callValue_observes
    (hen : ∀ f vs, Observes (enter f vs) (benter f vs) (enter' f vs) (benter' f vs))
    (callee : Value) (arguments : List Value) :
    Observes (callValue enter callee arguments) (Eval.callValue benter callee arguments)
      (callValue enter' callee arguments) (Eval.callValue benter' callee arguments) := by
  cases callee with
  | native f =>
    cases f
    exact steps.readClock
  | function f => exact hen f arguments
  | class_ k =>
    apply Observes.bind (steps.newInstance k)
    intro receiver
    cases k.initializer with
    | none => exact .pure receiver
    | some f =>
      exact Observes.bind (steps.bindMethod f receiver) fun f' =>
        (hen f' arguments).bind fun _ => .pure _
  | _ => exact .pure _

theorem call_observes (hcalls : settings'.calls = settings.calls)
    (hen : ∀ f vs, Observes (enter f vs) (benter f vs) (enter' f vs) (benter' f vs))
    (callee : Value) (arguments : List Value) (line : Nat) :
    Observes (call settings enter callee arguments line)
      (Eval.call settings benter callee arguments line)
      (call settings' enter' callee arguments line)
      (Eval.call settings' benter' callee arguments line) := by
  unfold call Eval.call
  rw [hcalls]
  cases callee.arity? with
  | none => exact steps.raise _ _
  | some expected =>
    dsimp only
    split
    · exact steps.raise _ _
    · apply Observes.inspect (fun _ _ => rfl) (fun _ _ => rfl)
      intro m
      split
      · exact steps.raise _ _
      · exact (callValue_observes hen callee arguments).inCall line

theorem evaluateForm_observes (hcalls : settings'.calls = settings.calls)
    (hev : ∀ e, Observes (ev e) (bev e) (ev' e) (bev' e))
    (hen : ∀ f vs, Observes (enter f vs) (benter f vs) (enter' f vs) (benter' f vs))
    (e : BoundExpr) :
    Observes (evaluateForm settings ev enter e)
      (Eval.evaluateForm settings bev benter e)
      (evaluateForm settings' ev' enter' e)
      (Eval.evaluateForm settings' bev' benter' e) := by
  cases e with
  | literal line value => exact .pure _
  | grouping line inner => exact hev inner
  | unary operator right => exact (hev right).bind fun v => steps.ofOperator _ _
  | binary left operator right =>
    exact (hev left).bind fun v => (hev right).bind fun w => steps.ofOperator _ _
  | logical left operator right =>
    apply (hev left).bind
    intro v
    cases Value.decides operator.kind v with
    | true => exact .pure v
    | false => exact hev right
  | read name target => exact steps.lookUp name target
  | assign line name target value =>
    exact (hev value).bind fun v => Observes.bind (steps.assign name target v) fun _ => .pure v
  | call callee paren arguments =>
    exact (hev callee).bind fun v => (evaluateAll_observes hev arguments).bind fun vs =>
      call_observes hcalls hen v vs paren.line
  | get object name => exact (hev object).bind fun v => steps.getProperty v name
  | set line object name value =>
    apply (hev object).bind
    intro o
    cases o with
    | object ref k =>
      exact (hev value).bind fun v =>
        Observes.bind (steps.setField ref name.lexeme v) fun _ => .pure v
    | _ => exact steps.raise _ _
  | this keyword target => exact steps.lookUp keyword target
  | super keyword target method => exact steps.superMethod keyword target method

theorem loop_observes {test test' : Observed Value} {btest btest' : Eval Value}
    {body body' : Observed Completion} {bbody bbody' : Eval Completion}
    (htest : Observes test btest test' btest') (hbody : Observes body bbody body' bbody')
    (turns : Nat) :
    Observes (loop test body turns) (Eval.loop btest bbody turns) (loop test' body' turns)
      (Eval.loop btest' bbody' turns) := by
  induction turns with
  | zero => exact .throw _
  | succ turns ih =>
    apply htest.bind
    intro v
    cases v.isTruthy with
    | false => exact .pure _
    | true =>
      apply hbody.bind
      intro completion
      cases completion with
      | normal => exact ih
      | returned v => exact .pure _

theorem declareClass_observes (hev : ∀ e, Observes (ev e) (bev e) (ev' e) (bev' e)) (name : Token)
    (superclass : Option (Superclass Hops)) (methods : List BoundFunction) :
    Observes (declareClass ev name superclass methods)
      (Eval.declareClass bev name superclass methods) (declareClass ev' name superclass methods)
      (Eval.declareClass bev' name superclass methods) := by
  cases superclass with
  | none => exact steps.declareClass (fun _ => steps.throw .exhausted) name none methods
  | some s =>
    apply (hev s.expr).bind
    intro v
    exact steps.declareClass (fun _ => steps.pure v) name (some s) methods

theorem executeForm_observes (hturns : settings'.turns = settings.turns)
    (hev : ∀ e, Observes (ev e) (bev e) (ev' e) (bev' e))
    (hex : ∀ s, Observes (ex s) (bex s) (ex' s) (bex' s)) (s : BoundStmt) :
    Observes (executeForm settings ev ex s)
      (Eval.executeForm settings bev bex s)
      (executeForm settings' ev' ex' s)
      (Eval.executeForm settings' bev' bex' s) := by
  cases s with
  | expression line value => exact (hev value).bind fun _ => .pure _
  | print line value =>
    exact (hev value).bind fun v => Observes.bind (steps.print _) fun _ => .pure _
  | var name initializer =>
    have hdefine (v : Value) := Observes.bind (steps.define name.lexeme v) fun _ =>
      .pure Completion.normal
    cases initializer with
    | none => exact hdefine .nil
    | some e => exact (hev e).bind hdefine
  | block line body =>
    exact .inspect (fun _ _ => rfl) (fun _ _ => rfl) fun m =>
      executeBlock_observes hex m.current [] body
  | ifThen line condition thenBranch =>
    apply (hev condition).bind
    intro v
    cases v.isTruthy with
    | true => exact hex thenBranch
    | false => exact .pure _
  | ifElse line condition thenBranch elseBranch =>
    apply (hev condition).bind
    intro v
    cases v.isTruthy with
    | true => exact hex thenBranch
    | false => exact hex elseBranch
  | while_ line condition body =>
    have hloop := loop_observes (hev condition) (hex body) settings.turns
    unfold executeForm Eval.executeForm
    rwa [hturns]
  | function f =>
    exact Observes.bind (steps.newFunction f false) fun g =>
      Observes.bind (steps.define g.name _) fun _ => .pure _
  | return_ keyword value =>
    cases value with
    | none => exact .pure _
    | some e => exact (hev e).bind fun v => .pure _
  | class_ line name superclass methods =>
    exact (declareClass_observes hev name superclass methods).bind fun _ => .pure _

theorem evaluate_execute_observe (settings : Settings) (nesting : Nat) :
    (∀ e, Observes (evaluate (settings.traced false) nesting e)
      (Eval.evaluate (settings.traced false) nesting e)
      (evaluate (settings.traced true) nesting e)
      (Eval.evaluate (settings.traced true) nesting e)) ∧
    ∀ s, Observes (execute (settings.traced false) nesting s)
      (Eval.execute (settings.traced false) nesting s)
      (execute (settings.traced true) nesting s)
      (Eval.execute (settings.traced true) nesting s) := by
  induction nesting with
  | zero => exact ⟨fun e => .throw .exhausted, fun s => .throw .exhausted⟩
  | succ nesting ih =>
    obtain ⟨hev, hex⟩ := ih
    exact ⟨fun e => evaluateForm_observes rfl hev (apply_observes hex) e,
      fun s => (executeForm_observes rfl hev hex s).visit s⟩

theorem executeProgram_observes (settings : Settings) (program : List BoundStmt) :
    Observes (executeProgram (settings.traced false) program)
      (Eval.executeProgram (settings.traced false) program)
      (executeProgram (settings.traced true) program)
      (Eval.executeProgram (settings.traced true) program) := by
  induction program with
  | nil => exact .pure ()
  | cons s program ih =>
    exact ((evaluate_execute_observe settings settings.nesting).2 s).bind fun _ => ih

end Observed
end Lox
