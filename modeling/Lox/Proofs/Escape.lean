import Lox.Proofs.Parallel

/-! Returns by escape. Here a return is thrown: past the statements, conditions and loops that it
lies in, all of which only ever go on, it gets to the call that the activation stems from. Programs
run as they do where each statement hands on what became of the ones inside it. -/

namespace Lox

/-- How a statement is left before its end. -/
inductive Exit
  | failed (f : Failure)
  | returned (value : Value)

abbrev Escaping := EStateM Exit Machine

namespace Escaping

/-- A step from which nothing returns. -/
def step {α : Type} (act : Eval α) : Escaping α := fun m =>
  match act m with
  | .ok a m' => .ok a m'
  | .error f m' => .error (.failed f) m'

/-- The whole of an activation. A return that was thrown in it ends here. -/
def activation (act : Escaping Unit) : Eval Completion := fun m =>
  match act m with
  | .ok _ m' => .ok .normal m'
  | .error (.returned value) m' => .ok (.returned value) m'
  | .error (.failed f) m' => .error f m'

def inEnvironment (e : Nat) (act : Escaping Unit) : Escaping Unit := fun m =>
  match act { m with current := e } with
  | .ok a m' => .ok a { m' with current := m.current }
  | .error exit m' => .error exit { m' with current := m.current }

def executeAll (ex : BoundStmt → Escaping Unit) : List BoundStmt → Escaping Unit
  | [] => return ()
  | s :: ss => do
    ex s
    executeAll ex ss

def executeBlock (ex : BoundStmt → Escaping Unit) (enclosing : Nat) (bindings : Bindings Value)
    (body : List BoundStmt) : Escaping Unit := do
  let e ← step (Eval.newEnvironment enclosing bindings)
  inEnvironment e (executeAll ex body)

def loop (test : Eval Value) (body : Escaping Unit) : (turns : Nat) → Escaping Unit
  | 0 => throw (.failed .outOfTurns)
  | turns + 1 => do
    if (← step test).isTruthy then
      body
      loop test body turns
    else return ()

def apply (ex : BoundStmt → Escaping Unit) (f : Closure) (arguments : List Value) :
    Eval Value := do
  let names := f.declaration.parameters.map Token.lexeme
  let completion ← activation
    (executeBlock ex f.environment (.ofPairs (names.zip arguments)) f.declaration.body)
  if f.isInitializer then
    Eval.ofFault ((← get).environments.getAt f.environment 0 "this")
  else
    match completion with
    | .normal => return .nil
    | .returned value => return value

/-- A statement without statements inside it does what it does. -/
def executeForm (settings : Settings) (ev : BoundExpr → Eval Value)
    (ex : BoundStmt → Escaping Unit) : BoundStmt → Escaping Unit
  | .block _ body => do executeBlock ex (← get).current [] body
  | .ifThen _ condition thenBranch => do
    if (← step (ev condition)).isTruthy then ex thenBranch else return ()
  | .ifElse _ condition thenBranch elseBranch => do
    if (← step (ev condition)).isTruthy then ex thenBranch else ex elseBranch
  | .while_ _ condition body => loop (ev condition) (ex body) settings.turns
  | .return_ _ value => do
    match value with
    | some e => throw (.returned (← step (ev e)))
    | none => throw (.returned .nil)
  | s => do
    let _ ← step (Eval.executeForm settings ev (fun _ => return .normal) s)
    return ()

mutual

def evaluate (settings : Settings) : (nesting : Nat) → BoundExpr → Eval Value
  | 0, _ => throw .exhausted
  | nesting + 1, e =>
    Eval.evaluateForm settings (evaluate settings nesting) (apply (execute settings nesting)) e

def execute (settings : Settings) : (nesting : Nat) → BoundStmt → Escaping Unit
  | 0, _ => throw (.failed .exhausted)
  | nesting + 1, s => do
    if settings.trace then step (Eval.emit (.traced s.line s.kind))
    executeForm settings (evaluate settings nesting) (execute settings nesting) s

end

def executeProgram (settings : Settings) : List BoundStmt → Eval Unit
  | [] => return ()
  | s :: ss => do
    let _ ← activation (execute settings settings.nesting s)
    executeProgram settings ss

section
variable {α : Type}

theorem activation_pure : activation (return ()) = (return .normal : Eval Completion) := rfl

theorem activation_step (act : Eval α) (k : α → Escaping Unit) :
    activation (step act >>= k) = act >>= fun a => activation (k a) := by
  funext m
  show activation (EStateM.bind (step act) k) m = EStateM.bind act (fun a => activation (k a)) m
  unfold activation EStateM.bind step
  cases act m <;> rfl

/-- What comes after a statement is only reached if the statement does not return. -/
theorem activation_bind (x y : Escaping Unit) :
    activation (x >>= fun _ => y) = activation x >>= fun completion =>
      match completion with
      | .normal => activation y
      | .returned value => return .returned value := by
  funext m
  show activation (EStateM.bind x fun _ => y) m = EStateM.bind (activation x) _ m
  unfold activation EStateM.bind
  dsimp only
  cases x m with
  | ok a m' => rfl
  | error exit m' => cases exit <;> rfl

theorem activation_inEnvironment (e : Nat) (act : Escaping Unit) :
    activation (inEnvironment e act) = Eval.inEnvironment e (activation act) := by
  funext m
  unfold activation inEnvironment Eval.inEnvironment
  dsimp only
  cases act { m with current := e } with
  | ok a m' => rfl
  | error exit m' => cases exit <;> rfl

theorem activation_get (k : Machine → Escaping Unit) :
    activation (get >>= k) = get >>= fun m => activation (k m) := rfl

end

section
variable {ex : BoundStmt → Escaping Unit} {ex' : BoundStmt → Eval Completion}
  (h : ∀ s, activation (ex s) = ex' s)
include h

theorem activation_executeAll (ss : List BoundStmt) :
    activation (executeAll ex ss) = Eval.executeAll ex' ss := by
  induction ss with
  | nil => rfl
  | cons s ss ih =>
    rw [executeAll, activation_bind, h, ih]
    rfl

theorem activation_executeBlock (enclosing : Nat) (bindings : Bindings Value)
    (body : List BoundStmt) :
    activation (executeBlock ex enclosing bindings body) =
      Eval.executeBlock ex' enclosing bindings body := by
  unfold executeBlock Eval.executeBlock
  rw [activation_step]
  simp only [activation_inEnvironment, activation_executeAll h]

theorem apply_eq (f : Closure) (arguments : List Value) :
    apply ex f arguments = Eval.apply ex' f arguments := by
  unfold apply
  simp only [activation_executeBlock h]
  rfl

omit h in
theorem activation_loop (test : Eval Value) (body : Escaping Unit) (turns : Nat) :
    activation (loop test body turns) = Eval.loop test (activation body) turns := by
  induction turns with
  | zero => rfl
  | succ turns ih =>
    rw [loop, activation_step, Eval.loop]
    congr 1
    funext value
    split
    · rw [← ih]
      exact activation_bind body (loop test body turns)
    · rfl

theorem activation_executeForm (settings : Settings) (ev : BoundExpr → Eval Value)
    (s : BoundStmt) :
    activation (executeForm settings ev ex s) = Eval.executeForm settings ev ex' s := by
  cases s with
  | block line body =>
    show activation (get >>= _) = _
    rw [activation_get]
    simp only [activation_executeBlock h]
    rfl
  | ifThen line condition thenBranch =>
    rw [executeForm, activation_step, Eval.executeForm]
    congr 1
    funext value
    split
    · exact h thenBranch
    · rfl
  | ifElse line condition thenBranch elseBranch =>
    rw [executeForm, activation_step, Eval.executeForm]
    congr 1
    funext value
    split
    · exact h thenBranch
    · exact h elseBranch
  | while_ line condition body =>
    rw [executeForm, activation_loop, h]
    rfl
  | return_ keyword value =>
    cases value with
    | none => rfl
    | some e => exact activation_step (ev e) _
  -- the other forms have no statement in them that could return
  | var name initializer =>
    rw [executeForm, activation_step]
    · cases initializer <;> simp only [Eval.executeForm, bind_assoc, pure_bind, activation_pure]
    all_goals simp
  | _ =>
    rw [executeForm, activation_step]
    · simp only [Eval.executeForm, bind_assoc, pure_bind, activation_pure]
    all_goals simp

end

theorem evaluate_execute_eq (settings : Settings) (nesting : Nat) :
    evaluate settings nesting = Eval.evaluate settings nesting ∧
      ∀ s, activation (execute settings nesting s) = Eval.execute settings nesting s := by
  induction nesting with
  | zero => exact ⟨rfl, fun _ => rfl⟩
  | succ nesting ih =>
    obtain ⟨hev, hex⟩ := ih
    have happly : apply (execute settings nesting) =
        Eval.apply (Eval.execute settings nesting) := by
      funext f arguments
      exact apply_eq hex f arguments
    constructor
    · funext e
      rw [evaluate, hev, happly, Eval.evaluate]
    · intro s
      have hform := activation_executeForm hex settings (evaluate settings nesting) s
      rw [execute, Eval.execute, ← hev, ← hform]
      split
      · rw [activation_step]
      · rfl

theorem executeProgram_eq (settings : Settings) (ss : List BoundStmt) :
    executeProgram settings ss = Eval.executeProgram settings ss := by
  induction ss with
  | nil => rfl
  | cons s ss ih =>
    rw [executeProgram, (evaluate_execute_eq settings settings.nesting).2, ih]
    rfl

end Escaping
end Lox
