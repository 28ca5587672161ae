import Lox.Proofs.Renumbering

/-! Line numbers do not matter. A program whose lines are numbered anew does on a machine numbered
alike what it did before, and where it raises an error, that has its line numbered alike. -/

namespace Lox

/-- With lines numbered anew, `y` does what `x` does and gives what `g` makes of its result. Where
they end normally, they leave the current environment and the calls in progress as they were. -/
def Follows {α β : Type} (φ : Nat → Nat) (g : α → β) (x : Eval α) (y : Eval β) : Prop :=
  ∀ m, match x m with
    | .ok a m' => y (m.renumber φ) = .ok (g a) (m'.renumber φ) ∧
        m'.current = m.current ∧ m'.callDepth = m.callDepth
    | .error f m' => y (m.renumber φ) = .error (f.renumber φ) (m'.renumber φ)

namespace Follows
variable {φ : Nat → Nat} {α β γ δ : Type} {g : α → β} {k : γ → δ}

theorem pure (a : α) : Follows φ g (Pure.pure a) (Pure.pure (g a)) := fun _ => ⟨rfl, rfl, rfl⟩

theorem bind {x : Eval α} {y : Eval β} {f : α → Eval γ} {f' : β → Eval δ} (h : Follows φ g x y)
    (hf : ∀ a, Follows φ k (f a) (f' (g a))) : Follows φ k (x >>= f) (y >>= f') := by
  intro m
  have hm := h m
  show match EStateM.bind x f m with
    | .ok c m' => EStateM.bind y f' (m.renumber φ) = .ok (k c) (m'.renumber φ) ∧
        m'.current = m.current ∧ m'.callDepth = m.callDepth
    | .error f m' => EStateM.bind y f' (m.renumber φ) = .error (f.renumber φ) (m'.renumber φ)
  unfold EStateM.bind
  cases hx : x m with
  | error f m' =>
    rw [hx] at hm
    rw [hm]
  | ok a m' =>
    rw [hx] at hm
    obtain ⟨hy, hcurrent, hcalls⟩ := hm
    rw [hy]
    have hrest := hf a m'
    dsimp only
    cases hfa : f a m' with
    | error f m'' =>
      rw [hfa] at hrest
      exact hrest
    | ok c m'' =>
      rw [hfa] at hrest
      exact ⟨hrest.1, hrest.2.1.trans hcurrent, hrest.2.2.trans hcalls⟩

theorem get {f : Machine → Eval γ} {f' : Machine → Eval δ}
    (h : ∀ m, Follows φ k (f m) (f' (m.renumber φ))) :
    Follows φ k (MonadState.get >>= f) (MonadState.get >>= f') := fun m => h m m

theorem modifyGet {f : Machine → α × Machine} {f' : Machine → β × Machine}
    (h : ∀ m, f' (m.renumber φ) = (g (f m).1, (f m).2.renumber φ))
    (hkeeps : ∀ m, (f m).2.current = m.current ∧ (f m).2.callDepth = m.callDepth) :
    Follows φ g (MonadState.modifyGet f) (MonadState.modifyGet f') := by
  intro m
  refine ⟨?_, hkeeps m⟩
  show (match f' (m.renumber φ) with | (b, m') => EStateM.Result.ok b m') = _
  rw [h m]

theorem modify {f f' : Machine → Machine} (h : ∀ m, f' (m.renumber φ) = (f m).renumber φ)
    (hkeeps : ∀ m, (f m).current = m.current ∧ (f m).callDepth = m.callDepth) :
    Follows φ (fun u : Unit => u) (modify f) (modify f') := by
  intro m
  exact ⟨congrArg (EStateM.Result.ok ()) (h m), hkeeps m⟩

theorem throw (f : Failure) :
    Follows φ g (throw f) (throw (f.renumber φ)) := fun _ => rfl

end Follows

namespace Eval
variable {φ : Nat → Nat} {α β : Type} {g : α → β}

theorem raise_follows (cause : Cause) (line : Nat) :
    Follows φ g (raise cause line) (raise cause (φ line)) := .throw _

theorem ofOperator_follows (line : Nat) (r : Except Cause α) :
    Follows φ g (ofOperator line r) (ofOperator (φ line) (r.map g)) := by
  cases r with
  | ok a => exact .pure a
  | error cause => exact raise_follows cause line

theorem ofFault_follows (r : Except Fault α) :
    Follows φ g (ofFault r) (ofFault (r.map g)) := by
  cases r with
  | ok a => exact .pure a
  | error f => exact .throw (.fault f)

theorem emit_follows (e : Event) :
    Follows φ (fun u : Unit => u) (emit e) (emit (e.renumber φ)) :=
  .modify (fun _ => rfl) fun _ => ⟨rfl, rfl⟩

theorem readClock_follows : Follows φ (Value.renumber φ) readClock readClock :=
  .modifyGet (fun _ => rfl) fun _ => ⟨rfl, rfl⟩

theorem nextId_follows : Follows φ (fun id : Nat => id) nextId nextId :=
  .modifyGet (fun _ => rfl) fun _ => ⟨rfl, rfl⟩

theorem newEnvironment_follows (enclosing : Nat) (b : Bindings Value) :
    Follows φ (fun e : Nat => e) (newEnvironment enclosing b)
      (newEnvironment enclosing (b.mapValues (Value.renumber φ))) := by
  refine .modifyGet (fun m => ?_) fun _ => ⟨rfl, rfl⟩
  have h := m.environments.create_renumber φ (some enclosing) b
  simp only [Machine.environments_renumber, h]
  rfl

theorem defineIn_follows (e : Nat) (x : String) (v : Value) :
    Follows φ (fun u : Unit => u) (defineIn e x v) (defineIn e x (v.renumber φ)) := by
  refine .modify (fun m => ?_) fun _ => ⟨rfl, rfl⟩
  have h := m.environments.define_renumber φ e x v
  simp only [Machine.environments_renumber, h]
  rfl

theorem define_follows (x : String) (v : Value) :
    Follows φ (fun u : Unit => u) (define x v) (define x (v.renumber φ)) :=
  fun m => defineIn_follows m.current x v m

theorem lookUp_follows (name : Token) (target : Hops) :
    Follows φ (Value.renumber φ) (lookUp name target) (lookUp (name.renumber φ) target) := by
  refine .get fun m => ?_
  cases target with
  | some distance =>
    simp only [Machine.environments_renumber, Machine.current_renumber, Token.lexeme_renumber,
      Environments.getAt_renumber]
    exact ofFault_follows _
  | none =>
    simp only [Machine.environments_renumber, Token.lexeme_renumber, Environments.get?_renumber]
    cases m.environments.get? Machine.globals name.lexeme with
    | some v => exact .pure v
    | none => exact raise_follows _ _

theorem assignFrom_follows (e : Nat) (name : Token) (v : Value) :
    Follows φ (fun u : Unit => u) (assignFrom e name v)
      (assignFrom e (name.renumber φ) (v.renumber φ)) := by
  refine .get fun m => ?_
  simp only [Machine.environments_renumber, Token.lexeme_renumber, Environments.owner?_renumber]
  cases m.environments.owner? name.lexeme e with
  | some owner => exact defineIn_follows owner name.lexeme v
  | none => exact raise_follows _ _

theorem assign_follows (name : Token) (target : Hops) (v : Value) :
    Follows φ (fun u : Unit => u) (assign name target v)
      (assign (name.renumber φ) target (v.renumber φ)) := by
  cases target with
  | none => exact assignFrom_follows Machine.globals name v
  | some distance =>
    refine .get fun m => ?_
    simp only [Machine.environments_renumber, Machine.current_renumber,
      Environments.ancestor_renumber]
    cases m.environments.ancestor m.current distance with
    | ok owner => exact defineIn_follows owner name.lexeme v
    | error f => exact .throw (.fault f)

theorem newInstance_follows (c : Class) :
    Follows φ (Value.renumber φ) (newInstance c) (newInstance (c.map (Closure.renumber φ))) := by
  refine .modifyGet (fun m => ?_) fun _ => ⟨rfl, rfl⟩
  simp [Machine.renumber, Value.renumber, Value.map]

theorem getField?_follows (ref : Nat) (x : String) :
    Follows φ (Option.map (Value.renumber φ)) (getField? ref x) (getField? ref x) := by
  refine .get fun m => ?_
  have h : ((m.renumber φ).objects[ref]?).bind (·.find? x) =
      ((m.objects[ref]?).bind (·.find? x)).map (Value.renumber φ) := by
    simp only [Machine.renumber, Array.getElem?_map]
    cases m.objects[ref]? with
    | none => rfl
    | some b => exact Bindings.find?_mapValues _ b x
  show Follows φ _ _ (Pure.pure _)
  rw [h]
  exact .pure _

theorem setField_follows (ref : Nat) (x : String) (v : Value) :
    Follows φ (fun u : Unit => u) (setField ref x v) (setField ref x (v.renumber φ)) := by
  refine .modify (fun m => ?_) fun _ => ⟨rfl, rfl⟩
  have h : ((m.objects.map (Bindings.mapValues (Value.renumber φ))).modify ref
      (·.put x (v.renumber φ))) =
      (m.objects.modify ref (·.put x v)).map (Bindings.mapValues (Value.renumber φ)) := by
    apply Array.ext_getElem?
    intro i
    simp only [Array.getElem?_modify, Array.getElem?_map]
    split
    · cases m.objects[i]? with
      | none => rfl
      | some b => exact congrArg some (Bindings.put_mapValues _ b x v)
    · rfl
  simp only [Machine.renumber, h]

theorem bindMethod_follows (f : Closure) (receiver : Value) :
    Follows φ (Closure.renumber φ) (bindMethod f receiver)
      (bindMethod (f.renumber φ) (receiver.renumber φ)) :=
  .bind (newEnvironment_follows f.environment [("this", receiver)]) fun _ =>
    .bind nextId_follows fun _ => .pure _

theorem inEnvironment_follows (e : Nat) {x : Eval α} {y : Eval β} (h : Follows φ g x y) :
    Follows φ g (inEnvironment e x) (inEnvironment e y) := by
  unfold Follows inEnvironment
  intro m
  have hm := h { m with current := e }
  cases hx : x { m with current := e } with
  | ok a m' =>
    rw [hx] at hm
    obtain ⟨hy, -, hcalls⟩ := hm
    simp only [Machine.renumber] at hy ⊢
    rw [hy]
    exact ⟨rfl, trivial, hcalls⟩
  | error f m' =>
    rw [hx] at hm
    simp only [Machine.renumber] at hm ⊢
    rw [hm]

theorem inCall_follows (line : Nat) {x : Eval α} {y : Eval β} (h : Follows φ g x y) :
    Follows φ g (inCall line x) (inCall (φ line) y) := by
  unfold Follows inCall
  intro m
  have hm := h { m with callDepth := m.callDepth + 1 }
  cases hx : x { m with callDepth := m.callDepth + 1 } with
  | ok a m' =>
    rw [hx] at hm
    obtain ⟨hy, hcurrent, hcalls⟩ := hm
    simp only [Machine.renumber] at hy ⊢
    rw [hy]
    exact ⟨rfl, hcurrent, congrArg (· - 1) hcalls⟩
  | error f m' =>
    rw [hx] at hm
    simp only [Machine.renumber] at hm ⊢
    rw [hm]
    cases f <;> rfl

section
variable (φ : Nat → Nat) (settings : Settings) {ev ev' : BoundExpr → Eval Value}
  {ex ex' : BoundStmt → Eval Completion} {enter enter' : Closure → List Value → Eval Value}

def EvaluateFollow (ev ev' : BoundExpr → Eval Value) : Prop :=
  ∀ e, Follows φ (Value.renumber φ) (ev e) (ev' (e.renumber φ))

def ExecuteFollow (ex ex' : BoundStmt → Eval Completion) : Prop :=
  ∀ s, Follows φ (Completion.renumber φ) (ex s) (ex' (s.renumber φ))

def EnterFollow (enter enter' : Closure → List Value → Eval Value) : Prop :=
  ∀ f arguments, Follows φ (Value.renumber φ) (enter f arguments)
    (enter' (f.renumber φ) (arguments.map (Value.renumber φ)))

variable {φ}

theorem evaluateAll_follows (hev : EvaluateFollow φ ev ev') (es : List BoundExpr) :
    Follows φ (List.map (Value.renumber φ)) (evaluateAll ev es)
      (evaluateAll ev' (Expr.renumberList φ es)) := by
  induction es with
  | nil => exact .pure []
  | cons e es ih => exact (hev e).bind fun v => ih.bind fun vs => .pure (v :: vs)

theorem executeAll_follows (hex : ExecuteFollow φ ex ex') (ss : List BoundStmt) :
    Follows φ (Completion.renumber φ) (executeAll ex ss)
      (executeAll ex' (Stmt.renumberList φ ss)) := by
  induction ss with
  | nil => exact .pure Completion.normal
  | cons s ss ih =>
    refine (hex s).bind fun c => ?_
    cases c with
    | normal => exact ih
    | returned v => exact .pure (Completion.returned v)

theorem executeBlock_follows (hex : ExecuteFollow φ ex ex') (enclosing : Nat) (b : Bindings Value)
    (body : List BoundStmt) :
    Follows φ (Completion.renumber φ) (executeBlock ex enclosing b body)
      (executeBlock ex' enclosing (b.mapValues (Value.renumber φ))
        (Stmt.renumberList φ body)) :=
  (newEnvironment_follows enclosing b).bind fun e =>
    inEnvironment_follows e (executeAll_follows hex body)

theorem apply_follows (hex : ExecuteFollow φ ex ex') : EnterFollow φ (apply ex) (apply ex') := by
  intro f arguments
  obtain ⟨id, ⟨name, parameters, body⟩, environment, isInitializer⟩ := f
  have hbindings : (Bindings.ofPairs
      (((parameters.map (Token.renumber φ)).map Token.lexeme).zip
        (arguments.map (Value.renumber φ)))) =
      (Bindings.ofPairs ((parameters.map Token.lexeme).zip arguments)).mapValues
        (Value.renumber φ) := by
    rw [← Bindings.ofPairs_map, List.map_map, List.zip_map_right]
    rfl
  have hblock := executeBlock_follows hex environment
    (.ofPairs ((parameters.map Token.lexeme).zip arguments)) body
  rw [← hbindings] at hblock
  refine hblock.bind fun c => ?_
  cases isInitializer with
  | true =>
    refine .get fun m => ?_
    simp only [Machine.environments_renumber, Environments.getAt_renumber]
    exact ofFault_follows _
  | false =>
    cases c with
    | normal => exact .pure (Value.nil : Value)
    | returned v => exact .pure v

theorem callValue_follows (hen : EnterFollow φ enter enter') (callee : Value)
    (arguments : List Value) :
    Follows φ (Value.renumber φ) (callValue enter callee arguments)
      (callValue enter' (callee.renumber φ) (arguments.map (Value.renumber φ))) := by
  cases callee with
  | native f =>
    cases f
    exact readClock_follows
  | function f => exact hen f arguments
  | class_ c =>
    refine (newInstance_follows c).bind fun receiver => ?_
    simp only [Class.initializer, Class.findMethod_map]
    cases c.findMethod Function.initializerName with
    | none => exact .pure receiver
    | some f =>
      refine (bindMethod_follows f receiver).bind fun f' => ?_
      exact (hen f' arguments).bind fun _ => .pure receiver
  | _ => exact .pure (Value.nil : Value)

theorem call_follows (hen : EnterFollow φ enter enter') (callee : Value) (arguments : List Value)
    (line : Nat) :
    Follows φ (Value.renumber φ) (call settings enter callee arguments line)
      (call settings enter' (callee.renumber φ) (arguments.map (Value.renumber φ)) (φ line)) := by
  unfold call
  rw [Value.arity?_map _ _ (Closure.arity_renumber φ)]
  cases callee.arity? with
  | none => exact raise_follows _ _
  | some expected =>
    simp only [List.length_map]
    by_cases hn : arguments.length ≠ expected
    · simp only [if_pos hn]
      exact raise_follows _ _
    · simp only [if_neg hn]
      refine .get fun m => ?_
      rw [Machine.callDepth_renumber]
      by_cases hd : settings.calls ≤ m.callDepth
      · simp only [if_pos hd]
        exact raise_follows _ _
      · simp only [if_neg hd]
        exact inCall_follows line (callValue_follows hen callee arguments)

theorem getProperty_follows (object : Value) (name : Token) :
    Follows φ (Value.renumber φ) (getProperty object name)
      (getProperty (object.renumber φ) (name.renumber φ)) := by
  cases object with
  | object ref c =>
    refine (getField?_follows ref name.lexeme).bind fun v? => ?_
    cases v? with
    | some v => exact .pure v
    | none =>
      simp only [Option.map_none, Class.findMethod_map, Token.lexeme_renumber]
      cases c.findMethod name.lexeme with
      | none => exact raise_follows _ _
      | some f =>
        exact (bindMethod_follows f (.object ref c)).bind fun f' => .pure (Value.function f')
  | _ => exact raise_follows _ _

theorem superMethod_follows (keyword : Token) (target : Hops) (method : Token) :
    Follows φ (Value.renumber φ) (superMethod keyword target method)
      (superMethod (keyword.renumber φ) target (method.renumber φ)) := by
  cases target with
  | none => exact .throw (.fault (.unresolved keyword.lexeme))
  | some distance =>
    refine .get fun m => ?_
    simp only [Machine.environments_renumber, Machine.current_renumber,
      Environments.getAt_renumber]
    refine (ofFault_follows _).bind fun superclass => ?_
    refine (ofFault_follows _).bind fun receiver => ?_
    cases superclass with
    | class_ c =>
      simp only [Value.map, Class.findMethod_map, Token.lexeme_renumber]
      cases c.findMethod method.lexeme with
      | none => exact raise_follows _ _
      | some f => exact (bindMethod_follows f receiver).bind fun f' => .pure (Value.function f')
    | _ => exact .throw (.fault .notClass)

theorem evaluateForm_follows (hev : EvaluateFollow φ ev ev') (hen : EnterFollow φ enter enter') :
    EvaluateFollow φ (evaluateForm settings ev enter) (evaluateForm settings ev' enter') := by
  intro e
  cases e with
  | literal line l =>
    cases l <;> exact .pure _
  | grouping line inner => exact hev inner
  | unary operator right =>
    refine (hev right).bind fun v => ?_
    simp only [Token.kind_renumber, Token.lexeme_renumber, Value.unary_map]
    exact ofOperator_follows operator.line _
  | binary left operator right =>
    refine (hev left).bind fun v => (hev right).bind fun w => ?_
    have h := Value.binary_map (Closure.renumber φ) v w fun f => rfl
    simp only [Token.kind_renumber, Token.lexeme_renumber, h]
    exact ofOperator_follows operator.line _
  | logical left operator right =>
    refine (hev left).bind fun v => ?_
    simp only [Token.kind_renumber, Value.decides_map]
    split
    · exact .pure v
    · exact hev right
  | read name target => exact lookUp_follows name target
  | assign line name target value =>
    exact (hev value).bind fun v => (assign_follows name target v).bind fun _ => .pure v
  | call callee paren arguments =>
    refine (hev callee).bind fun v => (evaluateAll_follows hev arguments).bind fun vs => ?_
    exact call_follows settings hen v vs paren.line
  | get object name => exact (hev object).bind fun v => getProperty_follows v name
  | set line object name value =>
    refine (hev object).bind fun o => ?_
    cases o with
    | object ref c =>
      exact (hev value).bind fun v => (setField_follows ref name.lexeme v).bind fun _ => .pure v
    | _ => exact raise_follows _ _
  | this keyword target => exact lookUp_follows keyword target
  | super keyword target method => exact superMethod_follows keyword target method

theorem loop_follows {test test' : Eval Value} {body body' : Eval Completion}
    (htest : Follows φ (Value.renumber φ) test test')
    (hbody : Follows φ (Completion.renumber φ) body body') (turns : Nat) :
    Follows φ (Completion.renumber φ) (loop test body turns) (loop test' body' turns) := by
  induction turns with
  | zero => exact .throw .outOfTurns
  | succ turns ih =>
    refine htest.bind fun v => ?_
    simp only [Value.isTruthy_map]
    split
    · refine hbody.bind fun c => ?_
      cases c with
      | normal => exact ih
      | returned v => exact .pure (Completion.returned v)
    · exact .pure Completion.normal

theorem newFunction_follows (f : BoundFunction) (isInitializer : Bool) :
    Follows φ (Closure.renumber φ) (newFunction f isInitializer)
      (newFunction (Stmt.renumberFunction φ f) isInitializer) :=
  nextId_follows.bind fun _ => .get fun _ => .pure _

theorem newMethods_follows (fs : List BoundFunction) (methods : Bindings Closure) :
    Follows φ (Bindings.mapValues (Closure.renumber φ)) (newMethods fs methods)
      (newMethods (Stmt.renumberFunctions φ fs) (methods.mapValues (Closure.renumber φ))) := by
  induction fs generalizing methods with
  | nil => exact .pure methods
  | cons f fs ih =>
    have hname : (Stmt.renumberFunction φ f).name.lexeme = f.name.lexeme := by
      cases f
      rfl
    simp only [Stmt.renumberFunctions, newMethods, f.isInitializer_renumber, hname]
    refine (newFunction_follows f f.isInitializer).bind fun method => ?_
    rw [Bindings.put_mapValues]
    exact ih (methods.put f.name.lexeme method)

theorem declareClass_follows (hev : EvaluateFollow φ ev ev') (name : Token)
    (superclass : Option (Superclass Hops)) (methods : List BoundFunction) :
    Follows φ (fun u : Unit => u) (declareClass ev name superclass methods)
      (declareClass ev' (name.renumber φ) (superclass.map (Superclass.renumber φ))
        (Stmt.renumberFunctions φ methods)) := by
  have hcreate : Follows φ _ (newMethods methods []) _ := newMethods_follows methods []
  have hdefine : Follows φ _ (define name.lexeme .nil) _ := define_follows name.lexeme .nil
  cases superclass with
  | none =>
    refine hdefine.bind fun _ => hcreate.bind fun methods => nextId_follows.bind fun id => ?_
    exact .get fun m => assignFrom_follows m.current name (.class_ (.root id name.lexeme methods))
  | some s =>
    refine (hev s.expr).bind fun v => ?_
    cases v with
    | class_ c =>
      refine hdefine.bind fun _ => .get fun m => ?_
      refine (newEnvironment_follows m.current [("super", .class_ c)]).bind fun e => ?_
      refine (inEnvironment_follows e hcreate).bind fun methods => nextId_follows.bind fun id => ?_
      exact .get fun m =>
        assignFrom_follows m.current name (.class_ (.derived id name.lexeme methods c))
    | _ => exact raise_follows _ _

theorem executeForm_follows (hev : EvaluateFollow φ ev ev') (hex : ExecuteFollow φ ex ex') :
    ExecuteFollow φ (executeForm settings ev ex) (executeForm settings ev' ex') := by
  intro s
  cases s with
  | expression line value => exact (hev value).bind fun _ => .pure Completion.normal
  | print line value =>
    refine (hev value).bind fun v => ?_
    rw [Value.text_map _ _ (Closure.name_renumber φ)]
    exact (emit_follows (.printed v.text)).bind fun _ => .pure Completion.normal
  | var name initializer =>
    have hdefine (v : Value) : Follows φ (Completion.renumber φ)
        (define name.lexeme v >>= fun _ => pure .normal)
        (define name.lexeme (v.renumber φ) >>= fun _ => pure .normal) :=
      (define_follows name.lexeme v).bind fun _ => .pure Completion.normal
    cases initializer with
    | none => exact hdefine .nil
    | some e => exact (hev e).bind hdefine
  | block line body => exact .get fun m => executeBlock_follows hex m.current [] body
  | ifThen line condition thenBranch =>
    refine (hev condition).bind fun v => ?_
    simp only [Value.isTruthy_map]
    split
    · exact hex thenBranch
    · exact .pure Completion.normal
  | ifElse line condition thenBranch elseBranch =>
    refine (hev condition).bind fun v => ?_
    simp only [Value.isTruthy_map]
    split
    · exact hex thenBranch
    · exact hex elseBranch
  | while_ line condition body => exact loop_follows (hev condition) (hex body) settings.turns
  | function f =>
    refine (newFunction_follows f false).bind fun c => ?_
    rw [Closure.name_renumber]
    exact (define_follows c.name (.function c)).bind fun _ => .pure Completion.normal
  | return_ keyword value =>
    cases value with
    | none => exact .pure (Completion.returned .nil)
    | some e => exact (hev e).bind fun v => .pure (Completion.returned v)
  | class_ line name superclass methods =>
    exact (declareClass_follows hev name superclass methods).bind
      fun _ => .pure Completion.normal

variable (φ)

/-- However deep it lies, what is evaluated or executed does the same under other line numbers. -/
theorem evaluate_execute_follow (nesting : Nat) :
    EvaluateFollow φ (evaluate settings nesting) (evaluate settings nesting) ∧
      ExecuteFollow φ (execute settings nesting) (execute settings nesting) := by
  induction nesting with
  | zero => exact ⟨fun e => .throw .exhausted, fun s => .throw .exhausted⟩
  | succ nesting ih =>
    obtain ⟨hev, hex⟩ := ih
    refine ⟨evaluateForm_follows settings hev (apply_follows hex), fun s => ?_⟩
    have hform := executeForm_follows settings hev hex s
    simp only [execute]
    split
    · rw [Stmt.line_renumber, Stmt.kind_renumber]
      exact (emit_follows (.traced s.line s.kind)).bind fun _ => hform
    · exact hform

theorem executeProgram_follows (ss : List BoundStmt) :
    Follows φ (fun u : Unit => u) (executeProgram settings ss)
      (executeProgram settings (Stmt.renumberList φ ss)) := by
  induction ss with
  | nil => exact .pure ()
  | cons s ss ih =>
    exact ((evaluate_execute_follow φ settings settings.nesting).2 s).bind fun _ => ih

end
end Eval
end Lox
