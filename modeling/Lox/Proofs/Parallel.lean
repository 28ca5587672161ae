import Lox.Proofs.Correspondence
import Lox.Proofs.Lockstep

/-! Runs in parallel. Two machines are kept in a common state while one program runs on the left and
another one on the right; values that are alike stay so. What the forms of the language do with
their parts is the same on both sides, so a form runs in parallel wherever its parts do. -/

namespace Lox

/-- The states that two machines can be in together, and when functions and methods on the two
sides are alike. The run on the left may be told what is to come. -/
structure Parallel where
  State : Type
  left : State → Machine
  right : State → Machine
  Later : State → State → Prop
  later_refl (s : State) : Later s s
  later_trans {s t u : State} : Later s t → Later t u → Later s u
  Told : Type
  /-- What has been told is right so far. -/
  Confirms : State → Told → Prop
  confirms_later {s t : State} {w : Told} : Later s t → Confirms t w → Confirms s w
  Fails : Failure → Failure → Prop
  fails_refl (f : Failure) : Fails f f
  Function : State → Closure → Closure → Prop
  Method : State → Closure → Closure → Prop
  function_later {s t : State} {f g : Closure} : Later s t → Function s f g → Function t f g
  method_later {s t : State} {f g : Closure} : Later s t → Method s f g → Method t f g
  id_eq {s : State} {f g : Closure} : Function s f g → f.id = g.id
  name_eq {s : State} {f g : Closure} : Function s f g → f.name = g.name
  arity_eq {s : State} {f g : Closure} : Function s f g → f.arity = g.arity
  methodArity_eq {s : State} {f g : Closure} : Method s f g → f.arity = g.arity

namespace Eval

/-- A property, with methods bound as `bind` says. -/
def getPropertyBy (bind : Closure → Value → Eval Closure) (object : Value) (name : Token) :
    Eval Value := do
  match object with
  | .object ref c =>
    match ← getField? ref name.lexeme with
    | some value => return value
    | none =>
      match c.findMethod name.lexeme with
      | some f => return .function (← bind f object)
      | none => raise (.undefinedProperty name.lexeme) name.line
  | _ => raise .propertyOfNonInstance name.line

def callValueBy (bind : Closure → Value → Eval Closure) (enter : Closure → List Value → Eval Value)
    (callee : Value) (arguments : List Value) : Eval Value := do
  match callee with
  | .class_ c =>
    let receiver ← newInstance c
    match c.initializer with
    | some f =>
      let _ ← enter (← bind f receiver) arguments
      return receiver
    | none => return receiver
  | _ => callValue enter callee arguments

def callBy (settings : Settings) (bind : Closure → Value → Eval Closure)
    (enter : Closure → List Value → Eval Value) (callee : Value) (arguments : List Value)
    (line : Nat) : Eval Value := do
  match callee.arity? with
  | none => raise .notCallable line
  | some expected =>
    if arguments.length ≠ expected then raise (.wrongArity expected arguments.length) line
    else if settings.calls ≤ (← get).callDepth then raise .tooManyCalls line
    else inCall line (callValueBy bind enter callee arguments)

/-- Runs between a way in and a way out, which is taken however the run ends. -/
def within {α : Type} (enter : Machine → Machine) (leave : Machine → Machine → Machine)
    (convert : Failure → Failure) (act : Eval α) : Eval α := fun m =>
  match act (enter m) with
  | .ok a m' => .ok a (leave m m')
  | .error f m' => .error (convert f) (leave m m')

theorem inEnvironment_eq {α : Type} (e : Nat) (act : Eval α) :
    inEnvironment e act = within ({ · with current := e })
      (fun m m' => { m' with current := m.current }) (fun f => f) act := rfl

/-- What a call makes of a failure. -/
def blamed (line : Nat) : Failure → Failure
  | .exhausted => .runtime ⟨.tooDeeplyNested, some line⟩
  | f => f

theorem inCall_eq {α : Type} (line : Nat) (act : Eval α) :
    inCall line act = within (fun m => { m with callDepth := m.callDepth + 1 })
      (fun _ m' => { m' with callDepth := m'.callDepth - 1 }) (blamed line) act := by
  funext m
  unfold inCall within
  cases act { m with callDepth := m.callDepth + 1 } with
  | ok a m' => rfl
  | error f m' => cases f <;> rfl

theorem callBy_bindMethod (settings : Settings) (enter : Closure → List Value → Eval Value)
    (callee : Value) (arguments : List Value) (line : Nat) :
    callBy settings bindMethod enter callee arguments line =
      call settings enter callee arguments line := by
  have h : callValueBy bindMethod enter callee arguments = callValue enter callee arguments := by
    cases callee <;> rfl
  unfold callBy call
  cases callee.arity? with
  | none => rfl
  | some expected => simp only [h]

end Eval

namespace Parallel
variable {P : Parallel} {s t : P.State} {α α' β β' : Type}

def Alike (s : P.State) : Value → Value → Prop := Value.Rel (P.Function s) (P.Method s)

theorem Alike.later {v w : Value} (h : Alike s v w) (ht : P.Later s t) : Alike t v w :=
  Value.Rel.mono h (fun _ _ => P.function_later ht) fun _ _ => P.method_later ht

theorem Alike.text_eq {v w : Value} (h : Alike s v w) : v.text = w.text := by
  unfold Alike Value.Rel at h
  split at h
  · rfl
  · rw [h]
  · rw [h]
  · rw [h]
  · rfl
  · show "<fn " ++ _ ++ ">" = "<fn " ++ _ ++ ">"
    rw [P.name_eq h]
  · exact h.name_eq
  · exact congrArg (· ++ " instance") h.2.name_eq
  · exact h.elim

theorem Alike.arity?_eq {v w : Value} (h : Alike s v w) : v.arity? = w.arity? := by
  have hclass {c d : Class} (h : c.Rel (P.Method s) d) : c.arity = d.arity := by
    unfold Class.arity Class.initializer
    rcases h.findMethod Function.initializerName with ⟨hc, hd⟩ | ⟨f, g, hc, hd, hfg⟩
    · rw [hc, hd]
    · rw [hc, hd]
      exact P.methodArity_eq hfg
  unfold Alike Value.Rel at h
  split at h
  · rfl
  · rfl
  · rfl
  · rfl
  · rw [h]
  · exact congrArg some (P.arity_eq h)
  · exact congrArg some (hclass h)
  · rfl
  · exact h.elim

/-- Told the truth about what is to come, `x` ends on the left as `y` does on the right. -/
def Runs (s : P.State) (x : P.Told → Eval α) (y : Eval β) (Q : P.State → α → β → Prop) : Prop :=
  ∃ t, P.Later s t ∧
    ((∃ a b, Q t a b ∧ y (P.right s) = .ok b (P.right t) ∧
        ∀ w, P.Confirms t w → x w (P.left s) = .ok a (P.left t)) ∨
      ∃ f g, P.Fails f g ∧ y (P.right s) = .error g (P.right t) ∧
        ∀ w, P.Confirms t w → x w (P.left s) = .error f (P.left t))

section
variable {x : P.Told → Eval α} {y : Eval β} {Q Q' : P.State → α → β → Prop}

theorem Runs.mono (h : Runs s x y Q) (hQ : ∀ t a b, P.Later s t → Q t a b → Q' t a b) :
    Runs s x y Q' := by
  obtain ⟨t, ht, ⟨a, b, hq, h⟩ | h⟩ := h
  · exact ⟨t, ht, .inl ⟨a, b, hQ t a b ht hq, h⟩⟩
  · exact ⟨t, ht, .inr h⟩

theorem Runs.and_ok {R : β → Prop} (h : Runs s x y Q)
    (hy : ∀ b m, y (P.right s) = .ok b m → R b) : Runs s x y fun t a b => Q t a b ∧ R b := by
  obtain ⟨t, ht, ⟨a, b, hq, h⟩ | h⟩ := h
  · exact ⟨t, ht, .inl ⟨a, b, ⟨hq, hy b _ h.1⟩, h⟩⟩
  · exact ⟨t, ht, .inr h⟩

theorem Runs.pure {a : α} {b : β} (h : Q s a b) : Runs s (fun _ => Pure.pure a) (Pure.pure b) Q :=
  ⟨s, P.later_refl s, .inl ⟨a, b, h, rfl, fun _ _ => rfl⟩⟩

theorem Runs.throw (f : Failure) :
    Runs s (fun _ => (throw f : Eval α)) (throw f : Eval β) Q :=
  ⟨s, P.later_refl s, .inr ⟨f, f, P.fails_refl f, rfl, fun _ _ => rfl⟩⟩

theorem Runs.get {f : P.Told → Machine → Eval α} {g : Machine → Eval β}
    (h : Runs s (fun w => f w (P.left s)) (g (P.right s)) Q) :
    Runs s (fun w => MonadState.get >>= f w) (MonadState.get >>= g) Q := h

theorem Runs.bind {f : P.Told → α → Eval α'} {g : β → Eval β'} {R : P.State → α' → β' → Prop}
    (h : Runs s x y Q)
    (hf : ∀ t a b, P.Later s t → Q t a b → Runs t (fun w => f w a) (g b) R) :
    Runs s (fun w => x w >>= f w) (y >>= g) R := by
  obtain ⟨t, ht, ⟨a, b, hq, hy, hx⟩ | ⟨e, e', he, hy, hx⟩⟩ := h
  · obtain ⟨u, hu, hend⟩ := hf t a b ht hq
    have hfirst (w : P.Told) (hw : P.Confirms u w) := hx w (P.confirms_later hu hw)
    refine ⟨u, P.later_trans ht hu, ?_⟩
    rcases hend with ⟨a', b', hr, hg, hf⟩ | ⟨e, e', he, hg, hf⟩
    · exact .inl ⟨a', b', hr, (Eval.bind_ok hy g).trans hg, fun w hw =>
        (Eval.bind_ok (hfirst w hw) _).trans (hf w hw)⟩
    · exact .inr ⟨e, e', he, (Eval.bind_ok hy g).trans hg, fun w hw =>
        (Eval.bind_ok (hfirst w hw) _).trans (hf w hw)⟩
  · exact ⟨t, ht, .inr ⟨e, e', he, Eval.bind_error hy g, fun w hw => Eval.bind_error (hx w hw) _⟩⟩

end

/-- What is told does not matter where it is right. -/
theorem Runs.congr {x z : P.Told → Eval α} {y : Eval β} {Q : P.State → α → β → Prop}
    (h : Runs s z y Q) (hx : ∀ told, P.Confirms s told → x told (P.left s) = z told (P.left s)) :
    Runs s x y Q := by
  obtain ⟨t, ht, ⟨a, b, hq, hy, h⟩ | ⟨f, g, hf, hy, h⟩⟩ := h
  · exact ⟨t, ht, .inl ⟨a, b, hq, hy, fun told htold =>
      (hx told (P.confirms_later ht htold)).trans (h told htold)⟩⟩
  · exact ⟨t, ht, .inr ⟨f, g, hf, hy, fun told htold =>
      (hx told (P.confirms_later ht htold)).trans (h told htold)⟩⟩

theorem Runs.within {s' : P.State} {x : P.Told → Eval α} {y : Eval β}
    {Q Q' : P.State → α → β → Prop} {enter enter' : Machine → Machine}
    {leave leave' : Machine → Machine → Machine} {convert : Failure → Failure} (h : Runs s' x y Q)
    (hleft : P.left s' = enter (P.left s)) (hright : P.right s' = enter' (P.right s))
    (hconvert : ∀ f g, P.Fails f g → P.Fails (convert f) (convert g))
    (hleave : ∀ t, P.Later s' t → ∃ t', P.Later s t' ∧ P.left t' = leave (P.left s) (P.left t) ∧
      P.right t' = leave' (P.right s) (P.right t) ∧ (∀ a b, Q t a b → Q' t' a b) ∧
        ∀ told, P.Confirms t' told → P.Confirms t told) :
    Runs s (fun told => Eval.within enter leave convert (x told))
      (Eval.within enter' leave' convert y) Q' := by
  obtain ⟨t, ht, hend⟩ := h
  obtain ⟨t', ht', htl, htr, hq', htold⟩ := hleave t ht
  rw [hleft, hright] at hend
  refine ⟨t', ht', ?_⟩
  simp only [Eval.within, htl, htr]
  rcases hend with ⟨a, b, hq, hy, hx⟩ | ⟨f, g, hf, hy, hx⟩
  · exact .inl ⟨a, b, hq' a b hq, by rw [hy], fun told h => by rw [hx told (htold told h)]⟩
  · exact .inr ⟨_, _, hconvert f g hf, by rw [hy], fun told h => by rw [hx told (htold told h)]⟩

/-- How both runs of a program end, and the machines that they leave. -/
theorem Runs.endings {x : P.Told → Eval Unit} {y : Eval Unit} {Q : P.State → Unit → Unit → Prop}
    (h : Runs s x y Q) :
    ∃ t, P.Later s t ∧ ∃ f g : Option Failure, Option.Rel P.Fails f g ∧
      (P.right s).run y = (g, { P.right t with current := Machine.globals, callDepth := 0 }) ∧
      ∀ told, P.Confirms t told → (P.left s).run (x told) =
        (f, { P.left t with current := Machine.globals, callDepth := 0 }) := by
  obtain ⟨t, ht, ⟨a, b, -, hy, hx⟩ | ⟨f, g, hfg, hy, hx⟩⟩ := h
  · refine ⟨t, ht, none, none, .none, ?_, fun told htold => ?_⟩
    · rw [Machine.run, hy]
    · rw [Machine.run, hx told htold]
  · refine ⟨t, ht, some f, some g, .some hfg, ?_, fun told htold => ?_⟩
    · rw [Machine.run, hy]
    · rw [Machine.run, hx told htold]

theorem Runs.ending {x : P.Told → Eval Unit} {y : Eval Unit} {Q : P.State → Unit → Unit → Prop}
    (h : Runs s x y Q) (hfails : ∀ f g, P.Fails f g → f = g) :
    ∃ t, P.Later s t ∧ ∃ ending : Option Failure,
      (P.right s).run y = (ending, { P.right t with current := Machine.globals, callDepth := 0 }) ∧
      ∀ told, P.Confirms t told → (P.left s).run (x told) =
        (ending, { P.left t with current := Machine.globals, callDepth := 0 }) := by
  obtain ⟨t, ht, f, g, hfg, hends⟩ := h.endings
  obtain rfl : f = g := by
    cases hfg with
    | none => rfl
    | some hfg => rw [hfails _ _ hfg]
  exact ⟨t, ht, f, hends⟩

/-- A global of the same name on both sides. -/
theorem lookUp_runs {name : Token}
    (h : Option.Rel (Alike s) ((P.left s).environments.get? Machine.globals name.lexeme)
      ((P.right s).environments.get? Machine.globals name.lexeme)) :
    Runs s (fun _ => Eval.lookUp name none) (Eval.lookUp name none) Alike := by
  unfold Eval.lookUp
  refine Runs.get ?_
  dsimp only
  generalize (P.left s).environments.get? Machine.globals name.lexeme = v?,
    (P.right s).environments.get? Machine.globals name.lexeme = w? at h ⊢
  cases h with
  | none => exact .throw _
  | some h => exact .pure h

theorem assignFrom_runs {e : Nat} {name : Token} {v w : Value} {Q : P.State → Unit → Unit → Prop}
    (howner : (P.right s).environments.owner? name.lexeme e =
      (P.left s).environments.owner? name.lexeme e)
    (h : ∀ owner ∈ (P.left s).environments.owner? name.lexeme e,
      Runs s (fun _ => Eval.defineIn owner name.lexeme v) (Eval.defineIn owner name.lexeme w) Q) :
    Runs s (fun _ => Eval.assignFrom e name v) (Eval.assignFrom e name w) Q := by
  unfold Eval.assignFrom
  refine Runs.get ?_
  rw [howner]
  cases ho : (P.left s).environments.owner? name.lexeme e with
  | none => exact .throw _
  | some owner => exact h owner ho

/-- Both have ended, or both return. -/
def Ends (s : P.State) : Completion → Completion → Prop
  | .normal, .normal => True
  | .returned v, .returned w => Alike s v w
  | _, _ => False

theorem Runs.ofOperator (line : Nat) {r r' : Except Cause Value}
    (h : Value.RelResult (P.Function s) (P.Method s) r r') :
    Runs s (fun _ => Eval.ofOperator line r) (Eval.ofOperator line r') Alike := by
  cases r <;> cases r' <;> first
    | exact .pure h
    | exact h.elim
    | (obtain ⟨rfl, -⟩ := h; exact .throw _)

/-- The same steps are taken on both sides; on the left, methods are bound in a way of its own. -/
structure Laws (P : Parallel) (bind : P.Told → Closure → Value → Eval Closure) : Prop where
  callDepth (s : P.State) : (P.left s).callDepth = (P.right s).callDepth
  emit (s : P.State) (e : Event) :
    Runs s (fun _ => Eval.emit e) (Eval.emit e) fun _ _ _ => True
  readClock (s : P.State) : Runs s (fun _ => Eval.readClock) Eval.readClock Alike
  newInstance (s : P.State) {c d : Class} : c.Rel (P.Method s) d →
    Runs s (fun _ => Eval.newInstance c) (Eval.newInstance d) Alike
  getField? (s : P.State) (ref : Nat) (name : String) :
    Runs s (fun _ => Eval.getField? ref name) (Eval.getField? ref name)
      fun t => Option.Rel (Alike t)
  setField (s : P.State) (ref : Nat) (name : String) {v w : Value} : Alike s v w →
    Runs s (fun _ => Eval.setField ref name v) (Eval.setField ref name w) fun _ _ _ => True
  bindMethod (s : P.State) {f g : Closure} {v w : Value} : P.Method s f g → Alike s v w →
    Runs s (fun told => bind told f v) (Eval.bindMethod g w) P.Function
  inCall (s : P.State) (line : Nat) {x : P.Told → Eval Value} {y : Eval Value} :
    (∀ t, P.Later s t → Runs t x y Alike) →
      Runs s (fun told => Eval.inCall line (x told)) (Eval.inCall line y) Alike

section rules
variable {bind : P.Told → Closure → Value → Eval Closure} (laws : Laws P bind)
variable {x x₁ : P.Told → Eval Value} {y y₁ : Eval Value}

theorem unary_runs (h : Runs s x y Alike) (operator : Token) :
    Runs s
      (fun w => x w >>= fun v =>
        Eval.ofOperator operator.line (Value.unary operator.kind operator.lexeme v))
      (y >>= fun v => Eval.ofOperator operator.line (Value.unary operator.kind operator.lexeme v))
      Alike :=
  h.bind fun _ _ _ _ hv => .ofOperator _ (Value.Rel.unary hv _ _)

theorem binary_runs (h : Runs s x y Alike) (h₁ : ∀ t, P.Later s t → Runs t x₁ y₁ Alike)
    (operator : Token) :
    Runs s
      (fun w => x w >>= fun v => x₁ w >>= fun v₁ =>
        Eval.ofOperator operator.line (Value.binary operator.kind operator.lexeme v v₁))
      (y >>= fun v => y₁ >>= fun v₁ =>
        Eval.ofOperator operator.line (Value.binary operator.kind operator.lexeme v v₁))
      Alike := by
  refine h.bind fun t v w ht hv => (h₁ t ht).bind fun u v₁ w₁ hu hv₁ => ?_
  exact .ofOperator _ (Value.Rel.binary (fun _ _ => P.id_eq) (hv.later hu) hv₁ _ _)

theorem logical_runs (h : Runs s x y Alike) (h₁ : ∀ t, P.Later s t → Runs t x₁ y₁ Alike)
    (operator : Token) :
    Runs s
      (fun told => x told >>= fun v =>
        if Value.decides operator.kind v then pure v else x₁ told)
      (y >>= fun v => if Value.decides operator.kind v then pure v else y₁) Alike := by
  refine h.bind fun t v w ht hv => ?_
  rw [Value.Rel.decides_eq hv]
  split
  · exact .pure hv
  · exact h₁ t ht

theorem evaluateAll_runs {ev : P.Told → BoundExpr → Eval Value} {ev' : BoundExpr → Eval Value}
    {R : BoundExpr → BoundExpr → Prop} {es es' : List BoundExpr} (h : List.Forall₂ R es es')
    (hev : ∀ t e e', P.Later s t → R e e' → Runs t (fun w => ev w e) (ev' e') Alike) :
    Runs s (fun w => Eval.evaluateAll (ev w) es) (Eval.evaluateAll ev' es')
      fun t => List.Forall₂ (Alike t) := by
  induction h generalizing s with
  | nil => exact .pure .nil
  | cons he _ ih =>
    refine (hev s _ _ (P.later_refl s) he).bind fun t v w ht hv => ?_
    refine (ih fun u e e' hu => hev u e e' (P.later_trans ht hu)).bind fun u vs ws hu hvs => ?_
    exact .pure (.cons (hv.later hu) hvs)

theorem executeAll_runs {ex : P.Told → BoundStmt → Eval Completion}
    {ex' : BoundStmt → Eval Completion} {R : BoundStmt → BoundStmt → Prop}
    {ss ss' : List BoundStmt} (h : List.Forall₂ R ss ss')
    (hex : ∀ t st st', P.Later s t → R st st' → Runs t (fun w => ex w st) (ex' st') Ends) :
    Runs s (fun w => Eval.executeAll (ex w) ss) (Eval.executeAll ex' ss') Ends := by
  induction h generalizing s with
  | nil => exact .pure trivial
  | cons hs _ ih =>
    refine (hex s _ _ (P.later_refl s) hs).bind fun t c d ht hc => ?_
    cases c <;> cases d
    · exact ih fun u st st' hu => hex u st st' (P.later_trans ht hu)
    · exact hc.elim
    · exact hc.elim
    · exact .pure hc

theorem loop_runs {z : P.Told → Eval Completion} {z' : Eval Completion}
    (htest : ∀ t, P.Later s t → Runs t x y Alike) (hbody : ∀ t, P.Later s t → Runs t z z' Ends)
    (turns : Nat) :
    Runs s (fun w => Eval.loop (x w) (z w) turns) (Eval.loop y z' turns) Ends := by
  induction turns generalizing s with
  | zero => exact .throw _
  | succ turns ih =>
    refine (htest s (P.later_refl s)).bind fun t v w ht hv => ?_
    rw [hv.isTruthy_eq]
    cases w.isTruthy with
    | false => exact .pure trivial
    | true =>
      refine (hbody t ht).bind fun u c d hu hc => ?_
      have hsu := P.later_trans ht hu
      cases c <;> cases d
      · exact ih (fun u' hu' => htest u' (P.later_trans hsu hu')) fun u' hu' =>
          hbody u' (P.later_trans hsu hu')
      · exact hc.elim
      · exact hc.elim
      · exact .pure hc

theorem branch_runs {z z₁ : P.Told → Eval Completion} {z' z₁' : Eval Completion}
    (htest : Runs s x y Alike) (hthen : ∀ t, P.Later s t → Runs t z z' Ends)
    (helse : ∀ t, P.Later s t → Runs t z₁ z₁' Ends) :
    Runs s (fun w => x w >>= fun v => if v.isTruthy then z w else z₁ w)
      (y >>= fun v => if v.isTruthy then z' else z₁') Ends := by
  refine htest.bind fun t v w ht hv => ?_
  rw [hv.isTruthy_eq]
  split
  · exact hthen t ht
  · exact helse t ht

include laws

theorem print_runs (h : Runs s x y Alike) :
    Runs s
      (fun w => x w >>= fun v => Eval.emit (.printed v.text) >>= fun _ => pure Completion.normal)
      (y >>= fun v => Eval.emit (.printed v.text) >>= fun _ => pure .normal) Ends := by
  refine h.bind fun t v w ht hv => ?_
  rw [hv.text_eq]
  exact (laws.emit t _).bind fun _ _ _ _ _ => .pure trivial

theorem set_runs (h : Runs s x y Alike) (h₁ : ∀ t, P.Later s t → Runs t x₁ y₁ Alike)
    (name : Token) :
    Runs s
      (fun told => x told >>= fun o =>
        match o with
        | .object ref _ => x₁ told >>= fun v => Eval.setField ref name.lexeme v >>= fun _ => pure v
        | _ => Eval.raise .fieldOfNonInstance name.line)
      (y >>= fun o =>
        match o with
        | .object ref _ => y₁ >>= fun v => Eval.setField ref name.lexeme v >>= fun _ => pure v
        | _ => Eval.raise .fieldOfNonInstance name.line) Alike := by
  refine h.bind fun t o o' ht ho => ?_
  unfold Alike Value.Rel at ho
  split at ho
  case h_8 =>
    obtain ⟨rfl, -⟩ := ho
    exact (h₁ t ht).bind fun u v w _ hv => (laws.setField u _ _ hv).bind fun u' _ _ hu' _ =>
      .pure (hv.later hu')
  case h_9 => exact ho.elim
  all_goals exact .throw _

theorem getProperty_runs {o o' : Value} (ho : Alike s o o') (name : Token) :
    Runs s (fun told => Eval.getPropertyBy (bind told) o name) (Eval.getProperty o' name)
      Alike := by
  have hobject := ho
  unfold Alike Value.Rel at ho
  split at ho
  case h_8 ref c ref' c' =>
    obtain ⟨rfl, hc⟩ := ho
    refine (laws.getField? s ref name.lexeme).bind fun t v? w? ht hv => ?_
    cases hv with
    | some hv => exact .pure hv
    | none =>
      dsimp only
      rcases hc.findMethod name.lexeme with ⟨hf, hg⟩ | ⟨f, g, hf, hg, hfg⟩
      · rw [hf, hg]
        exact .throw _
      · rw [hf, hg]
        exact (laws.bindMethod t (P.method_later ht hfg) (hobject.later ht)).bind
          fun u f g _ hfg => .pure hfg
  case h_9 => exact ho.elim
  all_goals exact .throw _

theorem callValue_runs {enter : P.Told → Closure → List Value → Eval Value}
    {enter' : Closure → List Value → Eval Value} {vs ws : List Value}
    (hen : ∀ t f g, P.Later s t → P.Function t f g → List.Forall₂ (Alike t) vs ws →
      Runs t (fun told => enter told f vs) (enter' g ws) Alike)
    {v w : Value} (hv : Alike s v w) (hvs : List.Forall₂ (Alike s) vs ws) :
    Runs s (fun told => Eval.callValueBy (bind told) (enter told) v vs)
      (Eval.callValue enter' w ws) Alike := by
  have hlater {t : P.State} (ht : P.Later s t) : List.Forall₂ (Alike t) vs ws :=
    hvs.imp fun _ _ h => h.later ht
  unfold Alike Value.Rel at hv
  split at hv
  case h_5 f g =>
    cases f
    cases g
    exact laws.readClock s
  case h_6 => exact hen s _ _ (P.later_refl s) hv hvs
  case h_7 c d =>
    refine (laws.newInstance s hv).bind fun t r r' ht hr => ?_
    dsimp only [Class.initializer]
    rcases hv.findMethod Function.initializerName with ⟨hf, hg⟩ | ⟨f, g, hf, hg, hfg⟩
    · rw [hf, hg]
      exact .pure hr
    · rw [hf, hg]
      refine (laws.bindMethod t (P.method_later ht hfg) hr).bind fun u f g hu hfg => ?_
      have hsu := P.later_trans ht hu
      exact (hen u f g hsu hfg (hlater hsu)).bind fun u' _ _ hu' _ =>
        .pure (hr.later (P.later_trans hu hu'))
  case h_9 => exact hv.elim
  all_goals exact .pure trivial

theorem call_runs (settings : Settings) {enter : P.Told → Closure → List Value → Eval Value}
    {enter' : Closure → List Value → Eval Value} {vs ws : List Value}
    (hen : ∀ t f g, P.Later s t → P.Function t f g → List.Forall₂ (Alike t) vs ws →
      Runs t (fun told => enter told f vs) (enter' g ws) Alike)
    {v w : Value} (hv : Alike s v w) (hvs : List.Forall₂ (Alike s) vs ws) (line : Nat) :
    Runs s (fun told => Eval.callBy settings (bind told) (enter told) v vs line)
      (Eval.call settings enter' w ws line) Alike := by
  unfold Eval.callBy Eval.call
  rw [hv.arity?_eq, hvs.length_eq]
  cases w.arity? with
  | none => exact .throw _
  | some expected =>
    dsimp only
    split
    · exact .throw _
    · refine .get ?_
      rw [laws.callDepth s]
      split
      · exact .throw _
      · refine laws.inCall s line fun t ht => ?_
        exact callValue_runs laws (fun u f g hu => hen u f g (P.later_trans ht hu)) (hv.later ht)
          (hvs.imp fun _ _ h => h.later ht)

end rules
end Parallel
end Lox
