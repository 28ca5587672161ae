import Lox.Proofs.Parallel
import Lox.Proofs.Renumbering

/-! Twin machines. They differ in the code of their functions alone: what stands in the place of
the code of a function is another function of the same name and parameters. An expression runs in
parallel on twins if the functions that it enters do. -/

namespace Lox

/-- Which functions may stand in the place of which others. -/
structure Recoding where
  Same : BoundFunction → BoundFunction → Prop
  refl (f : BoundFunction) : Same f f
  name_eq {f g : BoundFunction} : Same f g → g.name = f.name
  parameters_eq {f g : BoundFunction} : Same f g → g.parameters = f.parameters

namespace Recoding
variable {r : Recoding}

structure Twin (r : Recoding) (f g : Closure) : Prop where
  id : f.id = g.id
  environment : f.environment = g.environment
  isInitializer : f.isInitializer = g.isInitializer
  declaration : r.Same f.declaration g.declaration

theorem Twin.refl (f : Closure) : r.Twin f f := ⟨rfl, rfl, rfl, r.refl _⟩

theorem Twin.name_eq {f g : Closure} (h : r.Twin f g) : f.name = g.name :=
  congrArg Token.lexeme (r.name_eq h.declaration).symm

theorem Twin.arity_eq {f g : Closure} (h : r.Twin f g) : f.arity = g.arity :=
  congrArg List.length (r.parameters_eq h.declaration).symm

def Alike (r : Recoding) : Value → Value → Prop := Value.Rel r.Twin r.Twin

theorem Alike.refl (v : Value) : r.Alike v v := Value.Rel.refl Twin.refl Twin.refl v

structure Twins (r : Recoding) (m m' : Machine) : Prop where
  size : m'.environments.frames.size = m.environments.frames.size
  link : ∀ e, m'.environments.link? e = m.environments.link? e
  bound : ∀ e, (m.environments.bindings e).Rel r.Alike (m'.environments.bindings e)
  objects_size : m'.objects.size = m.objects.size
  objects : ∀ ref : Nat, Option.Rel (Bindings.Rel r.Alike) m.objects[ref]? m'.objects[ref]?
  created : m'.created = m.created
  current : m'.current = m.current
  callDepth : m'.callDepth = m.callDepth
  clock : m'.clock = m.clock
  events : m'.events = m.events

namespace Twins
variable {m m' : Machine} (h : r.Twins m m')

theorem refl (m : Machine) : r.Twins m m where
  size := rfl
  link _ := rfl
  bound _ := .refl Alike.refl _
  objects_size := rfl
  objects ref := by
    cases m.objects[ref]? with
    | none => exact .none
    | some b => exact .some (.refl Alike.refl b)
  created := rfl
  current := rfl
  callDepth := rfl
  clock := rfl
  events := rfl

include h

theorem ancestor_eq (e distance : Nat) :
    m'.environments.ancestor e distance = m.environments.ancestor e distance := by
  rw [Environments.ancestor, Environments.ancestor, Environments.ancestor?_congr h.link]

theorem owner?_eq (x : String) (e : Nat) :
    m'.environments.owner? x e = m.environments.owner? x e :=
  Environments.owner?_congr h.link (fun e => (h.bound e).isSome_eq x) e

theorem get?_alike (e : Nat) (x : String) :
    Option.Rel r.Alike (m.environments.get? e x) (m'.environments.get? e x) := by
  unfold Environments.get?
  rw [h.owner?_eq]
  cases m.environments.owner? x e with
  | none => exact .none
  | some owner => exact (h.bound owner).option x

theorem getAt_alike (e distance : Nat) (x : String) :
    (∃ v w, m.environments.getAt e distance x = .ok v ∧
        m'.environments.getAt e distance x = .ok w ∧ r.Alike v w) ∨
      ∃ f, m.environments.getAt e distance x = .error f ∧
        m'.environments.getAt e distance x = .error f := by
  unfold Environments.getAt
  rw [h.ancestor_eq]
  cases m.environments.ancestor e distance with
  | error f => exact .inr ⟨f, rfl, rfl⟩
  | ok a =>
    unfold Environments.find?
    dsimp only
    rcases (h.bound a).find? x with ⟨hb, hc⟩ | ⟨v, w, hb, hc, hvw⟩
    · exact .inr ⟨.unbound x, by rw [hb], by rw [hc]⟩
    · exact .inl ⟨v, w, by rw [hb], by rw [hc], hvw⟩

end Twins

/-- Twins that are run together. -/
structure Pair (r : Recoding) where
  left : Machine
  right : Machine
  twins : r.Twins left right

def parallel (r : Recoding) : Parallel where
  State := r.Pair
  left := Pair.left
  right := Pair.right
  Later _ _ := True
  later_refl _ := trivial
  later_trans _ _ := trivial
  Told := Unit
  Confirms _ _ := True
  confirms_later _ _ := trivial
  Fails f g := f = g
  fails_refl _ := rfl
  Function _ := r.Twin
  Method _ := r.Twin
  function_later _ h := h
  method_later _ h := h
  id_eq := Twin.id
  name_eq := Twin.name_eq
  arity_eq := Twin.arity_eq
  methodArity_eq := Twin.arity_eq

namespace Pair
open Eval
variable {s t : r.Pair} {α β : Type}

abbrev Runs (s : r.Pair) (x : Eval α) (y : Eval β) (Q : r.Pair → α → β → Prop) : Prop :=
  Parallel.Runs (P := r.parallel) s (fun _ => x) y Q

/-- Both runs give values that are alike. -/
abbrev Values (_ : r.Pair) : Value → Value → Prop := r.Alike

abbrev Ends (s : r.Pair) : Completion → Completion → Prop := Parallel.Ends (P := r.parallel) s

/-- A step that stores something. -/
theorem runs_step {f : Machine → α × Machine} {g : Machine → β × Machine}
    {Q : r.Pair → α → β → Prop} (h : r.Twins (f s.left).2 (g s.right).2)
    (hQ : Q ⟨_, _, h⟩ (f s.left).1 (g s.right).1) : s.Runs (modifyGet f) (modifyGet g) Q :=
  ⟨⟨_, _, h⟩, trivial, .inl ⟨_, _, hQ, rfl, fun _ _ => rfl⟩⟩

theorem emit_runs (s : r.Pair) (e : Event) : s.Runs (emit e) (emit e) fun _ _ _ => True :=
  runs_step { s.twins with events := congrArg (e :: ·) s.twins.events } trivial

theorem readClock_runs (s : r.Pair) : s.Runs readClock readClock Values :=
  runs_step { s.twins with clock := congrArg (· + Machine.tick) s.twins.clock } s.twins.clock.symm

theorem nextId_runs (s : r.Pair) : s.Runs nextId nextId fun _ id id' => id = id' :=
  runs_step { s.twins with created := congrArg (· + 1) s.twins.created } s.twins.created.symm

theorem newInstance_runs (s : r.Pair) {c d : Class} (h : c.Rel r.Twin d) :
    s.Runs (newInstance c) (newInstance d) Values := by
  have hsize := s.twins.objects_size
  refine runs_step { s.twins with
    objects_size := by simp [hsize]
    objects := fun ref => ?_ } ⟨hsize.symm, h⟩
  rw [Array.getElem?_push, Array.getElem?_push, hsize]
  split
  · exact .some .nil
  · exact s.twins.objects ref

theorem getField?_runs (s : r.Pair) (ref : Nat) (name : String) :
    s.Runs (getField? ref name) (getField? ref name) fun _ => Option.Rel r.Alike := by
  refine Parallel.Runs.get (.pure ?_)
  show Option.Rel _ ((s.left.objects[ref]?).bind (·.find? name))
    ((s.right.objects[ref]?).bind (·.find? name))
  have hobject := s.twins.objects ref
  generalize s.left.objects[ref]? = b?, s.right.objects[ref]? = c? at hobject ⊢
  cases hobject with
  | none => exact .none
  | some hb => exact hb.option name

theorem setField_runs (s : r.Pair) (ref : Nat) (name : String) {v w : Value}
    (h : r.Alike v w) :
    s.Runs (setField ref name v) (setField ref name w) fun _ _ _ => True := by
  refine runs_step { s.twins with
    objects_size := by simp [s.twins.objects_size]
    objects := fun ref' => ?_ } trivial
  have hobject := s.twins.objects ref'
  rw [Array.getElem?_modify, Array.getElem?_modify]
  generalize s.left.objects[ref']? = b?, s.right.objects[ref']? = c? at hobject ⊢
  split
  · cases hobject with
    | none => exact .none
    | some hb => exact .some (hb.put name h)
  · exact hobject

theorem newEnvironment_runs (s : r.Pair) (p : Nat) {b c : Bindings Value} (h : b.Rel r.Alike c) :
    s.Runs (newEnvironment p b) (newEnvironment p c) fun _ e e' => e = e' := by
  have hsize := s.twins.size
  refine runs_step { s.twins with
    size := ?_
    link := fun e => ?_
    bound := fun e => ?_ } hsize.symm
  · rw [Environments.size_create, Environments.size_create, hsize]
  · rw [Environments.link?_create, Environments.link?_create, hsize, s.twins.link]
  · rw [Environments.bindings_create, Environments.bindings_create, hsize]
    split
    · exact h
    · exact s.twins.bound e

theorem defineIn_runs (s : r.Pair) (e : Nat) (x : String) {v w : Value} (h : r.Alike v w) :
    s.Runs (defineIn e x v) (defineIn e x w) fun _ _ _ => True := by
  have hsize := s.twins.size
  refine runs_step { s.twins with
    size := ?_
    link := fun e' => ?_
    bound := fun e' => ?_ } trivial
  · rw [Environments.size_define, Environments.size_define, hsize]
  · rw [Environments.link?_define, Environments.link?_define, s.twins.link]
  · rw [Environments.bindings_define, Environments.bindings_define, hsize]
    split
    · exact (s.twins.bound e').put x h
    · exact s.twins.bound e'

theorem define_runs (s : r.Pair) (x : String) {v w : Value} (h : r.Alike v w) :
    s.Runs (define x v) (define x w) fun _ _ _ => True := by
  show s.Runs (get >>= fun m => defineIn m.current x v) (get >>= fun m => defineIn m.current x w) _
  refine Parallel.Runs.get (P := r.parallel) ?_
  show s.Runs (defineIn s.left.current x v) (defineIn s.right.current x w) _
  rw [s.twins.current]
  exact defineIn_runs s _ x h

theorem getAt_runs (s : r.Pair) {m m' : Machine} (h : r.Twins m m') (e distance : Nat)
    (x : String) :
    s.Runs (ofFault (m.environments.getAt e distance x))
      (ofFault (m'.environments.getAt e distance x)) Values := by
  rcases h.getAt_alike e distance x with ⟨v, w, hl, hr, hv⟩ | ⟨f, hl, hr⟩
  · rw [hl, hr]
    exact .pure hv
  · rw [hl, hr]
    exact .throw _

theorem lookUp_runs (s : r.Pair) (name : Token) (target : Hops) :
    s.Runs (lookUp name target) (lookUp name target) Values := by
  cases target with
  | some distance =>
    refine Parallel.Runs.get (P := r.parallel) ?_
    show s.Runs (ofFault (s.left.environments.getAt s.left.current distance name.lexeme))
      (ofFault (s.right.environments.getAt s.right.current distance name.lexeme)) _
    rw [s.twins.current]
    exact getAt_runs s s.twins _ distance name.lexeme
  | none => exact Parallel.lookUp_runs (P := r.parallel) (s.twins.get?_alike _ _)

theorem assignFrom_runs (s : r.Pair) (e : Nat) (name : Token) {v w : Value} (h : r.Alike v w) :
    s.Runs (assignFrom e name v) (assignFrom e name w) fun _ _ _ => True :=
  Parallel.assignFrom_runs (P := r.parallel) (s.twins.owner?_eq _ e) fun owner _ =>
    defineIn_runs s owner name.lexeme h

theorem assign_runs (s : r.Pair) (name : Token) (target : Hops) {v w : Value} (h : r.Alike v w) :
    s.Runs (assign name target v) (assign name target w) fun _ _ _ => True := by
  cases target with
  | none => exact assignFrom_runs s Machine.globals name h
  | some distance =>
    refine Parallel.Runs.get (P := r.parallel) ?_
    show s.Runs
      (ofFault (s.left.environments.ancestor s.left.current distance) >>= fun e =>
        defineIn e name.lexeme v)
      (ofFault (s.right.environments.ancestor s.right.current distance) >>= fun e =>
        defineIn e name.lexeme w) _
    rw [s.twins.ancestor_eq, s.twins.current]
    cases s.left.environments.ancestor s.left.current distance with
    | error f => exact .throw _
    | ok e => exact defineIn_runs s e name.lexeme h

theorem bindMethod_runs (s : r.Pair) {f g : Closure} {v w : Value} (hf : r.Twin f g)
    (hv : r.Alike v w) : s.Runs (bindMethod f v) (bindMethod g w) fun _ => r.Twin := by
  unfold bindMethod
  rw [hf.environment]
  have hthis : Bindings.Rel r.Alike [("this", v)] [("this", w)] := .cons ⟨rfl, hv⟩ .nil
  refine (newEnvironment_runs s g.environment hthis).bind fun t e e' _ he => ?_
  exact (nextId_runs t).bind fun u id id' _ hid =>
    .pure ⟨hid, he, hf.isInitializer, hf.declaration⟩

/-- The same twins in another place. -/
def moved (s : r.Pair) (current callDepth : Nat) : r.Pair where
  left := { s.left with current, callDepth }
  right := { s.right with current, callDepth }
  twins := { s.twins with current := rfl, callDepth := rfl }

theorem inEnvironment_runs (s : r.Pair) (e : Nat) {x : Eval α} {y : Eval β}
    {Q : r.Pair → α → β → Prop}
    (hQ : ∀ (t : r.Pair) a b current callDepth, Q t a b → Q (t.moved current callDepth) a b)
    (h : (s.moved e s.left.callDepth).Runs x y Q) :
    s.Runs (inEnvironment e x) (inEnvironment e y) Q := by
  have hright : (s.moved e s.left.callDepth).right = { s.right with current := e } := by
    show { s.right with current := e, callDepth := s.left.callDepth } = _
    rw [← s.twins.callDepth]
  simp only [inEnvironment_eq]
  refine Parallel.Runs.within h rfl hright (fun _ _ h => h) fun t _ => ?_
  refine ⟨t.moved s.left.current t.left.callDepth, trivial, rfl, ?_, fun a b => hQ t a b _ _,
    fun _ h => h⟩
  show { t.right with current := s.left.current, callDepth := t.left.callDepth } =
    { t.right with current := s.right.current }
  rw [← t.twins.callDepth, s.twins.current]

theorem inCall_runs (s : r.Pair) (line : Nat) {x y : Eval Value}
    (h : ∀ t : r.Pair, t.Runs x y Values) :
    s.Runs (inCall line x) (inCall line y) Values := by
  have hcalled := h (s.moved s.left.current (s.left.callDepth + 1))
  have hright : (s.moved s.left.current (s.left.callDepth + 1)).right =
      { s.right with callDepth := s.right.callDepth + 1 } := by
    show { s.right with current := s.left.current, callDepth := s.left.callDepth + 1 } = _
    rw [← s.twins.callDepth, ← s.twins.current]
  simp only [inCall_eq]
  refine Parallel.Runs.within hcalled rfl hright (fun _ _ h => congrArg (blamed line) h)
    fun t _ => ?_
  refine ⟨t.moved t.left.current (t.left.callDepth - 1), trivial, rfl, ?_, fun _ _ h => h,
    fun _ h => h⟩
  show { t.right with current := t.left.current, callDepth := t.left.callDepth - 1 } =
    { t.right with callDepth := t.right.callDepth - 1 }
  rw [← t.twins.callDepth, ← t.twins.current]

theorem laws (r : Recoding) : r.parallel.Laws fun _ => bindMethod where
  callDepth s := s.twins.callDepth.symm
  emit := emit_runs
  readClock := readClock_runs
  newInstance s _ _ h := newInstance_runs s h
  getField? := getField?_runs
  setField s ref name _ _ h := setField_runs s ref name h
  bindMethod s _ _ _ _ hf hv := bindMethod_runs s hf hv
  inCall s line x _ h := inCall_runs s line (x := x ()) fun t => h t trivial

/-! ### Forms -/

/-- Functions that are twins run alike. -/
def Enters (r : Recoding) (enter enter' : Closure → List Value → Eval Value) : Prop :=
  ∀ (s : r.Pair) (f g : Closure) (vs ws : List Value), r.Twin f g → List.Forall₂ r.Alike vs ws →
    s.Runs (enter f vs) (enter' g ws) Values

def Evaluates (r : Recoding) (ev ev' : BoundExpr → Eval Value) : Prop :=
  ∀ (s : r.Pair) (e : BoundExpr), s.Runs (ev e) (ev' e) Values

theorem superMethod_runs (s : r.Pair) (keyword : Token) (target : Hops) (method : Token) :
    s.Runs (superMethod keyword target method) (superMethod keyword target method) Values := by
  cases target with
  | none => exact .throw _
  | some distance =>
    unfold superMethod
    refine Parallel.Runs.get (P := r.parallel) ?_
    show s.Runs (ofFault (s.left.environments.getAt s.left.current distance "super") >>= fun v =>
        ofFault (s.left.environments.getAt s.left.current (distance - 1) "this") >>= _)
      (ofFault (s.right.environments.getAt s.right.current distance "super") >>= fun v =>
        ofFault (s.right.environments.getAt s.right.current (distance - 1) "this") >>= _) _
    rw [s.twins.current]
    refine (getAt_runs s s.twins _ distance "super").bind fun t v w _ hv => ?_
    refine (getAt_runs t s.twins _ (distance - 1) "this").bind fun u o o' _ ho => ?_
    unfold Values Alike Value.Rel at hv
    split at hv
    case h_7 c d =>
      dsimp only
      rcases hv.findMethod method.lexeme with ⟨hf, hg⟩ | ⟨f, g, hf, hg, hfg⟩
      · rw [hf, hg]
        exact .throw _
      · rw [hf, hg]
        exact (bindMethod_runs u hfg ho).bind fun _ _ _ _ hfg => .pure hfg
    case h_9 => exact hv.elim
    all_goals exact .throw _

section forms
variable {ev ev' : BoundExpr → Eval Value} {enter enter' : Closure → List Value → Eval Value}

theorem evaluateForm_runs (settings : Settings) (hev : Evaluates r ev ev')
    (hen : Enters r enter enter') (s : r.Pair) (e : BoundExpr) :
    s.Runs (evaluateForm settings ev enter e) (evaluateForm settings ev' enter' e) Values := by
  cases e with
  | literal line value => exact .pure (Alike.refl _)
  | grouping line inner => exact hev s inner
  | unary operator right => exact Parallel.unary_runs (hev s right) operator
  | binary left operator right =>
    exact Parallel.binary_runs (hev s left) (fun t _ => hev t right) operator
  | logical left operator right =>
    exact Parallel.logical_runs (hev s left) (fun t _ => hev t right) operator
  | read name target => exact lookUp_runs s name target
  | assign line name target value =>
    refine (hev s value).bind fun t v w _ hv => ?_
    exact (assign_runs t name target hv).bind fun _ _ _ _ _ => .pure hv
  | call callee paren arguments =>
    refine (hev s callee).bind fun t v w _ hv => ?_
    have harguments : t.Runs (evaluateAll ev arguments) (evaluateAll ev' arguments)
        fun _ => List.Forall₂ r.Alike := by
      refine Parallel.evaluateAll_runs (P := r.parallel) (R := Eq)
        (List.forall₂_same.2 fun _ _ => rfl) fun u e e' _ he => ?_
      subst he
      exact hev u e
    refine harguments.bind fun u vs ws _ hvs => ?_
    have hcall : u.Runs (callBy settings bindMethod enter v vs paren.line)
        (call settings enter' w ws paren.line) Values :=
      Parallel.call_runs (laws r) settings (fun t f g _ hf hvs => hen t f g vs ws hf hvs) hv hvs
        paren.line
    rwa [callBy_bindMethod] at hcall
  | get object name =>
    exact (hev s object).bind fun t v w _ hv => Parallel.getProperty_runs (laws r) hv name
  | set line object name value =>
    exact Parallel.set_runs (laws r) (hev s object) (fun t _ => hev t value) name
  | this keyword target => exact lookUp_runs s keyword target
  | super keyword target method => exact superMethod_runs s keyword target method

theorem newFunction_runs (s : r.Pair) {f g : BoundFunction} (h : r.Same f g)
    (isInitializer : Bool) :
    s.Runs (newFunction f isInitializer) (newFunction g isInitializer) fun _ => r.Twin := by
  refine (nextId_runs s).bind fun t id id' _ hid => Parallel.Runs.get (P := r.parallel) (.pure ?_)
  exact ⟨hid, t.twins.current.symm, rfl, h⟩

theorem newMethods_runs (s : r.Pair) {fs gs : List BoundFunction} (h : List.Forall₂ r.Same fs gs)
    {ms ms' : Bindings Closure} (hms : ms.Rel r.Twin ms') :
    s.Runs (newMethods fs ms) (newMethods gs ms') fun _ => Bindings.Rel r.Twin := by
  induction h generalizing s ms ms' with
  | nil => exact .pure hms
  | @cons f g fs gs hfg _ ih =>
    have hname := r.name_eq hfg
    show s.Runs (newFunction f f.isInitializer >>= _) (newFunction g g.isInitializer >>= fun m =>
      newMethods gs (ms'.put g.name.lexeme m)) _
    rw [Function.isInitializer, Function.isInitializer, hname]
    exact (newFunction_runs s hfg _).bind fun t m m' _ hm => ih t (hms.put _ hm)

theorem assignClass_runs (s : r.Pair) (name : Token) {k k' : Nat → Class}
    (hk : ∀ id, (k id).Rel r.Twin (k' id)) :
    s.Runs (nextId >>= fun id => get >>= fun m => assignFrom m.current name (.class_ (k id)))
      (nextId >>= fun id => get >>= fun m => assignFrom m.current name (.class_ (k' id)))
      fun _ _ _ => True := by
  refine (nextId_runs s).bind fun t id id' _ hid => Parallel.Runs.get (P := r.parallel) ?_
  subst hid
  show t.Runs (assignFrom t.left.current name _) (assignFrom t.right.current name _) _
  rw [t.twins.current]
  exact assignFrom_runs t _ name (hk id)

theorem declareClass_runs (hev : Evaluates r ev ev') (s : r.Pair) (name : Token)
    (superclass : Option (Superclass Hops)) {fs gs : List BoundFunction}
    (h : List.Forall₂ r.Same fs gs) :
    s.Runs (declareClass ev name superclass fs) (declareClass ev' name superclass gs)
      fun _ _ _ => True := by
  cases superclass with
  | none =>
    refine (define_runs s name.lexeme (Alike.refl .nil)).bind fun t _ _ _ _ => ?_
    refine (newMethods_runs t h .nil).bind fun u ms ms' _ hms => ?_
    exact assignClass_runs u name (k := (.root · name.lexeme ms)) fun id => ⟨rfl, rfl, hms⟩
  | some superclass =>
    refine (hev s superclass.expr).bind fun t v w _ hv => ?_
    have hclass := hv
    unfold Values Alike Value.Rel at hv
    split at hv
    case h_7 c d =>
      refine (define_runs t name.lexeme (Alike.refl .nil)).bind fun u _ _ _ _ =>
        Parallel.Runs.get (P := r.parallel) ?_
      have hsuper : Bindings.Rel r.Alike [("super", .class_ c)] [("super", .class_ d)] :=
        .cons ⟨rfl, hclass⟩ .nil
      show u.Runs (newEnvironment u.left.current _ >>= _) (newEnvironment u.right.current _ >>= _) _
      rw [u.twins.current]
      refine (newEnvironment_runs u _ hsuper).bind fun u₁ e e' _ he => ?_
      subst he
      refine (inEnvironment_runs u₁ e (fun _ _ _ _ _ h => h) (newMethods_runs _ h .nil)).bind
        fun u₂ ms ms' _ hms => ?_
      exact assignClass_runs u₂ name (k := (.derived · name.lexeme ms c)) fun id =>
        ⟨rfl, rfl, hms, hv⟩
    case h_9 => exact hv.elim
    all_goals exact .throw _

end forms

/-! ### Bodies -/

section bodies
variable {ex ex' : BoundStmt → Eval Completion} {body body' : List BoundStmt}

theorem executeBlock_runs (s : r.Pair) (p : Nat) {b c : Bindings Value} (hb : b.Rel r.Alike c)
    (hbody : ∀ t : r.Pair, t.Runs (executeAll ex body) (executeAll ex' body') Ends) :
    s.Runs (executeBlock ex p b body) (executeBlock ex' p c body') Ends := by
  refine (newEnvironment_runs s p hb).bind fun t e e' _ he => ?_
  subst he
  exact inEnvironment_runs t e (fun _ _ _ _ _ h => h) (hbody _)

theorem apply_runs (s : r.Pair) {f g : Closure} (hf : r.Twin f g) {vs ws : List Value}
    (hvs : List.Forall₂ r.Alike vs ws)
    (hbody : ∀ t : r.Pair,
      t.Runs (executeAll ex f.declaration.body) (executeAll ex' g.declaration.body) Ends) :
    s.Runs (apply ex f vs) (apply ex' g ws) Values := by
  unfold apply
  rw [r.parameters_eq hf.declaration, hf.environment, hf.isInitializer]
  have hparameters := Bindings.Rel.ofPairs (f.declaration.parameters.map Token.lexeme) hvs
  refine (executeBlock_runs s g.environment hparameters hbody).bind fun t c d _ hc => ?_
  cases g.isInitializer with
  | true =>
    refine Parallel.Runs.get (P := r.parallel) ?_
    exact getAt_runs t t.twins g.environment 0 "this"
  | false =>
    cases c <;> cases d
    · exact .pure (Alike.refl .nil)
    · exact hc.elim
    · exact hc.elim
    · exact .pure hc

end bodies

theorem ends_alike {s : r.Pair} {x y : Eval Unit} {Q : r.Pair → Unit → Unit → Prop}
    (h : s.Runs x y Q) :
    ∃ (ending : Option Failure) (t : r.Pair),
      s.left.run x = (ending, t.left) ∧ s.right.run y = (ending, t.right) := by
  obtain ⟨t, -, ending, hright, hleft⟩ := Parallel.Runs.ending h fun _ _ hfg => hfg
  exact ⟨ending, t.moved Machine.globals 0, hleft () trivial, hright⟩

end Pair

theorem Twins.globalTexts_eq {m m' : Machine} (h : r.Twins m m') :
    m'.globalTexts = m.globalTexts := by
  have htexts : (m.environments.bindings Machine.globals).map (fun p => (p.1, p.2.text)) =
      (m'.environments.bindings Machine.globals).map fun p => (p.1, p.2.text) := by
    rw [← List.forall₂_eq_eq_eq, List.forall₂_map_left_iff, List.forall₂_map_right_iff]
    refine (h.bound Machine.globals).imp fun p q hpq => ?_
    exact Prod.ext hpq.1 (Parallel.Alike.text_eq (P := r.parallel) (s := ⟨m, m', h⟩) hpq.2)
  have hsorted (b : Bindings Value) :
      (b.mergeSort fun p q => decide (p.1 ≤ q.1)).map (fun p => (p.1, p.2.text)) =
        (b.map fun p => (p.1, p.2.text)).mergeSort fun p q => decide (p.1 ≤ q.1) :=
    List.map_mergeSort fun _ _ _ _ => rfl
  unfold Machine.globalTexts Machine.globalValues
  rw [hsorted, hsorted, htexts]

end Recoding
end Lox
