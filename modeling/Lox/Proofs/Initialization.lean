import Lox.Proofs.Estate
import Lox.Proofs.Supervision

/-! Initialization. While a program runs, each method that is bound is entered in the register with
its instance. So every call of an initializer gives the instance that it is bound to, and every
call of a class a new one. -/

namespace Lox
namespace Estate
open Eval
variable {s t : Estate} {α : Type} {Q : Estate → α → Prop}

section steps

/-- A step of the machine that the register says nothing of. -/
theorem step_runs {f : Machine → α × Machine} (hm : s.machine.Extends (f s.machine).2)
    (hcurrent : (f s.machine).2.current = s.machine.current)
    (hbound : ∀ e x v, (f s.machine).2.environments.find? e x = some v →
      s.machine.environments.find? e x = some v ∨ s.register.Holds (f s.machine).2 v)
    (hfields : ∀ (ref : Nat) b x v, (f s.machine).2.objects[ref]? = some b → b.find? x = some v →
      (∃ b', s.machine.objects[ref]? = some b' ∧ b'.find? x = some v) ∨
        s.register.Holds (f s.machine).2 v)
    (hQ : ∀ t : Estate, t.register = s.register → t.machine = (f s.machine).2 → s.Later t →
      Q t (f s.machine).1) :
    s.Runs (fun _ => modifyGet f) (modifyGet f) Q := by
  let t : Estate :=
    ⟨s.register, (f s.machine).2, s.keeps.mono (fun _ _ => rfl) hm hbound hfields⟩
  have ht : s.Later t := ⟨fun _ _ => rfl, hm, hcurrent⟩
  exact ⟨t, ht, .inl ⟨_, _, ⟨rfl, hQ t rfl rfl ht⟩, rfl, fun _ _ => rfl⟩⟩

theorem idle_runs {f : Machine → α × Machine}
    (hcreated : s.machine.created ≤ (f s.machine).2.created)
    (henvironments : (f s.machine).2.environments = s.machine.environments)
    (hobjects : (f s.machine).2.objects = s.machine.objects)
    (hcurrent : (f s.machine).2.current = s.machine.current)
    (hQ : ∀ t : Estate, t.machine = (f s.machine).2 → s.Later t → Q t (f s.machine).1) :
    s.Runs (fun _ => modifyGet f) (modifyGet f) Q := by
  refine step_runs ⟨hcreated, hobjects ▸ Nat.le_refl _, henvironments ▸ .refl _⟩ hcurrent
    (fun e x v hv => .inl (henvironments ▸ hv)) (fun ref b x v hb hv => .inl ⟨b, hobjects ▸ hb, hv⟩)
    fun t _ ht hlater => hQ t ht hlater

theorem emit_runs (s : Estate) (e : Event) : s.Runs (fun _ => emit e) (emit e) fun _ _ => True :=
  idle_runs (Nat.le_refl _) rfl rfl rfl fun _ _ _ => trivial

theorem readClock_runs (s : Estate) : s.Runs (fun _ => readClock) readClock Holds :=
  idle_runs (Nat.le_refl _) rfl rfl rfl fun _ _ _ => trivial

theorem newInstance_runs (s : Estate) {c : Class} (hc : c.Each Closure.Waits) :
    s.Runs (fun _ => newInstance c) (newInstance c)
      fun t v => t.Holds v ∧ v = .object s.machine.objects.size c := by
  have hm : s.machine.Extends { s.machine with objects := s.machine.objects.push [] } :=
    ⟨Nat.le_refl _, by simp, .refl _⟩
  refine step_runs hm rfl (fun e x v hv => .inl hv)
    (fun ref b x v hb hv => .inl ⟨b, getElem?_of_push_nil hb hv, hv⟩)
    fun t _ ht _ => ⟨⟨?_, hc⟩, rfl⟩
  rw [ht]
  simp

theorem setField_runs (s : Estate) (ref : Nat) (name : String) {v : Value} (hv : s.Holds v) :
    s.Runs (fun _ => setField ref name v) (setField ref name v) fun _ _ => True := by
  have hm : s.machine.Extends
      { s.machine with objects := s.machine.objects.modify ref (·.put name v) } :=
    ⟨Nat.le_refl _, by simp, .refl _⟩
  refine step_runs hm rfl (fun e x v hv => .inl hv) (fun r b x w hb hw => ?_) fun _ _ _ _ => trivial
  rcases getElem?_of_modify_put hb hw with rfl | hw
  · exact .inr (hv.mono (fun _ _ => rfl) hm)
  · exact .inl hw

theorem getField?_runs (s : Estate) (ref : Nat) (name : String) :
    s.Runs (fun _ => getField? ref name) (getField? ref name)
      fun t v? => ∀ v ∈ v?, t.Holds v := by
  refine .get (.pure fun v hv => ?_)
  obtain ⟨b, hb, hx⟩ := Option.bind_eq_some_iff.1 hv
  exact s.keeps.fields ref b name v hb hx

theorem newEnvironment_runs (s : Estate) (p : Nat) {b : Bindings Value}
    (hb : ∀ x v, b.find? x = some v → s.Holds v) :
    s.Runs (fun _ => newEnvironment p b) (newEnvironment p b) fun t e =>
      ∀ x v, b.find? x = some v → t.machine.environments.find? e x = some v := by
  have hr := Environments.retains_create s.machine.environments (some p) b
  have hm : s.machine.Extends
      { s.machine with environments := (s.machine.environments.create (some p) b).2 } :=
    ⟨Nat.le_refl _, Nat.le_refl _, hr⟩
  refine step_runs hm rfl (fun e x v hv => ?_) (fun ref b x v hb hv => .inl ⟨b, hb, hv⟩)
    fun t _ ht _ x v hv => ?_
  · rcases Environments.of_find?_create hv with hv | hv
    · exact .inr ((hb x v hv).mono (fun _ _ => rfl) hm)
    · exact .inl hv
  · rw [ht]
    show (s.machine.environments.create (some p) b).2.find? s.machine.environments.frames.size x =
      some v
    rw [Environments.find?_create, if_pos rfl, hv]

theorem defineIn_runs (e : Nat) {name : Token} (hn : name.Plain) {v : Value} (hv : s.Holds v) :
    s.Runs (fun _ => defineIn e name.lexeme v) (defineIn e name.lexeme v) fun _ _ => True := by
  have hr := Environments.retains_define hn s.machine.environments e v
  have hm : s.machine.Extends
      { s.machine with environments := s.machine.environments.define e name.lexeme v } :=
    ⟨Nat.le_refl _, Nat.le_refl _, hr⟩
  refine step_runs hm rfl (fun e' x w hw => ?_) (fun ref b x v hb hv => .inl ⟨b, hb, hv⟩)
    fun _ _ _ _ => trivial
  rcases Environments.of_find?_define hw with ⟨rfl, rfl⟩ | hw
  · exact .inr (hv.mono (fun _ _ => rfl) hm)
  · exact .inl hw

theorem define_runs {name : Token} (hn : name.Plain) {v : Value} (hv : s.Holds v) :
    s.Runs (fun _ => define name.lexeme v) (define name.lexeme v) fun _ _ => True :=
  defineIn_runs (s := s) s.machine.current hn hv

theorem assignFrom_runs (e : Nat) {name : Token} (hn : name.Plain) {v : Value} (hv : s.Holds v) :
    s.Runs (fun _ => assignFrom e name v) (assignFrom e name v) fun _ _ => True := by
  refine .get ?_
  cases s.machine.environments.owner? name.lexeme e with
  | none => exact .throw _
  | some owner => exact defineIn_runs owner hn hv

theorem holds_of_getAt {e d : Nat} {x : String} {v : Value}
    (h : s.machine.environments.getAt e d x = .ok v) : s.Holds v := by
  obtain ⟨a, -, hf⟩ := Environments.getAt_eq_ok.1 h
  exact s.keeps.bound a x v hf

theorem lookUp_runs (s : Estate) (name : Token) (target : Hops) :
    s.Runs (fun _ => lookUp name target) (lookUp name target) Holds := by
  refine .get ?_
  cases target with
  | some d => exact .ofFault fun v hv => holds_of_getAt hv
  | none =>
    dsimp only
    cases hv : s.machine.environments.get? Machine.globals name.lexeme with
    | none => exact .throw _
    | some v =>
      obtain ⟨owner, -, hf⟩ := Option.bind_eq_some_iff.1 hv
      exact .pure (s.keeps.bound owner _ v hf)

theorem assign_runs {name : Token} (hn : name.Plain) (target : Hops) {v : Value} (hv : s.Holds v) :
    s.Runs (fun _ => assign name target v) (assign name target v) fun _ _ => True := by
  cases target with
  | none => exact assignFrom_runs Machine.globals hn hv
  | some d =>
    refine .get (Runs.bind (Q := fun t _ => t.Holds v) (.ofFault fun _ _ => hv) ?_)
    exact fun t owner _ hv => defineIn_runs owner hn hv

/-- Whoever is created next is entered in the register. -/
theorem nextId_runs (s : Estate) (instance? : Option Value) :
    s.Runs (fun _ => nextId) nextId fun t id =>
      id < t.machine.created ∧ t.register id = instance? := by
  let R : Register := fun id => if id = s.machine.created then instance? else s.register id
  have hR : Register.Agrees s.machine.created s.register R :=
    fun id hid => if_neg (Nat.ne_of_lt hid)
  have hm : s.machine.Extends { s.machine with created := s.machine.created + 1 } :=
    ⟨Nat.le_succ _, Nat.le_refl _, .refl _⟩
  have hkeeps : R.Keeps { s.machine with created := s.machine.created + 1 } :=
    s.keeps.mono hR hm (fun e x v hv => .inl hv) fun ref b x v hb hv => .inl ⟨b, hb, hv⟩
  exact ⟨⟨R, _, hkeeps⟩, ⟨hR, hm, rfl⟩,
    .inl ⟨_, _, ⟨rfl, Nat.lt_succ_self _, if_pos rfl⟩, rfl, fun _ _ => rfl⟩⟩

theorem bindMethod_runs {x : String} {f : Closure} (hf : f.Waits x) {v : Value}
    (hv : s.Holds v) :
    s.Runs (fun told => Register.bindMethod told.1 told.2 f v) (bindMethod f v) fun t f' =>
      t.register.Enters t.machine f' ∧ f'.declaration = f.declaration ∧
        t.register f'.id = some v := by
  have hthis (y : String) (u : Value) (hu : Bindings.find? [("this", v)] y = some u) :
      s.Holds u := by
    obtain ⟨rfl, rfl⟩ := Bindings.eq_of_find?_singleton hu
    exact hv
  show s.Runs (fun told => (newEnvironment f.environment [("this", v)] >>= fun e =>
    nextId >>= fun id => pure { f with id, environment := e }) >>= fun f' =>
      Register.require told.2 (told.1 f'.id = some v) >>= fun _ => pure f')
    (newEnvironment f.environment [("this", v)] >>= fun e =>
      nextId >>= fun id => pure { f with id, environment := e }) _
  simp only [bind_assoc, pure_bind]
  refine (newEnvironment_runs s f.environment hthis).bind fun t e ht he => ?_
  refine (nextId_runs t (some v)).bind fun u id hu hid => ?_
  obtain ⟨hcreated, hregister⟩ := hid
  refine .require (.pure ⟨?_, rfl, hregister⟩) fun told htold => (htold id hcreated).trans hregister
  refine ⟨hcreated, hf.seated, ?_, fun w hw => ?_⟩
  · show f.isInitializer = _
    rw [hregister, hf.isInitializer]
    rfl
  · cases hregister.symm.trans hw
    exact hu.machine.environments.this _ _ (he "this" v rfl)

theorem extends_moved (m : Machine) (current callDepth : Nat) :
    m.Extends { m with current, callDepth } := ⟨Nat.le_refl _, Nat.le_refl _, .refl _⟩

def moved (s : Estate) (current callDepth : Nat) : Estate where
  register := s.register
  machine := { s.machine with current, callDepth }
  keeps := s.keeps.mono (fun _ _ => rfl) (extends_moved _ _ _) (fun _ _ _ hv => .inl hv)
    fun _ b _ _ hb hv => .inl ⟨b, hb, hv⟩

theorem Holds.moved {v : Value} (hv : s.Holds v) (current callDepth : Nat) :
    (s.moved current callDepth).Holds v :=
  Register.Holds.mono hv (fun _ _ => rfl) (extends_moved _ _ _)

/-- Where the estate was moved at first and is moved again in the end. -/
theorem Later.moved {current callDepth current' callDepth' : Nat}
    (h : (s.moved current callDepth).Later t) (hcurrent : current' = s.machine.current) :
    s.Later (t.moved current' callDepth') :=
  ⟨h.register, ⟨h.machine.created, h.machine.objects, h.machine.environments⟩, hcurrent⟩

theorem inEnvironment_runs (e : Nat) {x : Register × Failure → Eval α} {y : Eval α}
    (hQ : ∀ (t : Estate) a current callDepth, Q t a → Q (t.moved current callDepth) a)
    (h : (s.moved e s.machine.callDepth).Runs x y Q) :
    s.Runs (fun told => inEnvironment e (x told)) (inEnvironment e y) Q := by
  simp only [inEnvironment_eq]
  refine Parallel.Runs.within h rfl rfl (fun _ _ h => h) fun t ht => ?_
  exact ⟨t.moved s.machine.current t.machine.callDepth, Later.moved ht rfl, rfl, rfl,
    fun a b hq => ⟨hq.1, hQ t a _ _ hq.2⟩, fun _ h => h⟩

theorem inCall_runs (s : Estate) (line : Nat) {x : Register × Failure → Eval Value}
    {y : Eval Value} (h : ∀ t, s.Later t → t.Runs x y Holds) :
    s.Runs (fun told => inCall line (x told)) (inCall line y) Holds := by
  have hlater : s.Later (s.moved s.machine.current (s.machine.callDepth + 1)) :=
    ⟨fun _ _ => rfl, extends_moved _ _ _, rfl⟩
  simp only [inCall_eq]
  refine Parallel.Runs.within (h _ hlater) rfl rfl (fun f g h => congrArg (blamed line) h)
    fun t ht => ?_
  exact ⟨t.moved t.machine.current (t.machine.callDepth - 1), Later.moved ht ht.current, rfl, rfl,
    fun a b hq => ⟨hq.1, hq.2.moved _ _⟩, fun _ h => h⟩

end steps

def Ends (s : Estate) : Completion → Prop
  | .normal => True
  | .returned v => s.Holds v

section
variable (ev : Register × Failure → BoundExpr → Eval Value) (ev' : BoundExpr → Eval Value)
  (ex : Register × Failure → BoundStmt → Eval Completion) (ex' : BoundStmt → Eval Completion)
  (enter : Register × Failure → Closure → List Value → Eval Value)
  (enter' : Closure → List Value → Eval Value)

def EvaluateHeld : Prop :=
  ∀ (s : Estate) seat (e : BoundExpr), e.Seated seat → s.Runs (fun told => ev told e) (ev' e) Holds

def ExecuteHeld : Prop :=
  ∀ (s : Estate) seat (st : BoundStmt), st.Seated seat →
    s.Runs (fun told => ex told st) (ex' st) Ends

/-- A function that is bound to an instance gives that, if it is an initializer. -/
def EnterHeld : Prop :=
  ∀ (s : Estate) (f : Closure) (vs : List Value), s.register.Enters s.machine f →
    (∀ v ∈ vs, s.Holds v) → s.Runs (fun told => enter told f vs) (enter' f vs) fun t v =>
      t.Holds v ∧ ∀ receiver ∈ s.register f.id, f.declaration.isInitializer → v = receiver

end

section forms
variable {ev : Register × Failure → BoundExpr → Eval Value} {ev' : BoundExpr → Eval Value}
  {ex : Register × Failure → BoundStmt → Eval Completion} {ex' : BoundStmt → Eval Completion}
  {enter : Register × Failure → Closure → List Value → Eval Value}
  {enter' : Closure → List Value → Eval Value} {seat : Option Seat}

theorem evaluateAll_runs (hev : EvaluateHeld ev ev') {es : List BoundExpr}
    (h : Expr.SeatedList seat es) :
    s.Runs (fun told => evaluateAll (ev told) es) (evaluateAll ev' es)
      fun t vs => ∀ v ∈ vs, t.Holds v := by
  induction es generalizing s with
  | nil => exact .pure fun v hv => nomatch hv
  | cons e es ih =>
    refine (hev s seat e h.1).bind fun t v ht hv => (ih h.2).bind fun u vs hu hvs => .pure ?_
    rintro w (_ | ⟨_, hw⟩)
    · exact hv.later hu
    · exact hvs w hw

theorem executeAll_runs (hex : ExecuteHeld ex ex') {ss : List BoundStmt}
    (h : Stmt.SeatedList seat ss) :
    s.Runs (fun told => executeAll (ex told) ss) (executeAll ex' ss) Ends := by
  induction ss generalizing s with
  | nil => exact .pure trivial
  | cons st ss ih =>
    refine (hex s seat st h.1).bind fun t c _ hc => ?_
    cases c with
    | normal => exact ih h.2
    | returned v => exact .pure hc

theorem executeBlock_runs (hex : ExecuteHeld ex ex') (p : Nat) {b : Bindings Value}
    (hb : ∀ x v, b.find? x = some v → s.Holds v) {body : List BoundStmt}
    (hbody : Stmt.SeatedList seat body) :
    s.Runs (fun told => executeBlock (ex told) p b body) (executeBlock ex' p b body) Ends := by
  refine (newEnvironment_runs s p hb).bind fun t e _ _ => inEnvironment_runs e ?_ ?_
  · intro t c current callDepth hc
    cases c with
    | normal => trivial
    | returned v => exact Holds.moved hc current callDepth
  · exact executeAll_runs hex hbody

theorem apply_runs (hex : ExecuteHeld ex ex') :
    EnterHeld (fun told => apply (ex told)) (apply ex') := by
  intro s f vs hf hvs
  obtain ⟨seat, hseated⟩ := hf.seated
  have harguments (x : String) (v : Value)
      (hv : (Bindings.ofPairs ((f.declaration.parameters.map Token.lexeme).zip vs)).find? x =
        some v) : s.Holds v :=
    hvs v (List.of_mem_zip (Bindings.mem_of_find?_ofPairs hv)).2
  have hbody : Stmt.SeatedList (seat.map Seat.inner) f.declaration.body := by
    cases hd : f.declaration
    rw [hd] at hseated
    exact hseated
  refine (executeBlock_runs hex f.environment harguments hbody).bind fun t c ht hc => ?_
  have hflag := hf.isInitializer
  cases hi : f.isInitializer with
  | true =>
    rw [hi] at hflag
    obtain ⟨hbound, -⟩ := Bool.and_eq_true_iff.1 hflag.symm
    obtain ⟨receiver, hreceiver⟩ := Option.isSome_iff_exists.1 hbound
    have hthis := ht.machine.environments.this _ _ (hf.this receiver hreceiver)
    have hget : t.machine.environments.getAt f.environment 0 "this" = .ok receiver :=
      Environments.getAt_eq_ok.2 ⟨f.environment, rfl, hthis⟩
    refine .get (.ofFault fun v hv => ?_)
    cases hget.symm.trans hv
    refine ⟨holds_of_getAt hget, fun w hw _ => ?_⟩
    exact Option.some.inj (hreceiver.symm.trans hw)
  | false =>
    have hother (v : Value) (receiver : Value) (hreceiver : receiver ∈ s.register f.id)
        (hname : f.declaration.isInitializer) : v = receiver := by
      rw [hi, hname, show s.register f.id = some receiver from hreceiver] at hflag
      cases hflag
    cases c with
    | normal => exact .pure ⟨trivial, hother _⟩
    | returned v => exact .pure ⟨hc, hother _⟩

theorem enter_runs (hex : ExecuteHeld ex ex') :
    EnterHeld (fun told => Register.enter told.1 told.2 (ex told)) (apply ex') := by
  intro s f vs hf hvs
  have h := apply_runs hex s f vs hf hvs
  rw [← bind_pure (apply ex' f vs)]
  refine h.bind fun t v ht hv => .require (.pure hv) fun told htold receiver hreceiver => ?_
  rw [htold f.id (Nat.lt_of_lt_of_le hf.created ht.machine.created), ht.register f.id hf.created]
    at hreceiver
  exact hv.2 receiver hreceiver

/-- A class gives a new instance, and so does its initializer. -/
theorem construct_runs (hen : EnterHeld enter enter') {c : Class} (hc : c.Each Closure.Waits)
    {vs : List Value} (hvs : ∀ v ∈ vs, s.Holds v) :
    s.Runs (fun told => Register.construct told.1 told.2 (enter told) c vs)
      (callValue enter' (.class_ c) vs)
      fun t v => t.Holds v ∧ v = .object s.machine.objects.size c := by
  refine (newInstance_runs s hc).bind fun t receiver ht hreceiver => ?_
  rw [Class.nearest_eq, Class.initializer]
  cases hf : c.findMethod Function.initializerName with
  | none => exact .pure hreceiver
  | some f =>
    have hwaits := hc.findMethod hf
    have hname : f.declaration.isInitializer = true := beq_iff_eq.2 hwaits.name
    refine (bindMethod_runs hwaits hreceiver.1).bind fun u g hu hg => ?_
    obtain ⟨henters, hdeclaration, hregister⟩ := hg
    have hrun := hen u g vs henters fun v hv => ((hvs v hv).later ht).later hu
    refine hrun.returning fun u' v _ hv => ?_
    obtain rfl := hv.2 receiver hregister (hdeclaration ▸ hname)
    exact ⟨rfl, hv.1, hreceiver.2⟩

theorem callValue_runs (hen : EnterHeld enter enter') {callee : Value} (hc : s.Holds callee)
    {vs : List Value} (hvs : ∀ v ∈ vs, s.Holds v) :
    s.Runs (fun told => Register.callValue told.1 told.2 (enter told) callee vs)
      (callValue enter' callee vs) Holds := by
  cases callee with
  | native f =>
    cases f
    exact readClock_runs s
  | function f => exact (hen s f vs hc hvs).mono fun t v _ hv => hv.1
  | class_ c =>
    refine .peek ?_
    rw [← bind_pure (callValue enter' (.class_ c) vs)]
    refine (construct_runs hen hc hvs).bind fun t v ht hv => .require (.pure hv.1) fun _ _ => ?_
    exact ⟨s.machine.objects.size, hv.2, s.keeps.lacks, fun w hw => (hvs w hw).not_refersTo⟩
  | _ => exact .pure trivial

theorem call_runs (settings : Settings) (hen : EnterHeld enter enter') {callee : Value}
    (hc : s.Holds callee) {vs : List Value} (hvs : ∀ v ∈ vs, s.Holds v) (line : Nat) :
    s.Runs (fun told => Register.call settings told.1 told.2 (enter told) callee vs line)
      (call settings enter' callee vs line) Holds := by
  unfold Register.call call
  cases callee.arity? with
  | none => exact .throw _
  | some expected =>
    dsimp only
    split
    · exact .throw _
    · refine .get ?_
      split
      · exact .throw _
      · exact inCall_runs s line fun t ht =>
          callValue_runs hen (hc.later ht) fun v hv => (hvs v hv).later ht

theorem getProperty_runs {object : Value} (ho : s.Holds object) (name : Token) :
    s.Runs (fun told => getPropertyBy (Register.bindMethod told.1 told.2) object name)
      (getProperty object name) Holds := by
  cases object with
  | object ref c =>
    refine (getField?_runs s ref name.lexeme).bind fun t v? ht hv => ?_
    cases v? with
    | some v => exact .pure (hv v rfl)
    | none =>
      dsimp only
      cases hf : c.findMethod name.lexeme with
      | none => exact .throw _
      | some f =>
        exact (bindMethod_runs (Class.Each.findMethod ho.2 hf) (ho.later ht)).bind
          fun u g _ hg => .pure hg.1
  | _ => exact .throw _

theorem superMethod_runs (s : Estate) (keyword : Token) (target : Hops) (method : Token) :
    s.Runs (fun told => superMethodBy (Register.bindMethod told.1 told.2) keyword target method)
      (superMethod keyword target method) Holds := by
  cases target with
  | none => exact .throw _
  | some d =>
    refine .get (Runs.bind (Q := Holds) (.ofFault fun v hv => holds_of_getAt hv) ?_)
    intro t superclass ht hsuper
    refine Runs.bind (Q := Holds) (.ofFault fun v hv => (holds_of_getAt hv).later ht) ?_
    intro u receiver hu hreceiver
    cases superclass with
    | class_ c =>
      dsimp only
      cases hf : c.findMethod method.lexeme with
      | none => exact .throw _
      | some f =>
        exact (bindMethod_runs (Class.Each.findMethod hsuper hf) hreceiver).bind
          fun _ g _ hg => .pure hg.1
    | _ => exact .throw _

theorem newFunction_runs (s : Estate) (declaration : BoundFunction) (isInitializer : Bool) :
    s.Runs (fun _ => newFunction declaration isInitializer) (newFunction declaration isInitializer)
      fun t f => f.id < t.machine.created ∧ t.register f.id = none ∧ f.declaration = declaration ∧
        f.isInitializer = isInitializer := by
  refine (nextId_runs s none).bind fun t id _ hid => .get (.pure ?_)
  exact ⟨hid.1, hid.2, rfl, rfl⟩

theorem newMethods_runs {fs : List BoundFunction} (h : Stmt.MethodsSeated seat fs)
    {ms : Bindings Closure} (hms : ∀ x f, ms.find? x = some f → f.Waits x) :
    s.Runs (fun _ => newMethods fs ms) (newMethods fs ms) fun _ ms =>
      ∀ x f, ms.find? x = some f → f.Waits x := by
  induction fs generalizing s ms with
  | nil => exact .pure hms
  | cons f fs ih =>
    refine (newFunction_runs s f f.isInitializer).bind fun t g _ hg => ih h.2 fun x g' hx => ?_
    obtain ⟨-, -, rfl, hi⟩ := hg
    rw [Bindings.find?_put] at hx
    split at hx
    · next he =>
      cases hx
      exact ⟨⟨seat, h.1⟩, he, hi⟩
    · exact hms x g' hx

theorem assignClass_runs {name : Token} (hn : name.Plain) {k : Nat → Class}
    (hk : ∀ id, (k id).Each Closure.Waits) :
    s.Runs
      (fun _ => nextId >>= fun id => get >>= fun m => assignFrom m.current name (.class_ (k id)))
      (nextId >>= fun id => get >>= fun m => assignFrom m.current name (.class_ (k id)))
      fun _ _ => True :=
  (nextId_runs s none).bind fun t id _ _ => .get (assignFrom_runs t.machine.current hn (hk id))

theorem declareClass_runs (hev : EvaluateHeld ev ev') {name : Token} (hn : name.Plain)
    {superclass : Option (Superclass Hops)} {methods : List BoundFunction}
    (hm : Stmt.MethodsSeated seat methods) :
    s.Runs (fun told => declareClass (ev told) name superclass methods)
      (declareClass ev' name superclass methods) fun _ _ => True := by
  cases superclass with
  | none =>
    refine (define_runs hn (v := .nil) trivial).bind fun t _ _ _ => ?_
    refine (newMethods_runs hm fun x f (hx : Bindings.find? [] x = some f) => nomatch hx).bind
      fun u ms _ hms => ?_
    exact assignClass_runs hn (k := (.root · name.lexeme ms)) fun _ => hms
  | some superclass =>
    refine (hev s seat superclass.expr trivial).bind fun t v _ hv => ?_
    cases v with
    | class_ c =>
      refine (define_runs hn (v := .nil) trivial).bind fun u _ hu _ => .get ?_
      have hsuper (x : String) (w : Value)
          (hw : Bindings.find? [("super", Value.class_ c)] x = some w) : u.Holds w := by
        obtain ⟨rfl, rfl⟩ := Bindings.eq_of_find?_singleton hw
        exact hv
      refine (newEnvironment_runs u u.machine.current hsuper).bind fun u₁ e _ _ => ?_
      refine (inEnvironment_runs e (fun _ _ _ _ h => h) (newMethods_runs hm
        fun x f (hx : Bindings.find? [] x = some f) => nomatch hx)).bind fun u₂ ms _ hms => ?_
      exact assignClass_runs hn (k := (.derived · name.lexeme ms c)) fun _ => ⟨hms, hv⟩
    | _ => exact .throw _

theorem loop_runs {x : Register × Failure → Eval Value} {y : Eval Value}
    {z : Register × Failure → Eval Completion} {z' : Eval Completion}
    (htest : ∀ t, s.Later t → t.Runs x y Holds) (hbody : ∀ t, s.Later t → t.Runs z z' Ends)
    (turns : Nat) :
    s.Runs (fun told => loop (x told) (z told) turns) (loop y z' turns) Ends := by
  induction turns generalizing s with
  | zero => exact .throw _
  | succ turns ih =>
    refine (htest s (.refl s)).bind fun t v ht _ => ?_
    split
    · refine (hbody t ht).bind fun u c hu hc => ?_
      cases c with
      | normal =>
        exact ih (fun u' hu' => htest u' ((ht.trans hu).trans hu'))
          fun u' hu' => hbody u' ((ht.trans hu).trans hu')
      | returned v => exact .pure hc
    · exact .pure trivial

theorem holds_of_isPrimitive {v : Value} (h : v.IsPrimitive) : s.Holds v := by
  cases v <;> trivial

theorem evaluateForm_runs (settings : Settings) (hev : EvaluateHeld ev ev')
    (hen : EnterHeld enter enter') {e : BoundExpr} (he : e.Seated seat) :
    s.Runs (fun told => Register.evaluateForm settings told.1 told.2 (ev told) (enter told) e)
      (evaluateForm settings ev' enter' e) Holds := by
  cases e with
  | literal line value => exact .pure (holds_of_isPrimitive (Value.isPrimitive_ofLiteral value))
  | grouping line inner => exact hev s seat inner he
  | unary operator right =>
    exact (hev s seat right he).bind fun t v _ _ => .ofOperator _ fun w hw =>
      holds_of_isPrimitive (Value.isPrimitive_of_unary hw)
  | binary left operator right =>
    refine (hev s seat left he.1).bind fun t v _ _ => (hev t seat right he.2).bind fun u w _ _ => ?_
    exact .ofOperator _ fun w hw => holds_of_isPrimitive (Value.isPrimitive_of_binary hw)
  | logical left operator right =>
    refine (hev s seat left he.1).bind fun t v _ hv => ?_
    split
    · exact .pure hv
    · exact hev t seat right he.2
  | read name target => exact lookUp_runs s name target
  | assign line name target value =>
    refine (hev s seat value he.2).bind fun t v _ hv => ?_
    exact (assign_runs he.1 target hv).bind fun u _ hu _ => .pure (hv.later hu)
  | call callee paren arguments =>
    refine (hev s seat callee he.1).bind fun t v _ hv => ?_
    refine (evaluateAll_runs hev he.2).bind fun u vs hu hvs => ?_
    exact call_runs settings hen (hv.later hu) hvs paren.line
  | get object name => exact (hev s seat object he).bind fun t v _ hv => getProperty_runs hv name
  | set line object name value =>
    refine (hev s seat object he.1).bind fun t v _ _ => ?_
    cases v with
    | object ref c =>
      refine (hev t seat value he.2).bind fun u w _ hw => ?_
      exact (setField_runs u ref name.lexeme hw).bind fun u' _ hu' _ => .pure (hw.later hu')
    | _ => exact .throw _
  | this keyword target => exact lookUp_runs s keyword target
  | super keyword target method => exact superMethod_runs s keyword target method

theorem executeForm_runs (settings : Settings) (hev : EvaluateHeld ev ev')
    (hex : ExecuteHeld ex ex') {st : BoundStmt} (hst : st.Seated seat) :
    s.Runs (fun told => executeForm settings (ev told) (ex told) st)
      (executeForm settings ev' ex' st) Ends := by
  cases st with
  | expression line value => exact (hev s seat value hst).bind fun _ _ _ _ => .pure trivial
  | print line value =>
    exact (hev s seat value hst).bind fun t _ _ _ => (emit_runs t _).bind fun _ _ _ _ =>
      .pure trivial
  | var name initializer =>
    have hdefine {t : Estate} {v : Value} (hv : t.Holds v) :
        t.Runs (fun _ => define name.lexeme v >>= fun _ => pure Completion.normal)
          (define name.lexeme v >>= fun _ => pure .normal) Ends :=
      (define_runs hst.1 hv).bind fun _ _ _ _ => .pure trivial
    cases initializer with
    | none => exact hdefine (v := .nil) trivial
    | some e => exact (hev s seat e (hst.2 e rfl)).bind fun t v _ hv => hdefine hv
  | block line body =>
    refine .get (executeBlock_runs hex s.machine.current (fun x v hv => ?_) hst)
    exact nomatch (hv : Bindings.find? [] x = some v)
  | ifThen line condition thenBranch =>
    refine (hev s seat condition hst.1).bind fun t _ _ _ => ?_
    split
    · exact hex t seat thenBranch hst.2
    · exact .pure trivial
  | ifElse line condition thenBranch elseBranch =>
    refine (hev s seat condition hst.1).bind fun t _ _ _ => ?_
    split
    · exact hex t seat thenBranch hst.2.1
    · exact hex t seat elseBranch hst.2.2
  | while_ line condition body =>
    exact loop_runs (fun t _ => hev t seat condition hst.1) (fun t _ => hex t seat body hst.2)
      settings.turns
  | function f =>
    refine (newFunction_runs s f false).bind fun t g _ hg => ?_
    obtain ⟨hcreated, hregister, rfl, hi⟩ := hg
    have hg : t.Holds (.function g) :=
      ⟨hcreated, ⟨seat, hst.2⟩, by rw [hi, hregister]; rfl, fun v hv => by
        rw [hregister] at hv
        cases hv⟩
    exact (define_runs hst.1 hg).bind fun _ _ _ _ => .pure trivial
  | return_ keyword value =>
    cases value with
    | none => exact .pure trivial
    | some e => exact (hev s seat e (hst e rfl)).bind fun _ _ _ hv => .pure hv
  | class_ line name superclass methods =>
    exact (declareClass_runs hev hst.1 hst.2).bind fun _ _ _ _ => .pure trivial

end forms

theorem evaluate_execute_held (settings : Settings) (nesting : Nat) :
    EvaluateHeld (fun told => Register.evaluate settings told.1 told.2 nesting)
        (evaluate settings nesting) ∧
      ExecuteHeld (fun told => Register.execute settings told.1 told.2 nesting)
        (execute settings nesting) := by
  induction nesting with
  | zero => exact ⟨fun s _ _ _ => .throw _, fun s _ _ _ => .throw _⟩
  | succ nesting ih =>
    obtain ⟨hev, hex⟩ := ih
    refine ⟨fun s seat e he => evaluateForm_runs settings hev (enter_runs hex) he,
      fun s seat st hst => ?_⟩
    simp only [Register.execute, execute]
    split
    · exact (emit_runs s _).bind fun t _ _ _ => executeForm_runs settings hev hex hst
    · exact executeForm_runs settings hev hex hst

theorem executeProgram_runs (settings : Settings) {ss : List BoundStmt}
    (h : Stmt.SeatedList none ss) :
    s.Runs (fun told => Register.executeProgram settings told.1 told.2 ss)
      (executeProgram settings ss) fun _ _ => True := by
  induction ss generalizing s with
  | nil => exact .pure trivial
  | cons st ss ih =>
    exact ((evaluate_execute_held settings settings.nesting).2 s none st h.1).bind
      fun t _ _ _ => ih h.2

theorem supervises :
    estates.Supervises fun told settings => Register.executeProgram settings told.1 told.2 where
  left_eq _ := rfl
  fails_eq h := h
  current_eq h := h.current
  rests s callDepth events := by
    have hm : s.machine.Extends { s.machine with callDepth, events } :=
      ⟨Nat.le_refl _, Nat.le_refl _, .refl _⟩
    let t : Estate := ⟨s.register, _, s.keeps.mono (fun _ _ => rfl) hm (fun _ _ _ hv => .inl hv)
      fun _ b _ _ hb hv => .inl ⟨b, hb, hv⟩⟩
    exact ⟨t, ⟨fun _ _ => rfl, hm, rfl⟩, rfl⟩
  runs s settings program ha _ :=
    Parallel.Runs.mono (executeProgram_runs settings (Stmt.seatedList_of_accepted ha))
      fun _ _ _ _ _ => trivial

def initial (clock : Float) : Estate where
  register _ := none
  machine := .initial clock
  keeps := by
    refine ⟨Machine.globals_lt_initial clock, fun e x v hv => ?_, fun ref b x v hb _ => ?_⟩
    · obtain ⟨rfl, rfl⟩ := Machine.eq_clock_of_initial hv
      trivial
    · cases (Machine.objects_initial clock ref).symm.trans hb

end Estate

namespace Session

/-- In every session there is a register of the instances that methods are bound to. Whatever is
given to the session and whatever the alarm, the session goes as if each call were checked: a call
of an initializer gives the instance that the register has for it, however the body ends; a call of
a class runs just the nearest initializer on its chain, bound to a new instance, and gives an
instance of that very class that was nowhere on the machine before, nor among the arguments. -/
theorem constructions_run (clock : Float) (inputs : List Input) :
    ∃ R : Register, ∀ alarm : Failure,
      inputs.foldl (Input.runBy fun settings => Register.executeProgram settings R alarm)
          (initial clock) =
        inputs.foldl Input.run (initial clock) := by
  have hinitial : (initial clock).machine = estates.right (Estate.initial clock) := rfl
  obtain ⟨t, -, -, ht⟩ := foldl_follows Estate.supervises hinitial rfl inputs
  exact ⟨t.register, fun alarm => ht (t.register, alarm) fun _ _ => rfl⟩

end Session
end Lox
