import Lox.Proofs.Agreement

/-! Forms on sound machines. When what lies inside a form is done alike by two evaluators, so is
the form; nothing in an accepted program meets a fault, and its values stay good. -/

namespace Lox

/-- Only a function can be returned from. -/
def Completion.Good (activation : Activation) (envs : Environments) : Completion → Prop
  | .normal => True
  | .returned v => v.Good envs ∧ activation ≠ .topLevel

section
variable (ev' ev : BoundExpr → Eval Value) (ex' ex : BoundStmt → Eval Completion)
  (enter' enter : Closure → List Value → Eval Value)

def EvaluateAlike : Prop :=
  ∀ (e : RawExpr) (s : Surroundings) (m : Machine), e.problems s = [] →
    e.Regular Token.Spelled → m.Sound → m.StandsAt s →
      Agree m (ev' (e.bound s)) (ev (e.bound s)) fun envs v => v.Good envs

/-- The environment that a statement leaves supports what follows it. -/
def ExecuteAlike : Prop :=
  ∀ (st : RawStmt) (s : Surroundings) (m : Machine), st.problems s = [] →
    st.Regular Token.Spelled → s.Settled → m.Sound → m.StandsAt s →
      Agree m (ex' (st.bound s)) (ex (st.bound s)) fun envs c =>
        c.Good s.activation envs ∧
          (c = .normal → envs.Supports m.current (Stmt.after s st))

def EnterAlike : Prop :=
  ∀ (f : Closure) (arguments : List Value) (m : Machine), m.Sound → f.Good m.environments →
    arguments.length = f.arity → (∀ v ∈ arguments, v.Good m.environments) →
      Agree m (enter' f arguments) (enter f arguments) fun envs v => v.Good envs

end

namespace Eval
variable {ev' ev : BoundExpr → Eval Value} {ex' ex : BoundStmt → Eval Completion}
  {enter' enter : Closure → List Value → Eval Value} {settings : Settings}
  {m : Machine} {s : Surroundings}

theorem unready_of_misread {name : Token} (h : s.misread name = []) :
    s.unready name.lexeme = false := by
  obtain ⟨scopes, pending, activation, context⟩ := s
  cases scopes with
  | nil => rfl
  | cons scope scopes =>
    by_cases hf : scope.find? name.lexeme = some false
    · simp [Surroundings.misread, hf] at h
    · simp [Surroundings.unready, hf]

theorem evaluateAll_agrees (hev : EvaluateAlike ev' ev) {es : List RawExpr}
    (hp : Expr.problemsList s es = []) (hr : Expr.RegularList Token.Spelled es) (hm : m.Sound)
    (hs : m.StandsAt s) :
    Agree m (evaluateAll ev' (Expr.boundList s es)) (evaluateAll ev (Expr.boundList s es))
      fun envs vs => vs.length = es.length ∧ ∀ v ∈ vs, v.Good envs := by
  induction es generalizing m with
  | nil => exact .pure hm ⟨rfl, fun v hv => nomatch hv⟩
  | cons e es ih =>
    obtain ⟨hpe, hps⟩ := List.append_eq_nil_iff.1 hp
    refine (hev e s m hpe hr.1 hm hs).bind fun v m₁ hm₁ hg₁ hv => ?_
    refine (ih hps hr.2 hm₁ (hs.mono hg₁)).bind fun vs m₂ hm₂ hg₂ hvs => .pure hm₂ ⟨?_, ?_⟩
    · exact congrArg (· + 1) hvs.1
    · intro w hw
      rcases List.mem_cons.1 hw with rfl | hw
      · exact hv.mono hg₂.environments
      · exact hvs.2 w hw

theorem callValue_agrees (hen : EnterAlike enter' enter) {callee : Value} {arguments : List Value}
    (hm : m.Sound) (hc : callee.Good m.environments)
    (ha : callee.arity? = some arguments.length)
    (hv : ∀ v ∈ arguments, v.Good m.environments) :
    Agree m (callValue enter' callee arguments) (callValue enter callee arguments)
      fun envs v => v.Good envs := by
  cases callee with
  | native f => cases f; exact readClock_agrees hm
  | function f => exact hen f arguments m hm hc (Option.some.inj ha).symm hv
  | class_ c =>
    refine (newInstance_agrees hm hc).bind fun receiver m₁ hm₁ hg₁ hr => ?_
    obtain ⟨hr, ref, rfl⟩ := hr
    cases hi : c.initializer with
    | none => exact .pure hm₁ hr
    | some f =>
      have hf := (Class.All.findMethod hc hi).mono hg₁.environments
      refine (bindMethod_agrees hm₁ hf hr).bind fun f' m₂ hm₂ hg₂ hf' => ?_
      have hlength : arguments.length = f'.arity := by
        have h : c.arity = arguments.length := Option.some.inj ha
        rw [Class.arity, hi] at h
        exact h.symm.trans (congrArg (·.parameters.length) hf'.2.symm)
      refine (hen f' arguments m₂ hm₂ hf'.1 hlength fun v hv' =>
        (hv v hv').mono (hg₁.trans hg₂).environments).bind fun _ m₃ hm₃ hg₃ _ => ?_
      exact .pure hm₃ (hr.mono (hg₂.trans hg₃).environments)
  | _ => exact .pure hm trivial

theorem call_agrees (hen : EnterAlike enter' enter) {callee : Value} {arguments : List Value}
    (line : Nat) (hm : m.Sound) (hc : callee.Good m.environments)
    (hv : ∀ v ∈ arguments, v.Good m.environments) :
    Agree m (call settings enter' callee arguments line)
      (call settings enter callee arguments line) fun envs v => v.Good envs := by
  unfold call
  cases ha : callee.arity? with
  | none => exact raise_agrees hm _ _
  | some expected =>
    dsimp only
    by_cases hn : arguments.length ≠ expected
    · simp only [if_pos hn]
      exact raise_agrees hm _ _
    · simp only [if_neg hn]
      refine Agree.get ?_
      by_cases hd : settings.calls ≤ m.callDepth
      · simp only [if_pos hd]
        exact raise_agrees hm _ _
      · simp only [if_neg hd]
        exact inCall_agrees line (callValue_agrees hen ⟨hm.globals, hm.bound, hm.fields⟩ hc
          (ha.trans (congrArg some (Decidable.not_not.1 hn).symm)) hv)

theorem getProperty_agrees (hm : m.Sound) {object : Value} (ho : object.Good m.environments)
    (name : Token) :
    Agree m (getProperty object name) (getProperty object name) fun envs v => v.Good envs := by
  cases object with
  | object ref c =>
    refine (getField?_agrees hm ref name.lexeme).bind fun v? m₁ hm₁ hg₁ hv => ?_
    have ho₁ := ho.mono hg₁.environments
    cases v? with
    | some v => exact .pure hm₁ (hv v rfl)
    | none =>
      dsimp only
      cases hf : c.findMethod name.lexeme with
      | none => exact raise_agrees hm₁ _ _
      | some f =>
        refine (bindMethod_agrees hm₁ (Class.All.findMethod ho₁ hf) ho₁).bind
          fun f' m₂ hm₂ _ hf' => .pure hm₂ hf'.1
  | _ => exact raise_agrees hm _ _

theorem superOperands (hm : m.Sound) (hs : m.StandsAt s) {keyword : Token}
    (hp : s.misusedSuper keyword = []) :
    ∃ d c ref c', s.hops "super" = some (d + 1) ∧
      m.environments.getAt m.current (d + 1) "super" = .ok (.class_ c) ∧
      m.environments.getAt m.current d "this" = .ok (.object ref c') ∧
      (Value.class_ c).Good m.environments ∧ (Value.object ref c').Good m.environments := by
  have hc : s.context = .subclass := by
    unfold Surroundings.misusedSuper at hp
    split at hp
    · cases hp
    · cases hp
    · assumption
  obtain ⟨d, ht, hu⟩ := hs.lawful.super hc
  obtain ⟨superclass, hsv, hsf⟩ := hs.getAt hm hu hs.lawful.superReady
  obtain ⟨receiver, hrv, hrf⟩ := hs.getAt hm ht hs.lawful.thisReady
  obtain ⟨c, rfl⟩ := hsf.super rfl
  obtain ⟨ref, c', rfl⟩ := hrf.this rfl
  exact ⟨d, c, ref, c', hu, hsv, hrv, hsf.good, hrf.good⟩

theorem superMethod_agrees (hm : m.Sound) (hs : m.StandsAt s) {keyword : Token}
    (hk : keyword.lexeme = "super") (hp : s.misusedSuper keyword = []) (method : Token) :
    Agree m (superMethod keyword (s.hops keyword.lexeme) method)
      (superMethod keyword (s.hops keyword.lexeme) method) fun envs v => v.Good envs := by
  obtain ⟨d, c, ref, c', hd, hsuper, hthis, hc, hr⟩ := superOperands hm hs hp
  rw [hk, hd]
  refine Agree.get ?_
  have hok (v : Value) : (ofFault (.ok v) : Eval Value) = Pure.pure v := rfl
  simp only [hsuper, hthis, Nat.add_sub_cancel, hok, pure_bind]
  cases hf : c.findMethod method.lexeme with
  | none => exact raise_agrees hm _ _
  | some f =>
    exact (bindMethod_agrees hm (Class.All.findMethod hc hf) hr).bind
      fun f' m₁ hm₁ _ hf' => .pure hm₁ hf'.1

theorem good_of_isPrimitive {v : Value} (h : v.IsPrimitive) (envs : Environments) :
    v.Good envs := by
  cases v <;> trivial

theorem evaluateForm_agrees (settings : Settings) (hev : EvaluateAlike ev' ev)
    (hen : EnterAlike enter' enter)
    {e : RawExpr} (hp : e.problems s = []) (hr : e.Regular Token.Spelled) (hm : m.Sound)
    (hs : m.StandsAt s) :
    Agree m (evaluateForm settings ev' enter' (e.bound s))
      (evaluateForm settings ev enter (e.bound s)) fun envs v => v.Good envs := by
  cases e with
  | literal line value =>
    exact .pure hm (good_of_isPrimitive (Value.isPrimitive_ofLiteral value) _)
  | grouping line inner => exact hev inner s m hp hr hm hs
  | unary operator right =>
    refine (hev right s m hp hr.2 hm hs).bind fun v m₁ hm₁ hg₁ hv => ?_
    exact ofOperator_agrees hm₁ _ _ fun w hw =>
      good_of_isPrimitive (Value.isPrimitive_of_unary hw) _
  | binary left operator right =>
    obtain ⟨hpl, hpr⟩ := List.append_eq_nil_iff.1 hp
    refine (hev left s m hpl hr.1 hm hs).bind fun v m₁ hm₁ hg₁ hv => ?_
    refine (hev right s m₁ hpr hr.2.2 hm₁ (hs.mono hg₁)).bind fun w m₂ hm₂ hg₂ hw => ?_
    exact ofOperator_agrees hm₂ _ _ fun u hu =>
      good_of_isPrimitive (Value.isPrimitive_of_binary hu) _
  | logical left operator right =>
    obtain ⟨hpl, hpr⟩ := List.append_eq_nil_iff.1 hp
    refine (hev left s m hpl hr.1 hm hs).bind fun v m₁ hm₁ hg₁ hv => ?_
    by_cases hd : Value.decides operator.kind v
    · simp only [if_pos hd]
      exact .pure hm₁ hv
    · simp only [if_neg hd]
      exact hev right s m₁ hpr hr.2.2 hm₁ (hs.mono hg₁)
  | read name _ => exact lookUp_agrees hm hs name (unready_of_misread hp)
  | assign line name _ value =>
    refine (hev value s m hp hr.2 hm hs).bind fun v m₁ hm₁ hg₁ hv => ?_
    refine (assign_agrees hm₁ (hs.mono hg₁) name (hv.fits hr.1)).bind fun _ m₂ hm₂ hg₂ _ => ?_
    exact .pure hm₂ (hv.mono hg₂.environments)
  | call callee paren arguments =>
    obtain ⟨hpc, hpa⟩ := List.append_eq_nil_iff.1 hp
    refine (hev callee s m hpc hr.1 hm hs).bind fun c m₁ hm₁ hg₁ hc => ?_
    refine (evaluateAll_agrees hev hpa hr.2.2 hm₁ (hs.mono hg₁)).bind fun vs m₂ hm₂ hg₂ hvs => ?_
    exact call_agrees hen paren.line hm₂ (hc.mono hg₂.environments) hvs.2
  | get object name =>
    refine (hev object s m hp hr.1 hm hs).bind fun o m₁ hm₁ hg₁ ho => ?_
    exact getProperty_agrees hm₁ ho name
  | set line object name value =>
    obtain ⟨hpv, hpo⟩ := List.append_eq_nil_iff.1 hp
    refine (hev object s m hpo hr.1 hm hs).bind fun o m₁ hm₁ hg₁ _ => ?_
    cases o with
    | object ref c =>
      refine (hev value s m₁ hpv hr.2.2 hm₁ (hs.mono hg₁)).bind fun v m₂ hm₂ hg₂ hv => ?_
      refine (setField_agrees hm₂ ref name.lexeme hv).bind fun _ m₃ hm₃ hg₃ _ => ?_
      exact .pure hm₃ (hv.mono hg₃.environments)
    | _ => exact raise_agrees hm₁ _ _
  | this keyword _ =>
    have hk := Token.lexeme_this hr.1 hr.2
    have hc : ¬ s.context = .outside := fun hc => by
      simp [Expr.problems, Surroundings.misusedThis, hc] at hp
    simp only [Expr.bound, if_neg hc]
    exact lookUp_agrees hm hs keyword (hk ▸ hs.lawful.thisReady)
  | super keyword _ method =>
    exact superMethod_agrees hm hs (Token.lexeme_super hr.1.1 hr.1.2) hp method

theorem executeAll_agrees (hex : ExecuteAlike ex' ex) {ss : List RawStmt}
    (hp : Stmt.problemsList s ss = []) (hr : Stmt.RegularList Token.Spelled ss) (hb : s.Settled)
    (hm : m.Sound) (hs : m.StandsAt s) :
    Agree m (executeAll ex' (Stmt.boundList s ss)) (executeAll ex (Stmt.boundList s ss))
      fun envs c => c.Good s.activation envs := by
  induction ss generalizing s m with
  | nil => exact .pure hm trivial
  | cons st ss ih =>
    obtain ⟨hps, hpl⟩ := List.append_eq_nil_iff.1 hp
    refine (hex st s m hps hr.1 hb hm hs).bind fun c m₁ hm₁ hg₁ hc => ?_
    cases c with
    | returned v => exact .pure hm₁ hc.1
    | normal =>
      have hs₁ : m₁.StandsAt (Stmt.after s st) :=
        ⟨hg₁.current ▸ hc.2 rfl, Stmt.lawful_after hs.lawful hr.1⟩
      have h := ih hpl hr.2 (Stmt.settled_after hb hr.1) hm₁ hs₁
      rwa [Stmt.activation_after] at h

/-- A block whose scope opens with names that its environment binds at once. -/
theorem executeBlock_agrees (hex : ExecuteAlike ex' ex) {p : Nat} {b : Bindings Bool}
    {values : Bindings Value} {body : List RawStmt} (hm : m.Sound)
    (hs : m.environments.Supports p s) (hsettled : s.Settled)
    (hv : ∀ x v, values.find? x = some v → v.Fits m.environments x)
    (hb : ∀ x, (b.find? x).isSome → (values.find? x).isSome)
    (hlawful : (s.push b).Lawful) (hready : (s.push b).Settled)
    (hp : Stmt.problemsList (s.push b) body = []) (hr : Stmt.RegularList Token.Spelled body) :
    Agree m (executeBlock ex' p values (Stmt.boundList (s.push b) body))
      (executeBlock ex p values (Stmt.boundList (s.push b) body))
      fun envs c => c.Good s.activation envs := by
  refine (newEnvironment_agrees hm hs.exists_ hv).bind fun e m₁ hm₁ hg₁ he =>
    inEnvironment_agrees ?_
  obtain ⟨hlt, hsize, hlink, hfind⟩ := he
  exact executeAll_agrees hex hp hr hready ⟨hm₁.globals, hm₁.bound, hm₁.fields⟩
    ⟨(hs.mono hg₁.environments).push hsettled hsize hlink hlt fun x hx => hfind x (hb x hx),
      hlawful⟩

/-- Every parameter is bound to an argument when a function is entered, and nothing else is. -/
theorem parameters_fit {parameters : List Token} {arguments : List Value} {envs : Environments}
    (hp : ∀ p ∈ parameters, p.Names Token.Spelled) (ha : ∀ v ∈ arguments, v.Good envs) {x : String}
    {v : Value}
    (hv : (Bindings.ofPairs ((parameters.map Token.lexeme).zip arguments)).find? x = some v) :
    v.Fits envs x := by
  have hmem := Bindings.mem_of_find?_ofPairs hv
  obtain ⟨p, hpm, rfl⟩ := List.mem_map.1 (List.of_mem_zip hmem).1
  exact (ha v (List.of_mem_zip hmem).2).fits (hp p hpm)

theorem parameters_bound {parameters : List Token} {arguments : List Value}
    (hn : arguments.length = parameters.length) {x : String}
    (hx : ((Surroundings.parameterScope parameters).find? x).isSome) :
    ((Bindings.ofPairs ((parameters.map Token.lexeme).zip arguments)).find? x).isSome := by
  have hmem : x ∈ parameters.map Token.lexeme := by
    rw [Surroundings.find?_parameterScope] at hx
    by_cases h : x ∈ parameters.map Token.lexeme
    · exact h
    · simp [h] at hx
  have hle : (parameters.map Token.lexeme).length ≤ arguments.length := by
    rw [List.length_map]
    omega
  rw [Bindings.find?_ofPairs, Bindings.isSome_find?, Bindings.names, List.map_reverse,
    List.map_fst_zip hle]
  exact List.mem_reverse.2 hmem

theorem apply_agrees (hex : ExecuteAlike ex' ex) : EnterAlike (apply ex') (apply ex) := by
  intro f arguments m hm hf hn ha
  obtain ⟨⟨place, activation, ⟨name, parameters, body⟩, hw, hsettled, hs⟩, hi⟩ := hf
  obtain ⟨id, declaration, environment, isInitializer⟩ := f
  obtain ⟨rfl, hp, ⟨hname, hparameters, hbody⟩, hactivation, hlawful⟩ := hw
  have hp : Stmt.problemsList (place.entering activation parameters) body = [] :=
    (List.append_eq_nil_iff.1 hp).2
  have hlawful := hlawful.entering activation hparameters
  have hready := Surroundings.settled_entering place activation parameters
  refine Agree.bind (Q := fun envs c => c.Good activation envs) ?_ ?_
  · show Agree m
      (executeBlock ex' environment (.ofPairs ((parameters.map Token.lexeme).zip arguments))
        (Stmt.boundList (place.entering activation parameters) body))
      (executeBlock ex environment (.ofPairs ((parameters.map Token.lexeme).zip arguments))
        (Stmt.boundList (place.entering activation parameters) body)) _
    rw [Surroundings.entering_eq] at hp hlawful hready ⊢
    exact executeBlock_agrees hex hm (hs.enter activation) hsettled
      (fun x v => parameters_fit hparameters ha) (fun x => parameters_bound hn) hlawful
      hready hp hbody
  · intro c m₁ hm₁ hg₁ hc
    cases isInitializer with
    | false =>
      cases c with
      | normal => exact .pure hm₁ trivial
      | returned v => exact .pure hm₁ hc.1
    | true =>
      obtain ⟨v, hv⟩ := Option.isSome_iff_exists.1 (hg₁.environments.bound _ _ (hi rfl))
      have hget : m₁.environments.getAt environment 0 "this" = .ok v := by
        simp [Environments.getAt, Environments.ancestor, Environments.ancestor?, hv]
      refine Agree.get ?_
      simp only [hget]
      exact .pure hm₁ (hm₁.bound _ _ v hv).good

theorem loop_agrees (hev : EvaluateAlike ev' ev) (hex : ExecuteAlike ex' ex) {condition : RawExpr}
    {body : RawStmt} (hpc : condition.problems s = []) (hrc : condition.Regular Token.Spelled)
    (hpb : body.problems s = []) (hrb : body.Regular Token.Spelled) (hb : s.Settled)
    (hm : m.Sound) (hs : m.StandsAt s) (turns : Nat) :
    Agree m (loop (ev' (condition.bound s)) (ex' (body.bound s)) turns)
      (loop (ev (condition.bound s)) (ex (body.bound s)) turns)
      fun envs c => c.Good s.activation envs := by
  induction turns generalizing m with
  | zero => exact throw_agrees hm rfl
  | succ turns ih =>
    refine (hev condition s m hpc hrc hm hs).bind fun v m₁ hm₁ hg₁ _ => ?_
    have hs₁ := hs.mono hg₁
    cases v.isTruthy with
    | false => exact .pure hm₁ trivial
    | true =>
      refine (hex body s m₁ hpb hrb hb hm₁ hs₁).bind fun c m₂ hm₂ hg₂ hc => ?_
      cases c with
      | normal => exact ih hm₂ (hs₁.mono hg₂)
      | returned w => exact .pure hm₂ hc.1

theorem newFunction_agrees (hm : m.Sound) (declaration : BoundFunction) (isInitializer : Bool) :
    Agree m (newFunction declaration isInitializer) (newFunction declaration isInitializer)
      fun _ f => f.declaration = declaration ∧ f.environment = m.current ∧
        f.isInitializer = isInitializer := by
  refine (nextId_agrees hm).bind fun id m₁ hm₁ hg₁ _ => Agree.get ?_
  exact .pure hm₁ ⟨rfl, hg₁.current, rfl⟩

/-- Methods are created where only `this` is missing around them. -/
theorem newMethods_agrees {fs : List RawFunction} {methods : Bindings Closure}
    (hp : Stmt.methodsProblems (s.push [("this", true)]) fs = [])
    (hr : Stmt.MethodsRegular Token.Spelled fs) (hlawful : (s.push [("this", true)]).Lawful)
    (hb : s.Settled) (hm : m.Sound) (hs : m.environments.Supports m.current s)
    (hf : ∀ p ∈ methods, p.2.GoodMethod m.environments) :
    Agree m (newMethods (Stmt.methodsBound (s.push [("this", true)]) fs) methods)
      (newMethods (Stmt.methodsBound (s.push [("this", true)]) fs) methods)
      fun envs ms => ∀ p ∈ ms, p.2.GoodMethod envs := by
  induction fs generalizing m methods with
  | nil => exact .pure hm hf
  | cons f fs ih =>
    obtain ⟨hpf, hps⟩ := List.append_eq_nil_iff.1 hp
    refine (newFunction_agrees hm _ _).bind fun c m₁ hm₁ hg₁ hc => ?_
    have hs₁ : m₁.environments.Supports m₁.current s := hg₁.current ▸ hs.mono hg₁.environments
    have hc₁ : c.GoodMethod m₁.environments :=
      ⟨s, _, f, ⟨hc.1, hpf, hr.1, Resolver.methodActivation_ne f, hlawful⟩, hb,
        hc.2.1 ▸ hs.mono hg₁.environments⟩
    refine ih hps hr.2 hm₁ hs₁ fun p hp => ?_
    rcases Bindings.mem_put hp with rfl | hp
    · exact hc₁
    · exact (hf p hp).mono hg₁.environments

theorem nil_fits (envs : Environments) {name : Token} (h : name.Names Token.Spelled) :
    (Value.nil : Value).Fits envs name.lexeme :=
  Value.Good.fits (v := .nil) trivial h

theorem defineNil_agrees (hm : m.Sound) (hs : m.StandsAt s) {name : Token}
    (h : name.Names Token.Spelled) :
    Agree m (define name.lexeme .nil) (define name.lexeme .nil) fun envs _ =>
      envs.Supports m.current (s.bind name.lexeme true) :=
  define_agrees hm hs.supports (nil_fits _ h)

theorem assignClass_agrees (hm : m.Sound) {name : Token} (hn : name.Names Token.Spelled)
    {c : Nat → Class} (hc : ∀ id, (c id).All (Closure.GoodMethod m.environments)) :
    Agree m (nextId >>= fun id => get >>= fun m => assignFrom m.current name (.class_ (c id)))
      (nextId >>= fun id => get >>= fun m => assignFrom m.current name (.class_ (c id)))
      fun _ _ => True := by
  refine (nextId_agrees hm).bind fun id m₁ hm₁ hg₁ _ => Agree.get ?_
  have hv : (Value.class_ (c id)).Good m.environments := hc id
  exact assignFrom_agrees hm₁ _ name ((hv.mono hg₁.environments).fits hn)

theorem declareRoot_agrees (hm : m.Sound) (hs : m.StandsAt s) {name : Token}
    {methods : List RawFunction} (hn : name.Names Token.Spelled) (hb : s.Settled)
    (hp : Stmt.methodsProblems ((s.bind name.lexeme true).ofMethods false) methods = [])
    (hr : Stmt.MethodsRegular Token.Spelled methods) :
    let methods := Stmt.methodsBound ((s.bind name.lexeme true).ofMethods false) methods
    Agree m (declareClass ev' name none methods) (declareClass ev name none methods)
      fun envs _ => envs.Supports m.current (s.bind name.lexeme true) := by
  have hlawful := Surroundings.lawful_ofMethods (s.bind name.lexeme true) false
  refine (defineNil_agrees hm hs hn).bind fun _ m₁ hm₁ hg₁ hd => ?_
  have hs₁ : m₁.environments.Supports m₁.current
      { s.bind name.lexeme true with context := .class_ } :=
    hg₁.current ▸ hd.enterClass .class_
  refine (newMethods_agrees hp hr hlawful (hb.bind name.lexeme) hm₁ hs₁ fun p hp =>
    absurd hp List.not_mem_nil).bind fun ms m₂ hm₂ hg₂ hms => ?_
  exact (assignClass_agrees hm₂ hn (c := (.root · name.lexeme ms)) fun _ => hms).mono
    fun envs _ hg₃ _ => hd.mono (hg₂.environments.trans hg₃)

/-- The name of the superclass is looked up before the class is declared. -/
theorem declareDerived_agrees (hev : EvaluateAlike ev' ev) (hm : m.Sound) (hs : m.StandsAt s)
    {name : Token} {superclass : Superclass Unit} {methods : List RawFunction}
    (hn : name.Names Token.Spelled) (hsn : superclass.name.Names Token.Spelled) (hb : s.Settled)
    (hself : Surroundings.selfInherited name superclass = [])
    (hread : (s.bind name.lexeme true).misread superclass.name = [])
    (hp : Stmt.methodsProblems ((s.bind name.lexeme true).ofMethods true) methods = [])
    (hr : Stmt.MethodsRegular Token.Spelled methods) :
    let methods := Stmt.methodsBound ((s.bind name.lexeme true).ofMethods true) methods
    let superclass := superclass.bound (s.bind name.lexeme true)
    Agree m (declareClass ev' name (some superclass) methods)
      (declareClass ev name (some superclass) methods)
      fun envs _ => envs.Supports m.current (s.bind name.lexeme true) := by
  intro bound sup
  have hlawful := Surroundings.lawful_ofMethods (s.bind name.lexeme true) true
  have hplace := hb.bind name.lexeme
  have hne : name.lexeme ≠ superclass.name.lexeme := by
    intro he
    simp [Surroundings.selfInherited, he] at hself
  rw [Surroundings.misread_bind hne] at hread
  have hexpr : sup.expr = (Expr.read superclass.name () : RawExpr).bound s := by
    simp only [sup, Superclass.expr, Superclass.bound, Expr.bound,
      Surroundings.hops_bind_of_ne hne]
  show Agree m (ev' sup.expr >>= _) (ev sup.expr >>= _) _
  rw [hexpr]
  refine (hev (.read superclass.name ()) s m hread hsn hm hs).bind fun v m₁ hm₁ hg₁ hv => ?_
  cases v with
  | class_ c =>
    refine (defineNil_agrees hm₁ (hs.mono hg₁) hn).bind fun _ m₂ hm₂ hg₂ hd => Agree.get ?_
    have hc := Value.Good.mono hv hg₂.environments
    have hfits (x : String) (v : Value)
        (hx : Bindings.find? [("super", Value.class_ c)] x = some v) :
        v.Fits m₂.environments x := by
      obtain ⟨rfl, rfl⟩ := Bindings.eq_of_find?_singleton hx
      exact ⟨hc, fun h => absurd h (by decide), fun _ => ⟨c, rfl⟩⟩
    rw [hg₂.current]
    refine (newEnvironment_agrees hm₂ hd.exists_ hfits).bind fun e m₃ hm₃ hg₃ he => ?_
    obtain ⟨hlt, hsize, hlink, hfind⟩ := he
    have hs₃ : m₃.environments.Supports e
        (({ s.bind name.lexeme true with context := .subclass } : Surroundings).push
          [("super", true)]) := by
      have hd₃ := (hd.mono hg₃.environments).enterClass .subclass
      exact hd₃.push hplace hsize hlink hlt fun x hx =>
        hfind x (Bindings.isSome_find?_singleton _ hx)
    refine (inEnvironment_agrees (newMethods_agrees (m := { m₃ with current := e }) hp hr hlawful
      (Surroundings.settled_push_singleton _ "super") ⟨hm₃.globals, hm₃.bound, hm₃.fields⟩ hs₃
      fun p hp => absurd hp List.not_mem_nil)).bind fun ms m₄ hm₄ hg₄ hms => ?_
    have hc₄ := Value.Good.mono hc (hg₃.trans hg₄).environments
    refine (assignClass_agrees hm₄ hn (c := (.derived · name.lexeme ms c)) fun _ =>
      ⟨hms, hc₄⟩).mono fun envs _ hg₅ _ => ?_
    exact hg₁.current ▸ hd.mono ((hg₃.trans hg₄).environments.trans hg₅)
  | _ => exact raise_agrees hm₁ _ _

/-- A statement that declares nothing leaves the place as it was. -/
theorem plain_ends {st : RawStmt} {activation : Activation} {envs : Environments} {c : Completion}
    (hr : st.Regular Token.Spelled) (hp : st.isPlain) (hc : c.Good activation envs)
    (hs : envs.Supports m.current s) :
    c.Good activation envs ∧ (c = .normal → envs.Supports m.current (Stmt.after s st)) :=
  ⟨hc, fun _ => by rwa [Stmt.after_of_isPlain hr hp]⟩

theorem declareVar_agrees (settings : Settings) (hev : EvaluateAlike ev' ev) {name : Token}
    {initializer : Option RawExpr}
    (hp : (Stmt.var name initializer).problems s = [])
    (hr : (Stmt.var name initializer).Regular Token.Spelled) (hm : m.Sound)
    (hs : m.StandsAt s) :
    Agree m (executeForm settings ev' ex' ((Stmt.var name initializer).bound s))
      (executeForm settings ev ex ((Stmt.var name initializer).bound s)) fun envs c =>
        c.Good s.activation envs ∧
          (c = .normal → envs.Supports m.current (Stmt.after s (Stmt.var name initializer))) := by
  obtain ⟨hn, hi⟩ := hr
  obtain ⟨-, hpi⟩ := List.append_eq_nil_iff.1 hp
  have hdefine {m₁ : Machine} (hm₁ : m₁.Sound) (hg₁ : m.Grows m₁) {v : Value}
      (hv : v.Good m₁.environments) :
      Agree m₁ (define name.lexeme v >>= fun _ => pure Completion.normal)
        (define name.lexeme v >>= fun _ => pure .normal) fun envs c =>
          c.Good s.activation envs ∧
            (c = .normal → envs.Supports m.current (s.bind name.lexeme true)) := by
    have hg := Environments.grows_define m₁.environments m₁.current name.lexeme v
    have hfits := (hv.mono hg).fits hn
    refine (define_agrees hm₁ (hs.mono hg₁).supports hfits).bind fun _ m₂ hm₂ _ hd => ?_
    exact .pure hm₂ ⟨trivial, fun _ => hg₁.current ▸ hd⟩
  cases initializer with
  | none => exact hdefine hm (.refl m) trivial
  | some e =>
    have hs₁ : m.StandsAt ((s.bind name.lexeme false).initializing name) :=
      ⟨(hs.supports.declare name.lexeme).initializing name,
        (hs.lawful.bind (Token.lexeme_ne_this hn) (Token.lexeme_ne_super hn)
          false).initializing name⟩
    exact (hev e _ m hpi (hi e rfl) hm hs₁).bind fun v m₁ hm₁ hg₁ hv => hdefine hm₁ hg₁ hv

theorem declareFunction_agrees (settings : Settings) {f : RawFunction}
    (hp : (Stmt.function f).problems s = [])
    (hr : (Stmt.function f).Regular Token.Spelled) (hb : s.Settled) (hm : m.Sound)
    (hs : m.StandsAt s) :
    Agree m (executeForm settings ev' ex' ((Stmt.function f).bound s))
      (executeForm settings ev ex ((Stmt.function f).bound s)) fun envs c =>
        c.Good s.activation envs ∧
          (c = .normal → envs.Supports m.current (Stmt.after s (Stmt.function f))) := by
  obtain ⟨name, parameters, body⟩ := f
  obtain ⟨-, hpf⟩ := List.append_eq_nil_iff.1 hp
  have hn : name.Names Token.Spelled := hr.1
  have hlawful := hs.lawful.bind (Token.lexeme_ne_this hn) (Token.lexeme_ne_super hn) true
  refine (newFunction_agrees hm _ false).bind fun f m₁ hm₁ hg₁ hf => ?_
  obtain ⟨hd, he, hi⟩ := hf
  have hname : f.name = name.lexeme := congrArg (·.name.lexeme) hd
  have hs₁ := hs.mono hg₁
  have hgood : f.Good (m₁.environments.define m₁.current f.name (.function f)) := by
    refine ⟨⟨s.bind name.lexeme true, .function, _, ⟨hd, hpf, hr, by simp, hlawful⟩,
      hb.bind name.lexeme, ?_⟩, fun h => absurd (hi ▸ h) (by simp)⟩
    rw [he, hname, ← hg₁.current]
    exact hs₁.supports.define name.lexeme _
  have hfits : Value.Fits (m₁.environments.define m₁.current f.name (.function f)) f.name
      (.function f) := by
    have h := Value.Good.fits (v := .function f) hgood hn
    rwa [← hname] at h
  refine (define_agrees hm₁ hs₁.supports hfits).bind fun _ m₂ hm₂ _ hd => ?_
  rw [hname, hg₁.current] at hd
  exact .pure hm₂ ⟨trivial, fun _ => hd⟩

theorem ifElse_agrees (settings : Settings) (hev : EvaluateAlike ev' ev)
    (hex : ExecuteAlike ex' ex) {line : Nat} {e : RawExpr} {a b : RawStmt}
    (hp : (Stmt.ifElse line e a b).problems s = [])
    (hr : (Stmt.ifElse line e a b).Regular Token.Spelled) (hb : s.Settled) (hm : m.Sound)
    (hs : m.StandsAt s) :
    Agree m (executeForm settings ev' ex' ((Stmt.ifElse line e a b).bound s))
      (executeForm settings ev ex ((Stmt.ifElse line e a b).bound s)) fun envs c =>
        c.Good s.activation envs ∧
          (c = .normal → envs.Supports m.current (Stmt.after s (Stmt.ifElse line e a b))) := by
  have hstay {m' : Machine} (hg : m.Grows m') : m'.environments.Supports m.current s :=
    hs.supports.mono hg.environments
  obtain ⟨hpct, hpe⟩ := List.append_eq_nil_iff.1 hp
  obtain ⟨hpc, hpt⟩ := List.append_eq_nil_iff.1 hpct
  obtain ⟨hrc, ⟨hrt, htp⟩, hre, hep⟩ := id hr
  have hthen := Stmt.after_of_isPlain (s := s) hrt htp
  rw [hthen] at hpe
  refine (hev e s m hpc hrc hm hs).bind fun v m₁ hm₁ hg₁ _ => ?_
  cases v.isTruthy with
  | true =>
    refine (hex a s m₁ hpt hrt hb hm₁ (hs.mono hg₁)).mono fun envs c hg hc => ?_
    exact plain_ends hr rfl hc.1 ((hstay hg₁).mono hg)
  | false =>
    have h := hex b s m₁ hpe hre hb hm₁ (hs.mono hg₁)
    refine (hthen ▸ h : Agree m₁ (ex' (b.bound (Stmt.after s a)))
      (ex (b.bound (Stmt.after s a))) _).mono fun envs c hg hc => ?_
    exact plain_ends hr rfl (hthen ▸ hc.1) ((hstay hg₁).mono hg)

theorem executeForm_agrees (settings : Settings) (hev : EvaluateAlike ev' ev)
    (hex : ExecuteAlike ex' ex) {st : RawStmt} (hp : st.problems s = [])
    (hr : st.Regular Token.Spelled) (hb : s.Settled)
    (hm : m.Sound) (hs : m.StandsAt s) :
    Agree m (executeForm settings ev' ex' (st.bound s)) (executeForm settings ev ex (st.bound s))
      fun envs c => c.Good s.activation envs ∧
        (c = .normal → envs.Supports m.current (Stmt.after s st)) := by
  have hstay {m' : Machine} (hg : m.Grows m') : m'.environments.Supports m.current s :=
    hs.supports.mono hg.environments
  cases st with
  | expression line value =>
    refine (hev value s m hp hr hm hs).bind fun v m₁ hm₁ hg₁ _ => ?_
    exact .pure hm₁ (plain_ends hr rfl trivial (hstay hg₁))
  | print line value =>
    refine (hev value s m hp hr hm hs).bind fun v m₁ hm₁ hg₁ _ => ?_
    refine (emit_agrees hm₁ _).bind fun _ m₂ hm₂ hg₂ _ => ?_
    exact .pure hm₂ (plain_ends hr rfl trivial (hstay (hg₁.trans hg₂)))
  | var name initializer => exact declareVar_agrees settings hev hp hr hm hs
  | block line body =>
    have hnone (x : String) (v : Value) (h : Bindings.find? [] x = some v) :
        v.Fits m.environments x := nomatch h
    refine Agree.get ((executeBlock_agrees hex hm hs.supports hb hnone (fun x h => h)
      (hs.lawful.push rfl rfl) (Surroundings.settled_push fun x h => absurd h (by simp)) hp hr).mono
      fun envs c hg hc => ?_)
    have hregular : Stmt.Regular Token.Spelled (.block line body) := hr
    exact plain_ends hregular rfl hc (hs.supports.mono hg)
  | ifThen line condition thenBranch =>
    obtain ⟨hpc, hpt⟩ := List.append_eq_nil_iff.1 hp
    refine (hev condition s m hpc hr.1 hm hs).bind fun v m₁ hm₁ hg₁ _ => ?_
    cases v.isTruthy with
    | true => exact hg₁.current ▸ hex thenBranch s m₁ hpt hr.2.1 hb hm₁ (hs.mono hg₁)
    | false => exact .pure hm₁ (plain_ends hr rfl trivial (hstay hg₁))
  | ifElse line condition thenBranch elseBranch =>
    exact ifElse_agrees settings hev hex hp hr hb hm hs
  | while_ line condition body =>
    obtain ⟨hpc, hpb⟩ := List.append_eq_nil_iff.1 hp
    refine (loop_agrees hev hex hpc hr.1 hpb hr.2.1 hb hm hs settings.turns).mono
      fun envs c hg hc => ?_
    have hregular : Stmt.Regular Token.Spelled (.while_ line condition body) := hr
    exact plain_ends hregular rfl hc (hs.supports.mono hg)
  | function f => exact declareFunction_agrees settings hp hr hb hm hs
  | return_ keyword value =>
    obtain ⟨hpr, hpv⟩ := List.append_eq_nil_iff.1 hp
    have ha : s.activation ≠ .topLevel := by
      intro ha
      simp [Surroundings.misplacedReturn, ha] at hpr
    cases value with
    | none => exact .pure hm ⟨⟨trivial, ha⟩, fun h => nomatch h⟩
    | some e =>
      refine (hev e s m hpv (hr.2 e rfl) hm hs).bind fun v m₁ hm₁ hg₁ hv => ?_
      exact .pure hm₁ ⟨⟨hv, ha⟩, fun h => nomatch h⟩
  | class_ line name superclass methods =>
    obtain ⟨hps, hpm⟩ := List.append_eq_nil_iff.1 hp
    obtain ⟨-, hps⟩ := List.append_eq_nil_iff.1 hps
    obtain ⟨hn, hrs, hrm⟩ := hr
    refine Agree.bind (Q := fun envs _ => envs.Supports m.current (s.bind name.lexeme true)) ?_
      fun _ m₁ hm₁ hg₁ hd => .pure hm₁ ⟨trivial, fun _ => hd⟩
    cases superclass with
    | none => exact declareRoot_agrees hm hs hn hb hpm hrm
    | some c =>
      obtain ⟨hself, hread⟩ := List.append_eq_nil_iff.1 hps
      exact declareDerived_agrees hev hm hs hn (hrs c rfl) hb hself hread hpm hrm

end Eval
end Lox
