import Lox.Proofs.Simulation
import Lox.Machine.Evaluation

/-! Environments refine lexical scopes. What an accepted program does on a machine, with its names
resolved and its environments shared, it does in the semantics of locations. -/

namespace Lox.Lexical

def defineAll (e : Nat) : List (String × Value) → Eval Unit
  | [] => return ()
  | (x, v) :: pairs => do
    Eval.defineIn e x v
    defineAll e pairs

theorem newEnvironment_put (p : Nat) (b : Bindings Value) (x : String) (v : Value) :
    Eval.newEnvironment p (b.put x v) = do
      let e ← Eval.newEnvironment p b
      Eval.defineIn e x v
      return e := by
  funext m
  have h := Environments.define_create m.environments (some p) b x v
  show EStateM.Result.ok _ { m with environments := (m.environments.create _ (b.put x v)).2 } = _
  rw [← h]
  rfl

/-- An environment created with names bound might have had them bound one after another. -/
theorem newEnvironment_foldl (p : Nat) (pairs : List (String × Value)) (b : Bindings Value) :
    Eval.newEnvironment p (pairs.foldl (fun b q => b.put q.1 q.2) b) = do
      let e ← Eval.newEnvironment p b
      defineAll e pairs
      return e := by
  induction pairs generalizing b with
  | nil => simp [defineAll]
  | cons q pairs ih =>
    rw [List.foldl_cons, ih, newEnvironment_put]
    simp [defineAll]

/-- Whatever an environment has names for is declared in the innermost scope. -/
def World.Owns (W : World) (e : Nat) (s : Surroundings) : Prop :=
  ∀ x l, W.place e x = some l → (s.scopes.head?.bind (·.find? x)).isSome

variable {n : Nat} {t : Twin} {s : Surroundings} {e : Nat}

theorem unplaced {W : World} (h : W.Owns e s) {name : Token} (hr : s.redeclared name = []) :
    W.place e name.lexeme = none := by
  cases hp : W.place e name.lexeme with
  | none => rfl
  | some l => simp [Surroundings.redeclared, h _ l hp] at hr

theorem World.Owns.later {k : Nat} {t' : Twin} (h : t.world.Owns e s) (hl : t.Later k t')
    (he : e < k) : t'.world.Owns e s := by
  intro x l hx
  have hp : t'.place e x = some l := hx
  rw [hl.kept e he] at hp
  exact h x l hp

theorem declare_sim {α β : Type} {x : Eval α} {g : Scope → Run β} {Q : World → α → β → Prop}
    {scope : Scope} (ht : t.Mirrored n) (hn : n ≤ e) (hs : t.world.Shows e s scope)
    (hlocal : s.scopes ≠ []) (ho : t.world.Owns e s) {name : String} (hr : t.place e name = none)
    (h : ∀ scope' t', t'.Mirrored n → t.Later n t' → t'.world.Shows e (s.bind name true) scope' →
      t'.world.Owns e (s.bind name true) → Sim n t' x (g scope') Q) :
    Sim n t x (declare name scope >>= g) Q := by
  obtain ⟨he, b, rfl⟩ := hs.local_ hlocal
  refine .declare ht he hs.exists_ hn hr fun l t' ht' hl hp hrest => ?_
  refine h _ t' ht' hl ((hs.mono hl.grows).bind hlocal true hp) fun y k hk => ?_
  obtain ⟨scopes, pending, activation, context⟩ := s
  cases scopes with
  | nil => exact absurd rfl hlocal
  | cons scope scopes =>
    simp only [Surroundings.bind, List.head?_cons, Option.bind_some, Bindings.find?_put]
    split
    · rfl
    · next hne =>
      have hk : t'.place e y = some k := hk
      rw [hrest y (Ne.symm hne)] at hk
      exact ho y k hk

theorem bind_sim {scope : Scope} (ht : t.Mirrored n) (hn : n ≤ e) (hs : t.world.Shows e s scope)
    (hlocal : s.scopes ≠ []) (ho : t.world.Owns e s) {name : String} (hr : t.place e name = none)
    {v : Value} {w : Datum} (hv : t.world.Alike v w) :
    Sim n t (Eval.defineIn e name v) (bind scope name w) fun W _ scope' =>
      W.Shows e (s.bind name true) scope' ∧ W.Owns e (s.bind name true) := by
  refine declare_sim ht hn hs hlocal ho hr fun scope' t' ht' hl hs' ho' => ?_
  have h0 : (s.bind name true).hops name = some 0 := by
    rw [Surroundings.hops_bind hlocal, if_pos rfl]
  obtain ⟨a, l, ha, hp, hx⟩ := hs'.found name 0 h0
  cases ha
  unfold define
  simp only [hx]
  rw [← bind_pure (Eval.defineIn e name v)]
  refine (defineIn_sim ht'.close hp (hv.mono hl.grows)).bind_of_le ht'.older
    fun _ _ t'' ht'' hl'' _ => ?_
  exact .pure ht'' ⟨hs'.mono hl''.grows, ho'.later hl'' hs'.exists_⟩

theorem bindAll_sim {scope : Scope} {ps : List Token} {vs : List Value} {ws : List Datum}
    (ht : t.Mirrored n) (hn : n ≤ e) (hs : t.world.Shows e s scope) (hlocal : s.scopes ≠ [])
    (ho : t.world.Owns e s) (hr : s.repeatedParameters ps = []) (hlen : vs.length = ps.length)
    (hv : List.Forall₂ t.world.Alike vs ws) :
    Sim n t (defineAll e ((ps.map Token.lexeme).zip vs)) (bindAll scope ps ws)
      fun W _ scope' =>
        W.Shows e (s.withParameters ps) scope' ∧ W.Owns e (s.withParameters ps) := by
  induction ps generalizing t s scope vs ws with
  | nil =>
    cases hv with
    | nil => exact .pure ht ⟨hs, ho⟩
    | cons => simp at hlen
  | cons p ps ih =>
    cases hv with
    | nil => simp at hlen
    | cons hvw hvs =>
      obtain ⟨hrp, hrs⟩ := List.append_eq_nil_iff.1 hr
      refine (bind_sim ht hn hs hlocal ho (unplaced ho hrp) hvw).bind
        fun _ scope' t' ht' hl hq => ?_
      exact ih ht' hq.1 (Surroundings.bind_scopes_ne hlocal _ _) hq.2 hrs (Nat.succ.inj hlen)
        (hvs.imp fun _ _ h => h.mono hl.grows)

section
variable {α β : Type} {Q : World → α → β → Prop} {p : Nat} {scope : Scope}

theorem newScope_sim {f : Nat → Eval α} {y : Run β} (ht : t.Mirrored n)
    (hs : t.world.Shows p s scope)
    (h : ∀ e t', t'.Mirrored n → t.Later n t' → n ≤ e → t'.world.Shows e (s.push []) scope.inner →
      t'.world.Owns e (s.push []) → Sim n t' (f e) y Q) :
    Sim n t (Eval.newEnvironment p [] >>= f) y Q := by
  refine .newEnvironment ht hs.exists_ fun e t' ht' hl hn hlt hsize hlink hnone => ?_
  refine h e t' ht' hl hn ((hs.mono hl.grows).push hsize hlink hlt) fun x l hx => ?_
  have hx : t'.place e x = some l := hx
  rw [hnone x] at hx
  cases hx

theorem push_scopes_ne (s : Surroundings) (b : Bindings Bool) : (s.push b).scopes ≠ [] := by
  simp [Surroundings.push]

theorem newBinding_sim {f : Nat → Eval α} {g : Scope → Run β} (ht : t.Mirrored n)
    (hs : t.world.Shows p s scope) (name : String) {v : Value} {w : Datum}
    (hv : t.world.Alike v w)
    (h : ∀ e scope' t', t'.Mirrored n → t.Later n t' →
      t'.world.Shows e (s.push [(name, true)]) scope' → Sim n t' (f e) (g scope') Q) :
    Sim n t (Eval.newEnvironment p [(name, v)] >>= f) (bind scope.inner name w >>= g) Q := by
  have hput := newEnvironment_put p [] name v
  rw [Bindings.put] at hput
  simp only [hput, bind_assoc, pure_bind]
  refine newScope_sim ht hs fun e t' ht' hl hn hs' ho' => ?_
  have hnone : t'.place e name = none := by
    cases hp : t'.place e name with
    | none => rfl
    | some l => exact absurd (ho' name l hp) (by simp [Surroundings.push])
  refine (bind_sim ht' hn hs' (push_scopes_ne s []) ho' hnone (hv.mono hl.grows)).bind
    fun _ scope' t'' ht'' hl' hq => ?_
  exact (h e scope' t'' ht'' (hl.trans hl') hq.1)

theorem newParameters_sim {f : Nat → Eval α} {g : Scope → Run β} {ps : List Token}
    {vs : List Value} {ws : List Datum} (ht : t.Mirrored n) (hs : t.world.Shows p s scope)
    (hr : (s.push []).repeatedParameters ps = []) (hlen : vs.length = ps.length)
    (hv : List.Forall₂ t.world.Alike vs ws)
    (h : ∀ e scope' t', t'.Mirrored n → t.Later n t' → n ≤ e →
      t'.world.Shows e ((s.push []).withParameters ps) scope' →
      t'.world.Owns e ((s.push []).withParameters ps) → Sim n t' (f e) (g scope') Q) :
    Sim n t (Eval.newEnvironment p (.ofPairs ((ps.map Token.lexeme).zip vs)) >>= f)
      (bindAll scope.inner ps ws >>= g) Q := by
  have hall := newEnvironment_foldl p ((ps.map Token.lexeme).zip vs) []
  rw [Bindings.ofPairs]
  simp only [hall, bind_assoc, pure_bind]
  refine newScope_sim ht hs fun e t' ht' hl hn hs' ho' => ?_
  refine (bindAll_sim ht' hn hs' (push_scopes_ne s []) ho' hr hlen
    (hv.imp fun _ _ h => h.mono hl.grows)).bind fun _ scope' t'' ht'' hl' hq => ?_
  exact h e scope' t'' ht'' (hl.trans hl') hn hq.1 hq.2

end

theorem bindMethod_sim (ht : t.Mirrored n) {f : Closure} {g : Code} (hf : t.world.SameMethod f g)
    {v : Value} {w : Datum} (hv : t.world.Alike v w) :
    Sim n t (Eval.bindMethod f v) (bindMethod g w) fun W f' g' =>
      W.SameFunction f' g' ∧ f'.declaration = f.declaration := by
  obtain ⟨hid, hi, place, activation, hw, hs⟩ := hf
  refine newBinding_sim ht hs "this" hv fun e scope' t' ht' hl hs' => ?_
  refine (nextId_sim ht').bind fun i j t'' ht'' hl' hij => .pure ht'' ⟨⟨hij, hi, ?_⟩, rfl⟩
  exact ⟨_, activation, ⟨hw.declaration, hw.accepted, hw.regular, hw.activation, hw.lawful⟩,
    fun _ => rfl, hs'.mono hl'.grows⟩

def World.Ends (W : World) : Completion → Option Datum → Prop
  | .normal, none => True
  | .returned v, some w => W.Alike v w
  | _, _ => False

section
variable (ev : BoundExpr → Eval Value) (ev' : Scope → RawExpr → Run Datum)
  (ex : BoundStmt → Eval Completion) (ex' : Scope → RawStmt → Run (Option Datum))
  (enter : Closure → List Value → Eval Value) (enter' : Code → List Datum → Run Datum)

def EvaluateSim : Prop :=
  ∀ (e : RawExpr) (s : Surroundings) (scope : Scope) (n : Nat) (t : Twin), e.problems s = [] →
    e.Regular Token.Spelled → s.Lawful → t.Mirrored n →
      t.world.Shows t.machine.current s scope →
        Sim n t (ev (e.bound s)) (ev' scope e) World.Alike

/-- The name that the statement declares is in scope. -/
def ExecuteSim : Prop :=
  ∀ (st : RawStmt) (s : Surroundings) (scope : Scope) (n : Nat) (t : Twin), st.problems s = [] →
    st.Regular Token.Spelled → s.Lawful → t.Mirrored n →
      t.world.Shows t.machine.current (Stmt.after s st) scope →
        Sim n t (ex (st.bound s)) (ex' scope st) World.Ends

def EnterSim : Prop :=
  ∀ (f : Closure) (g : Code) (vs : List Value) (ws : List Datum) (n : Nat) (t : Twin),
    t.Mirrored n → t.world.SameFunction f g → vs.length = f.arity →
      List.Forall₂ t.world.Alike vs ws → Sim n t (enter f vs) (enter' g ws) World.Alike

end

section
variable {ev : BoundExpr → Eval Value} {ev' : Scope → RawExpr → Run Datum}
  {ex : BoundStmt → Eval Completion} {ex' : Scope → RawStmt → Run (Option Datum)}
  {enter : Closure → List Value → Eval Value} {enter' : Code → List Datum → Run Datum}
  {settings : Settings} {scope : Scope}

theorem evaluateAll_sim (hev : EvaluateSim ev ev') {es : List RawExpr}
    (hp : Expr.problemsList s es = []) (hr : Expr.RegularList Token.Spelled es) (hlawful : s.Lawful)
    (ht : t.Mirrored n) (hs : t.world.Shows t.machine.current s scope) :
    Sim n t (Eval.evaluateAll ev (Expr.boundList s es)) (evaluateAll (ev' scope) es)
      fun W => List.Forall₂ W.Alike := by
  induction es generalizing t with
  | nil => exact .pure ht .nil
  | cons e es ih =>
    obtain ⟨hpe, hps⟩ := List.append_eq_nil_iff.1 hp
    refine (hev e s scope n t hpe hr.1 hlawful ht hs).bind fun v w t' ht' hl hv => ?_
    refine (ih hps hr.2 ht' (hl.current ▸ hs.mono hl.grows)).bind fun vs ws t'' ht'' hl' hvs => ?_
    exact .pure ht'' (.cons (hv.mono hl'.grows) hvs)

theorem callValue_sim (hen : EnterSim enter enter') {v : Value} {w : Datum} {vs : List Value}
    {ws : List Datum} (ht : t.Mirrored n) (hv : t.world.Alike v w)
    (ha : v.arity? = some vs.length) (hvs : List.Forall₂ t.world.Alike vs ws) :
    Sim n t (Eval.callValue enter v vs) (callValue enter' w ws) World.Alike := by
  unfold World.Alike Value.Rel at hv
  split at hv
  case h_5 a b => subst hv; cases a; exact readClock_sim ht
  case h_6 f g => exact hen f g vs ws n t ht hv (Option.some.inj ha).symm hvs
  case h_7 c d =>
    refine (newInstance_sim ht hv).bind fun r r' t' ht' hl hr => ?_
    obtain ⟨hr, ⟨ref, rfl⟩, ref', rfl⟩ := hr
    rcases hv.findMethod Function.initializerName with ⟨hc, hd⟩ | ⟨f, g, hc, hd, hfg⟩
    · simp only [Class.initializer, hc, hd]
      exact .pure ht' hr
    · simp only [Class.initializer, hc, hd]
      have hlen : vs.length = f.arity := by
        have h : c.arity = vs.length := Option.some.inj ha
        simp only [Class.arity, Class.initializer, hc] at h
        exact h.symm
      refine (bindMethod_sim ht' (hfg.mono hl.grows) hr).bind fun f' g' t'' ht'' hl' hf' => ?_
      refine (hen f' g' vs ws n t'' ht'' hf'.1 ?_ ?_).bind fun _ _ t₃ ht₃ hl₃ _ => ?_
      · rw [hlen]
        exact congrArg (·.parameters.length) hf'.2.symm
      · exact hvs.imp fun _ _ h => h.mono (hl.trans hl').grows
      · exact .pure ht₃ (hr.mono (hl'.trans hl₃).grows)
  all_goals first | exact hv.elim | exact .pure ht trivial

theorem call_sim (hen : EnterSim enter enter') {v : Value} {w : Datum} {vs : List Value}
    {ws : List Datum} (line : Nat) (ht : t.Mirrored n) (hv : t.world.Alike v w)
    (hvs : List.Forall₂ t.world.Alike vs ws) :
    Sim n t (Eval.call settings enter v vs line) (call settings enter' w ws line) World.Alike := by
  unfold Eval.call call
  rw [← hv.arity?_eq, ← hvs.length_eq]
  cases ha : v.arity? with
  | none => exact .raise ht (by simp) line
  | some expected =>
    dsimp only
    by_cases hn : vs.length ≠ expected
    · simp only [if_pos hn]
      exact .raise ht (by simp) line
    · simp only [if_neg hn]
      refine Sim.get ?_
      rw [← ht.callDepth]
      by_cases hd : settings.calls ≤ t.machine.callDepth
      · simp only [if_pos hd]
        exact .raise ht (by simp) line
      · simp only [if_neg hd]
        have ha : v.arity? = some vs.length :=
          ha.trans (congrArg some (Decidable.not_not.1 hn).symm)
        refine inCall_sim line (callValue_sim hen ?_ hv ha hvs)
        exact { ht with callDepth := congrArg (· + 1) ht.callDepth }

theorem boundMethod_sim (ht : t.Mirrored n) {c : Class} {d : Blueprint}
    (hc : c.Rel t.world.SameMethod d) {v : Value} {w : Datum} (hv : t.world.Alike v w)
    (name : Token) :
    Sim n t
      (match c.findMethod name.lexeme with
        | some f => do return .function (← Eval.bindMethod f v)
        | none => Eval.raise (.undefinedProperty name.lexeme) name.line)
      (match d.findMethod name.lexeme with
        | some f => do return .function (← bindMethod f w)
        | none => raise (.undefinedProperty name.lexeme) name.line) World.Alike := by
  rcases hc.findMethod name.lexeme with ⟨hf, hg⟩ | ⟨f, g, hf, hg, hfg⟩
  · simp only [hf, hg]
    exact .raise ht (by simp) _
  · simp only [hf, hg]
    exact (bindMethod_sim ht hfg hv).bind fun f' g' t' ht' _ hf' => .pure ht' hf'.1

theorem getProperty_sim (ht : t.Mirrored n) {v : Value} {w : Datum} (hv : t.world.Alike v w)
    (name : Token) :
    Sim n t (Eval.getProperty v name) (getProperty w name) World.Alike := by
  have ha := hv
  unfold World.Alike Value.Rel at hv
  split at hv
  case h_8 ref c ref' d =>
    obtain ⟨rfl, hc⟩ := hv
    refine (getField?_sim ht ref name.lexeme).bind fun v? w? t' ht' hl hf => ?_
    rcases hf with ⟨rfl, rfl⟩ | ⟨u, u', rfl, rfl, hu⟩
    · exact boundMethod_sim ht' (hc.mono fun _ _ h => h.mono hl.grows) (ha.mono hl.grows) name
    · exact .pure ht' hu
  all_goals first | exact hv.elim | exact .raise ht (by simp) _

theorem subclass_of_super {keyword : Token} (hp : s.misusedSuper keyword = []) :
    s.context = .subclass := by
  unfold Surroundings.misusedSuper at hp
  split at hp
  · cases hp
  · cases hp
  · assumption

theorem superMethod_sim (ht : t.Mirrored n) (hs : t.world.Shows t.machine.current s scope)
    (hlawful : s.Lawful) {keyword : Token} (hk : keyword.lexeme = "super")
    (hp : s.misusedSuper keyword = []) (method : Token) :
    Sim n t (Eval.superMethod keyword (s.hops keyword.lexeme) method) (superMethod scope method)
      World.Alike := by
  obtain ⟨d, hthis, hsuper⟩ := hlawful.super (subclass_of_super hp)
  rw [hk, hsuper]
  refine Sim.getMachine (Sim.special ht hs hsuper fun c c' hc => ?_)
  rw [Nat.add_sub_cancel]
  refine Sim.special ht hs hthis fun v w hv => ?_
  unfold World.Alike Value.Rel at hc
  split at hc
  case h_7 => exact boundMethod_sim ht hc hv method
  all_goals first | exact hc.elim | exact .fault _

theorem evaluateForm_sim (settings : Settings) (hev : EvaluateSim ev ev')
    (hen : EnterSim enter enter') {e : RawExpr}
    (hp : e.problems s = []) (hr : e.Regular Token.Spelled) (hlawful : s.Lawful)
    (ht : t.Mirrored n) (hs : t.world.Shows t.machine.current s scope) :
    Sim n t (Eval.evaluateForm settings ev enter (e.bound s))
      (evaluateForm settings (ev' scope) enter' scope e) World.Alike := by
  have hlater {t' : Twin} (hl : t.Later n t') : t'.world.Shows t'.machine.current s scope :=
    hl.current ▸ hs.mono hl.grows
  cases e with
  | literal line value => exact .pure ht (by cases value <;> trivial)
  | grouping line inner => exact hev inner s scope n t hp hr hlawful ht hs
  | unary operator right =>
    refine (hev right s scope n t hp hr.2 hlawful ht hs).bind fun v w t' ht' hl hv => ?_
    exact ofOperator_sim ht' operator.line (Value.Rel.unary hv _ _)
  | binary left operator right =>
    obtain ⟨hpl, hpr⟩ := List.append_eq_nil_iff.1 hp
    refine (hev left s scope n t hpl hr.1 hlawful ht hs).bind fun v w t' ht' hl hv => ?_
    refine (hev right s scope n t' hpr hr.2.2 hlawful ht' (hlater hl)).bind
      fun v' w' t'' ht'' hl' hv' => ?_
    exact ofOperator_sim ht'' operator.line
      (Value.Rel.binary (fun _ _ h => h.1) (hv.mono hl'.grows) hv' _ _)
  | logical left operator right =>
    obtain ⟨hpl, hpr⟩ := List.append_eq_nil_iff.1 hp
    refine (hev left s scope n t hpl hr.1 hlawful ht hs).bind fun v w t' ht' hl hv => ?_
    rw [← Value.Rel.decides_eq hv]
    by_cases hd : Value.decides operator.kind v
    · simp only [if_pos hd]
      exact .pure ht' hv
    · simp only [if_neg hd]
      exact hev right s scope n t' hpr hr.2.2 hlawful ht' (hlater hl)
  | read name _ => exact lookUp_sim ht hs name
  | assign line name _ value =>
    refine (hev value s scope n t hp hr.2 hlawful ht hs).bind fun v w t' ht' hl hv => ?_
    refine (assign_sim ht' (hlater hl) name hv).bind fun _ _ t'' ht'' hl' _ => ?_
    exact .pure ht'' (hv.mono hl'.grows)
  | call callee paren arguments =>
    obtain ⟨hpc, hpa⟩ := List.append_eq_nil_iff.1 hp
    refine (hev callee s scope n t hpc hr.1 hlawful ht hs).bind fun v w t' ht' hl hv => ?_
    refine (evaluateAll_sim hev hpa hr.2.2 hlawful ht' (hlater hl)).bind
      fun vs ws t'' ht'' hl' hvs => ?_
    exact call_sim hen paren.line ht'' (hv.mono hl'.grows) hvs
  | get object name =>
    refine (hev object s scope n t hp hr.1 hlawful ht hs).bind fun v w t' ht' hl hv => ?_
    exact getProperty_sim ht' hv name
  | set line object name value =>
    obtain ⟨hpv, hpo⟩ := List.append_eq_nil_iff.1 hp
    refine (hev object s scope n t hpo hr.1 hlawful ht hs).bind fun v w t' ht' hl hv => ?_
    unfold World.Alike Value.Rel at hv
    split at hv
    case h_8 ref c ref' d =>
      obtain ⟨rfl, -⟩ := hv
      refine (hev value s scope n t' hpv hr.2.2 hlawful ht' (hlater hl)).bind
        fun v w t'' ht'' hl' hv => ?_
      refine (setField_sim ht'' ref name.lexeme hv).bind fun _ _ t₃ ht₃ hl₃ _ => ?_
      exact .pure ht₃ (hv.mono hl₃.grows)
    all_goals first | exact hv.elim | exact .raise ht' (by simp) _
  | this keyword _ =>
    have hc : ¬ s.context = .outside := fun hc => by
      simp [Expr.problems, Surroundings.misusedThis, hc] at hp
    simp only [Expr.bound, if_neg hc]
    exact lookUp_sim ht hs keyword
  | super keyword _ method =>
    exact superMethod_sim ht hs hlawful (Token.lexeme_super hr.1.1 hr.1.2) hp method

theorem executeAll_sim (hex : ExecuteSim ex ex') {ss : List RawStmt}
    (hp : Stmt.problemsList s ss = []) (hr : Stmt.RegularList Token.Spelled ss)
    (hlawful : s.Lawful) (hlocal : s.scopes ≠ []) (ht : t.Mirrored n) (hn : n ≤ t.machine.current)
    (hs : t.world.Shows t.machine.current s scope) (ho : t.world.Owns t.machine.current s) :
    Sim n t (Eval.executeAll ex (Stmt.boundList s ss)) (executeAll ex' scope ss) World.Ends := by
  induction ss generalizing s scope t with
  | nil => exact .pure ht trivial
  | cons st ss ih =>
    obtain ⟨hps, hpl⟩ := List.append_eq_nil_iff.1 hp
    obtain ⟨hrs, hrl⟩ := hr
    have hstep (scope' : Scope) (t' : Twin) (hlocal' : (Stmt.after s st).scopes ≠ [])
        (ht' : t'.Mirrored n) (hl : t.Later n t')
        (hs' : t'.world.Shows t'.machine.current (Stmt.after s st) scope')
        (ho' : t'.world.Owns t'.machine.current (Stmt.after s st))
        {rest : Option Datum → Run (Option Datum)} (hnext : rest none = executeAll ex' scope' ss)
        (hdone : ∀ w, rest (some w) = Pure.pure (some w)) :
        Sim n t' (Eval.executeAll ex (Stmt.boundList s (st :: ss))) (ex' scope' st >>= rest)
          World.Ends := by
      refine (hex st s scope' _ t' hps hrs hlawful ht'.close hs').bind_of_le ht'.older
        fun c r t'' ht'' hl' hc => ?_
      cases c with
      | normal =>
        cases r with
        | some w => exact hc.elim
        | none =>
          rw [hnext]
          exact ih hpl hrl (Stmt.lawful_after hlawful hrs) hlocal' ht''
            (by rw [hl'.current, hl.current]; exact hn)
            (hl'.current ▸ hs'.mono hl'.grows)
            (hl'.current ▸ ho'.later hl' hs'.exists_)
      | returned v =>
        cases r with
        | some w =>
          rw [hdone]
          exact .pure ht'' hc
        | none => exact hc.elim
    cases hd : st.declared? with
    | none =>
      have hafter := Stmt.after_of_isPlain (s := s) hrs (Stmt.isPlain_of_not_declared hd)
      simp only [executeAll, hd]
      exact hstep scope t (hafter.symm ▸ hlocal) ht (.refl n t) (hafter.symm ▸ hs)
        (hafter.symm ▸ ho) rfl fun _ => rfl
    | some name =>
      have hafter := Stmt.after_of_declared (s := s) hd
      have hnone := unplaced ho (Stmt.redeclared_of_problems hps hd)
      simp only [executeAll, hd]
      refine declare_sim ht hn hs hlocal ho hnone fun scope' t' ht' hl hs' ho' => ?_
      exact hstep scope' t' (hafter.symm ▸ Surroundings.bind_scopes_ne hlocal _ _) ht' hl
        (hafter.symm ▸ hl.current ▸ hs') (hafter.symm ▸ hl.current ▸ ho') rfl fun _ => rfl

theorem inBody_sim (hex : ExecuteSim ex ex') {ss : List RawStmt}
    (hp : Stmt.problemsList s ss = []) (hr : Stmt.RegularList Token.Spelled ss)
    (hlawful : s.Lawful) (hlocal : s.scopes ≠ []) (ht : t.Mirrored n) (hn : n ≤ e)
    (hs : t.world.Shows e s scope) (ho : t.world.Owns e s) :
    Sim n t (Eval.inEnvironment e (Eval.executeAll ex (Stmt.boundList s ss)))
      (executeAll ex' scope ss) World.Ends :=
  inEnvironment_sim (executeAll_sim hex hp hr hlawful hlocal { ht with } hn hs ho)

theorem executeBlock_sim (hex : ExecuteSim ex ex') {p : Nat} {body : List RawStmt}
    (hp : Stmt.problemsList (s.push []) body = []) (hr : Stmt.RegularList Token.Spelled body)
    (hlawful : s.Lawful) (ht : t.Mirrored n) (hs : t.world.Shows p s scope) :
    Sim n t (Eval.executeBlock ex p [] (Stmt.boundList (s.push []) body))
      (executeAll ex' scope.inner body) World.Ends :=
  newScope_sim ht hs fun _ _ ht' _ hn hs' ho' =>
    inBody_sim hex hp hr (hlawful.push rfl rfl) (push_scopes_ne s []) ht' hn hs' ho'

theorem executeBody_sim (hex : ExecuteSim ex ex') {p : Nat} {ps : List Token} {vs : List Value}
    {ws : List Datum} {body : List RawStmt} (hrep : (s.push []).repeatedParameters ps = [])
    (hp : Stmt.problemsList ((s.push []).withParameters ps) body = [])
    (hr : Stmt.RegularList Token.Spelled body)
    (hlawful : ((s.push []).withParameters ps).Lawful) (hlen : vs.length = ps.length)
    (hvs : List.Forall₂ t.world.Alike vs ws) (ht : t.Mirrored n) (hs : t.world.Shows p s scope) :
    Sim n t
      (Eval.executeBlock ex p (.ofPairs ((ps.map Token.lexeme).zip vs))
        (Stmt.boundList ((s.push []).withParameters ps) body))
      (bindAll scope.inner ps ws >>= fun scope => executeAll ex' scope body) World.Ends := by
  have hlocal : ((s.push []).withParameters ps).scopes ≠ [] := by
    rw [Surroundings.withParameters_push]
    exact push_scopes_ne _ _
  exact newParameters_sim ht hs hrep hlen hvs fun _ _ _ ht' _ hn hs' ho' =>
    inBody_sim hex hp hr hlawful hlocal ht' hn hs' ho'

theorem apply_sim (hex : ExecuteSim ex ex') : EnterSim (Eval.apply ex) (apply ex') := by
  intro f g vs ws n t ht hf hlen hvs
  obtain ⟨hid, hi, place, activation, hw, hthis, hs⟩ := hf
  obtain ⟨id, declaration, environment, isInitializer⟩ := f
  obtain ⟨id', ⟨name, parameters, body⟩, scope, isInitializer'⟩ := g
  obtain ⟨rfl, hproblems, ⟨hname, hparameters, hbody⟩, -, hlawful⟩ := hw
  obtain ⟨hrep, hp⟩ := List.append_eq_nil_iff.1 hproblems
  cases hi
  have hs' : t.world.Shows environment { place with activation } scope :=
    hs.hops_congr Iff.rfl fun _ => rfl
  have hrun := executeBody_sim hex hrep hp hbody (hlawful.entering activation hparameters) hlen hvs
    ht hs'
  show Sim n t (_ >>= _) (bindAll scope.inner parameters ws >>= fun scope =>
    executeAll ex' scope body >>= _) World.Alike
  rw [← bind_assoc]
  refine hrun.bind fun c r t' ht' hl hc => ?_
  cases isInitializer with
  | true => exact Sim.getMachine (special_sim ht' (hs.mono hl.grows) (hthis rfl))
  | false =>
    cases c with
    | normal =>
      cases r with
      | none => exact .pure ht' trivial
      | some w => exact hc.elim
    | returned v =>
      cases r with
      | none => exact hc.elim
      | some w => exact .pure ht' hc

theorem loop_sim (hev : EvaluateSim ev ev') (hex : ExecuteSim ex ex') {condition : RawExpr}
    {body : RawStmt} (hpc : condition.problems s = []) (hrc : condition.Regular Token.Spelled)
    (hpb : body.problems s = []) (hrb : body.Regular Token.Spelled) (hplain : body.isPlain)
    (hlawful : s.Lawful) (ht : t.Mirrored n) (hs : t.world.Shows t.machine.current s scope)
    (turns : Nat) :
    Sim n t (Eval.loop (ev (condition.bound s)) (ex (body.bound s)) turns)
      (loop (ev' scope condition) (ex' scope body) turns) World.Ends := by
  induction turns generalizing t with
  | zero => exact ⟨trivial, t.place, ht⟩
  | succ turns ih =>
    refine (hev condition s scope n t hpc hrc hlawful ht hs).bind fun v w t' ht' hl hv => ?_
    have hs' := hl.current ▸ hs.mono hl.grows
    rw [← Value.Rel.isTruthy_eq hv]
    cases v.isTruthy with
    | false => exact .pure ht' trivial
    | true =>
      have hafter := Stmt.after_of_isPlain (s := s) hrb hplain
      refine (hex body s scope n t' hpb hrb hlawful ht' (hafter.symm ▸ hs')).bind
        fun c r t'' ht'' hl' hc => ?_
      cases c with
      | normal =>
        cases r with
        | none => exact ih ht'' (hl'.current ▸ hs'.mono hl'.grows)
        | some w => exact hc.elim
      | returned v =>
        cases r with
        | none => exact hc.elim
        | some w => exact .pure ht'' hc

theorem newFunction_sim (ht : t.Mirrored n) (declaration : BoundFunction) (raw : RawFunction)
    (scope : Scope) (isInitializer : Bool) :
    Sim n t (Eval.newFunction declaration isInitializer) (newFunction scope raw isInitializer)
      fun _ f g => f.id = g.id ∧ f.declaration = declaration ∧ f.environment = t.machine.current ∧
        f.isInitializer = isInitializer ∧ g.declaration = raw ∧ g.environment = scope ∧
        g.isInitializer = isInitializer := by
  refine (nextId_sim ht).bind fun i j t' ht' hl hij => Sim.getMachine ?_
  exact .pure ht' ⟨hij, rfl, hl.current, rfl, rfl, rfl, rfl⟩

theorem newMethods_sim {fs : List RawFunction} {ms : Bindings Closure} {ms' : Bindings Code}
    (hp : Stmt.methodsProblems (s.push [("this", true)]) fs = [])
    (hr : Stmt.MethodsRegular Token.Spelled fs) (hlawful : (s.push [("this", true)]).Lawful)
    (ht : t.Mirrored n) (hs : t.world.Shows t.machine.current s scope)
    (hms : Bindings.Rel t.world.SameMethod ms ms') :
    Sim n t (Eval.newMethods (Stmt.methodsBound (s.push [("this", true)]) fs) ms)
      (newMethods scope fs ms') fun W => Bindings.Rel W.SameMethod := by
  induction fs generalizing t ms ms' with
  | nil => exact .pure ht hms
  | cons f fs ih =>
    obtain ⟨hpf, hps⟩ := List.append_eq_nil_iff.1 hp
    obtain ⟨name, parameters, body⟩ := f
    refine (newFunction_sim ht _ (.mk name parameters body) scope _).bind fun c d t' ht' hl hc => ?_
    obtain ⟨hid, hd, he, hi, hd', he', hi'⟩ := hc
    have hcd : t'.world.SameMethod c d := by
      refine ⟨hid, hi.trans hi'.symm, s, _, ⟨hd' ▸ hd, hd' ▸ hpf, hd' ▸ hr.1,
        Resolver.methodActivation_ne _, hlawful⟩, ?_⟩
      rw [he, he']
      exact hs.mono hl.grows
    refine ih hps hr.2 ht' (hl.current ▸ hs.mono hl.grows) ?_
    exact (hms.mono fun _ _ h => h.mono hl.grows).put name.lexeme hcd

theorem defineClass_sim (ht : t.Mirrored n) {token : Token}
    (hs : t.world.Shows t.machine.current (s.bind token.lexeme true) scope)
    (hb : (t.machine.environments.find? t.machine.current token.lexeme).isSome)
    {c : Nat → Class} {d : Nat → Blueprint} (hc : ∀ id, (c id).Rel t.world.SameMethod (d id)) :
    Sim n t
      (Eval.nextId >>= fun id => get >>= fun m => Eval.assignFrom m.current token (.class_ (c id)))
      (nextId >>= fun id => define scope token.lexeme (.class_ (d id))) fun _ _ _ => True := by
  refine (nextId_sim ht).bind fun i j t' ht' hl hij => Sim.getMachine ?_
  subst hij
  have hb' : (t'.machine.environments.find? t'.machine.current token.lexeme).isSome := by
    rw [hl.current]
    exact hl.grows.envs.bound _ _ hb
  have hv : t'.world.Alike (.class_ (c i)) (.class_ (d i)) :=
    Class.Rel.mono (hc i) fun _ _ h => h.mono hl.grows
  exact assignFrom_sim ht' (hl.current ▸ hs.mono hl.grows) Surroundings.hops_bind_self hb' hv

theorem declareRoot_sim {token : Token} {fs : List RawFunction} (ht : t.Mirrored n)
    (hs : t.world.Shows t.machine.current (s.bind token.lexeme true) scope)
    (hp : Stmt.methodsProblems ((s.bind token.lexeme true).ofMethods false) fs = [])
    (hr : Stmt.MethodsRegular Token.Spelled fs) :
    Sim n t
      (Eval.declareClass ev token none
        (Stmt.methodsBound ((s.bind token.lexeme true).ofMethods false) fs))
      (declareClass (ev' scope) scope token none fs) fun _ _ _ => True := by
  have hlawful := Surroundings.lawful_ofMethods (s.bind token.lexeme true) false
  refine (define_sim ht hs Surroundings.hops_bind_self (v := .nil) (w := .nil) trivial).bind
    fun _ _ t' ht' hl hb => ?_
  have hs' : t'.world.Shows t'.machine.current (s.bind token.lexeme true) scope :=
    hl.current ▸ hs.mono hl.grows
  have hclass : t'.world.Shows t'.machine.current
      { s.bind token.lexeme true with context := .class_ } scope :=
    hs'.hops_congr Iff.rfl fun _ => rfl
  refine (newMethods_sim hp hr hlawful ht' hclass .nil).bind fun ms ms' t'' ht'' hl' hms => ?_
  have hb' : (t''.machine.environments.find? t''.machine.current token.lexeme).isSome := by
    rw [hl'.current, hl.current]
    exact hl'.grows.envs.bound _ _ hb
  exact defineClass_sim (c := (.root · token.lexeme ms)) (d := (.root · token.lexeme ms')) ht''
    (hl'.current ▸ hs'.mono hl'.grows) hb' fun _ => ⟨rfl, rfl, hms⟩

theorem declareDerived_sim (hev : EvaluateSim ev ev') {token : Token} {superclass : Superclass Unit}
    {fs : List RawFunction} (ht : t.Mirrored n)
    (hs : t.world.Shows t.machine.current (s.bind token.lexeme true) scope)
    (hplace : (s.bind token.lexeme true).Lawful) (hsn : superclass.name.Names Token.Spelled)
    (hread : (s.bind token.lexeme true).misread superclass.name = [])
    (hp : Stmt.methodsProblems ((s.bind token.lexeme true).ofMethods true) fs = [])
    (hr : Stmt.MethodsRegular Token.Spelled fs) :
    Sim n t
      (Eval.declareClass ev token (some (superclass.bound (s.bind token.lexeme true)))
        (Stmt.methodsBound ((s.bind token.lexeme true).ofMethods true) fs))
      (declareClass (ev' scope) scope token (some superclass) fs) fun _ _ _ => True := by
  have hlawful := Surroundings.lawful_ofMethods (s.bind token.lexeme true) true
  refine (hev superclass.expr _ scope n t hread hsn hplace ht hs).bind fun v w t₁ ht₁ hl₁ hv => ?_
  unfold World.Alike Value.Rel at hv
  split at hv
  case h_7 c d =>
    have hs₁ : t₁.world.Shows t₁.machine.current (s.bind token.lexeme true) scope :=
      hl₁.current ▸ hs.mono hl₁.grows
    refine (define_sim ht₁ hs₁ Surroundings.hops_bind_self (v := .nil) (w := .nil) trivial).bind
      fun _ _ t₂ ht₂ hl₂ hb => Sim.getMachine ?_
    have hs₂ : t₂.world.Shows t₂.machine.current (s.bind token.lexeme true) scope :=
      hl₂.current ▸ hs₁.mono hl₂.grows
    have hclass : t₂.world.Shows t₂.machine.current
        { s.bind token.lexeme true with context := .subclass } scope :=
      hs₂.hops_congr Iff.rfl fun _ => rfl
    have hcd := hv.mono fun _ _ h => World.SameMethod.mono h hl₂.grows
    refine newBinding_sim ht₂ hclass "super" (v := .class_ c) (w := .class_ d) hcd
      fun e scope' t₃ ht₃ hl₃ hs₃ => ?_
    refine (inEnvironment_sim (newMethods_sim
      (t := { t₃ with machine := { t₃.machine with current := e } })
      hp hr hlawful { ht₃ with } hs₃ .nil)).bind fun ms ms' t₄ ht₄ hl₄ hms => ?_
    have hl := hl₃.trans hl₄
    have hb' : (t₄.machine.environments.find? t₄.machine.current token.lexeme).isSome := by
      rw [hl.current, hl₂.current]
      exact hl.grows.envs.bound _ _ hb
    exact defineClass_sim (c := (.derived · token.lexeme ms c))
      (d := (.derived · token.lexeme ms' d)) ht₄ (hl.current ▸ hs₂.mono hl.grows) hb'
      fun _ => ⟨rfl, rfl, hms, hcd.mono fun _ _ h => h.mono hl.grows⟩
  all_goals first | exact hv.elim | exact .raise ht₁ (by simp) _

theorem declareVar_sim (settings : Settings) (hev : EvaluateSim ev ev') {name : Token}
    {initializer : Option RawExpr}
    (hp : (Stmt.var name initializer).problems s = [])
    (hr : (Stmt.var name initializer).Regular Token.Spelled) (hlawful : s.Lawful)
    (ht : t.Mirrored n)
    (hs : t.world.Shows t.machine.current (Stmt.after s (Stmt.var name initializer)) scope) :
    Sim n t (Eval.executeForm settings ev ex ((Stmt.var name initializer).bound s))
      (executeForm settings (ev' scope) ex' scope (Stmt.var name initializer)) World.Ends := by
  obtain ⟨-, hpi⟩ := List.append_eq_nil_iff.1 hp
  have hdefine {t' : Twin} (ht' : t'.Mirrored n) (hl : t.Later n t') {v : Value} {w : Datum}
      (hv : t'.world.Alike v w) :
      Sim n t' (Eval.define name.lexeme v >>= fun _ => Pure.pure Completion.normal)
        (define scope name.lexeme w >>= fun _ => Pure.pure none) World.Ends :=
    (define_sim ht' (hl.current ▸ hs.mono hl.grows) Surroundings.hops_bind_self hv).bind
      fun _ _ t'' ht'' _ _ => .pure ht'' trivial
  cases initializer with
  | none => exact hdefine ht (.refl n t) (v := .nil) (w := .nil) trivial
  | some e =>
    have hs' : t.world.Shows t.machine.current ((s.bind name.lexeme false).initializing name)
        scope := by
      refine hs.hops_congr ?_ fun x => ?_
      · rw [Surroundings.scopes_initializing, Surroundings.bind_scopes_eq_nil]
        exact (Surroundings.bind_scopes_eq_nil s name.lexeme true).symm
      · rw [Surroundings.hops_initializing]
        exact Surroundings.hops_bind_ready s name.lexeme x false true
    have hl := (hlawful.bind (Token.lexeme_ne_this hr.1) (Token.lexeme_ne_super hr.1)
      false).initializing name
    exact (hev e _ scope n t hpi (hr.2 e rfl) hl ht hs').bind
      fun v w t' ht' hl hv => hdefine ht' hl hv

theorem declareFunction_sim (settings : Settings) {f : RawFunction}
    (hp : (Stmt.function f).problems s = [])
    (hr : (Stmt.function f).Regular Token.Spelled) (hlawful : s.Lawful)
    (ht : t.Mirrored n)
    (hs : t.world.Shows t.machine.current (Stmt.after s (Stmt.function f)) scope) :
    Sim n t (Eval.executeForm settings ev ex ((Stmt.function f).bound s))
      (executeForm settings (ev' scope) ex' scope (Stmt.function f)) World.Ends := by
  have hafter := Stmt.lawful_after hlawful hr
  obtain ⟨name, parameters, body⟩ := f
  obtain ⟨-, hpf⟩ := List.append_eq_nil_iff.1 hp
  refine (newFunction_sim ht _ (.mk name parameters body) scope false).bind
    fun f g t' ht' hl hf => ?_
  obtain ⟨hid, hd, he, hi, hd', he', hi'⟩ := hf
  have hs' : t'.world.Shows t'.machine.current (s.bind name.lexeme true) scope :=
    hl.current ▸ hs.mono hl.grows
  have hfg : t'.world.SameFunction f g := by
    refine ⟨hid, hi.trans hi'.symm, s.bind name.lexeme true, .function,
      ⟨hd' ▸ hd, hd' ▸ hpf, hd' ▸ hr, by simp, hafter⟩, fun h => absurd (hi ▸ h) (by simp), ?_⟩
    rw [he, he', ← hl.current]
    exact hs'
  have hname : f.name = name.lexeme := congrArg (·.name.lexeme) hd
  have hname' : g.name = name.lexeme := congrArg (·.name.lexeme) hd'
  rw [hname, hname']
  exact (define_sim ht' hs' Surroundings.hops_bind_self (v := .function f) (w := .function g)
    hfg).bind fun _ _ t'' ht'' _ _ => .pure ht'' trivial

theorem ifElse_sim (settings : Settings) (hev : EvaluateSim ev ev')
    (hex : ExecuteSim ex ex') {line : Nat} {e : RawExpr} {a b : RawStmt}
    (hp : (Stmt.ifElse line e a b).problems s = [])
    (hr : (Stmt.ifElse line e a b).Regular Token.Spelled) (hlawful : s.Lawful)
    (ht : t.Mirrored n)
    (hs : t.world.Shows t.machine.current (Stmt.after s (Stmt.ifElse line e a b)) scope) :
    Sim n t (Eval.executeForm settings ev ex ((Stmt.ifElse line e a b).bound s))
      (executeForm settings (ev' scope) ex' scope (Stmt.ifElse line e a b)) World.Ends := by
  obtain ⟨hpct, hpe⟩ := List.append_eq_nil_iff.1 hp
  obtain ⟨hpc, hpt⟩ := List.append_eq_nil_iff.1 hpct
  obtain ⟨hrc, ⟨hrt, htp⟩, hre, hep⟩ := id hr
  have hthen := Stmt.after_of_isPlain (s := s) hrt htp
  have helse := Stmt.after_of_isPlain (s := s) hre hep
  have hs' : t.world.Shows t.machine.current s scope := by
    have h : t.world.Shows t.machine.current
        (Stmt.after (Stmt.after s a) b) scope := hs
    rwa [hthen, helse] at h
  refine (hev e s scope n t hpc hrc hlawful ht hs').bind fun v w t' ht' hl hv => ?_
  have hs'' : t'.world.Shows t'.machine.current s scope := hl.current ▸ hs'.mono hl.grows
  rw [← Value.Rel.isTruthy_eq hv]
  cases v.isTruthy with
  | true => exact hex a s scope n t' hpt hrt hlawful ht' (hthen.symm ▸ hs'')
  | false =>
    refine hex b _ scope n t' hpe hre (hthen.symm ▸ hlawful) ht' ?_
    rw [hthen, helse]
    exact hs''

theorem executeForm_sim (settings : Settings) (hev : EvaluateSim ev ev')
    (hex : ExecuteSim ex ex') {st : RawStmt} (hp : st.problems s = [])
    (hr : st.Regular Token.Spelled) (hlawful : s.Lawful)
    (ht : t.Mirrored n) (hs : t.world.Shows t.machine.current (Stmt.after s st) scope) :
    Sim n t (Eval.executeForm settings ev ex (st.bound s))
      (executeForm settings (ev' scope) ex' scope st) World.Ends := by
  have hafter := Stmt.lawful_after hlawful hr
  cases st with
  | expression line value =>
    refine (hev value s scope n t hp hr hlawful ht hs).bind fun v w t' ht' _ _ => ?_
    exact .pure ht' trivial
  | print line value =>
    refine (hev value s scope n t hp hr hlawful ht hs).bind fun v w t' ht' _ hv => ?_
    rw [hv.text_eq]
    exact (printLine_sim ht' _).bind fun _ _ t'' ht'' _ _ => .pure ht'' trivial
  | var name initializer => exact declareVar_sim settings hev hp hr hlawful ht hs
  | block line body => exact Sim.getMachine (executeBlock_sim hex hp hr hlawful ht hs)
  | ifThen line condition thenBranch =>
    obtain ⟨hpc, hpt⟩ := List.append_eq_nil_iff.1 hp
    have hplain := Stmt.after_of_isPlain (s := s) hr.2.1 hr.2.2
    have hs' : t.world.Shows t.machine.current s scope := hplain ▸ hs
    refine (hev condition s scope n t hpc hr.1 hlawful ht hs').bind fun v w t' ht' hl hv => ?_
    rw [← Value.Rel.isTruthy_eq hv]
    cases v.isTruthy with
    | true =>
      exact hex thenBranch s scope n t' hpt hr.2.1 hlawful ht' (hl.current ▸ hs.mono hl.grows)
    | false => exact .pure ht' trivial
  | ifElse line condition thenBranch elseBranch =>
    exact ifElse_sim settings hev hex hp hr hlawful ht hs
  | while_ line condition body =>
    obtain ⟨hpc, hpb⟩ := List.append_eq_nil_iff.1 hp
    have hplain := Stmt.after_of_isPlain (s := s) hr.2.1 hr.2.2
    exact loop_sim hev hex hpc hr.1 hpb hr.2.1 hr.2.2 hlawful ht (hplain ▸ hs) settings.turns
  | function f => exact declareFunction_sim settings hp hr hlawful ht hs
  | return_ keyword value =>
    obtain ⟨-, hpv⟩ := List.append_eq_nil_iff.1 hp
    cases value with
    | none => exact .pure ht trivial
    | some e =>
      exact (hev e s scope n t hpv (hr.2 e rfl) hlawful ht hs).bind
        fun v w t' ht' _ hv => .pure ht' hv
  | class_ line name superclass methods =>
    obtain ⟨hps, hpm⟩ := List.append_eq_nil_iff.1 hp
    obtain ⟨-, hps⟩ := List.append_eq_nil_iff.1 hps
    obtain ⟨hn, hrs, hrm⟩ := hr
    refine Sim.bind (Q := fun _ _ _ => True) ?_ fun _ _ t' ht' _ _ => .pure ht' trivial
    cases superclass with
    | none => exact declareRoot_sim ht hs hpm hrm
    | some c =>
      obtain ⟨-, hread⟩ := List.append_eq_nil_iff.1 hps
      exact declareDerived_sim hev ht hs hafter (hrs c rfl) hread hpm hrm

theorem evaluate_execute_sim (settings : Settings) (nesting : Nat) :
    EvaluateSim (Eval.evaluate settings nesting) (evaluate settings nesting) ∧
      ExecuteSim (Eval.execute settings nesting) (execute settings nesting) := by
  induction nesting with
  | zero =>
    exact ⟨fun e s scope n t _ _ _ ht _ => ⟨trivial, t.place, ht⟩,
      fun st s scope n t _ _ _ ht _ => ⟨trivial, t.place, ht⟩⟩
  | succ nesting ih =>
    obtain ⟨hev, hex⟩ := ih
    refine ⟨fun e s scope n t hp hr hlawful ht hs => ?_,
      fun st s scope n t hp hr hlawful ht hs => ?_⟩
    · exact evaluateForm_sim settings hev (apply_sim hex) hp hr hlawful ht hs
    · by_cases htrace : settings.trace
      · have ht' := trace_mirrored ht (st.bound s).line (st.bound s).kind
        refine (executeForm_sim settings hev hex hp hr hlawful ht' hs).after
          ⟨.refl _, fun _ _ => rfl, rfl⟩ ?_ rfl
        simp only [Eval.execute, if_pos htrace]
        rfl
      · refine (executeForm_sim settings hev hex hp hr hlawful ht hs).after
          (.refl n t) ?_ rfl
        simp only [Eval.execute, if_neg htrace]

theorem executeProgram_sim (settings : Settings) {ss : List RawStmt}
    (hp : Stmt.problemsList s ss = [])
    (hr : Stmt.RegularList Token.Spelled ss) (hlawful : s.Lawful) (hglobal : s.scopes = [])
    (ht : t.Mirrored n) (hs : t.world.Shows t.machine.current s .topLevel) :
    Sim n t (Eval.executeProgram settings (Stmt.boundList s ss)) (executeProgram settings ss)
      fun _ _ _ => True := by
  induction ss generalizing s t with
  | nil => exact .pure ht trivial
  | cons st ss ih =>
    obtain ⟨hps, hpl⟩ := List.append_eq_nil_iff.1 hp
    have hafter : Stmt.after s st = s := by
      cases hd : st.declared? with
      | none => exact Stmt.after_of_isPlain hr.1 (Stmt.isPlain_of_not_declared hd)
      | some name => rw [Stmt.after_of_declared hd, Surroundings.bind_of_global hglobal]
    rw [hafter] at hpl
    have hex := (evaluate_execute_sim settings settings.nesting).2
    refine (hex st s .topLevel n t hps hr.1 hlawful ht (hafter.symm ▸ hs)).bind
      fun _ _ t' ht' hl _ => ?_
    have h := ih hpl hr.2 hlawful hglobal ht' (hl.current ▸ hs.mono hl.grows)
    rwa [← hafter] at h

end
end Lox.Lexical
