import Lox.Proofs.Household

/-! Receivers. While a program runs, each function stays at home and new ones are entered in the
ledger. So an evaluation that relies on homes ends as the evaluation itself does. -/

namespace Lox

namespace Household
open Eval
variable {s t : Household} {α : Type}

abbrev Runs (s : Household) {β : Type} (x : Ledger × Failure → Eval α) (y : Eval β)
    (Q : Household → α → β → Prop) : Prop := Parallel.Runs (P := homes) s x y Q

abbrev Alike (s : Household) : Value → Value → Prop := Parallel.Alike (P := homes) s

theorem eq_of_alike {v w : Value} (h : Alike s v w) : v = w :=
  Value.Rel.eq (fun _ _ h => h.1) (fun _ _ h => h.1) h

/-- A step that stores something. -/
theorem runs_step {f : Machine → α × Machine} (hk : s.ledger.Keeps (f s.machine).2)
    (hc : (f s.machine).2.created = s.machine.created)
    (hr : s.machine.environments.Retains (f s.machine).2.environments)
    (hcur : (f s.machine).2.current = s.machine.current) {Q : Household → α → α → Prop}
    (hQ : Q ⟨s.ledger, (f s.machine).2, hk⟩ (f s.machine).1 (f s.machine).1) :
    s.Runs (fun _ => modifyGet f) (modifyGet f) Q :=
  ⟨⟨s.ledger, (f s.machine).2, hk⟩, ⟨fun _ _ => rfl, Nat.le_of_eq hc.symm, hr, hcur⟩,
    .inl ⟨_, _, hQ, rfl, fun _ _ => rfl⟩⟩

theorem emit_runs (s : Household) (e : Event) :
    s.Runs (fun _ => emit e) (emit e) fun _ _ _ => True :=
  runs_step ⟨s.keeps.globals, s.keeps.bound, s.keeps.fields⟩ rfl (.refl _) rfl trivial

theorem readClock_runs (s : Household) : s.Runs (fun _ => readClock) readClock Alike :=
  runs_step ⟨s.keeps.globals, s.keeps.bound, s.keeps.fields⟩ rfl (.refl _) rfl rfl

theorem newInstance_runs (s : Household) {c d : Class} (h : c.Rel (homes.Method s) d) :
    s.Runs (fun _ => newInstance c) (newInstance d) Alike := by
  obtain rfl := Class.Rel.eq (fun _ _ h => h.1) h
  refine runs_step ⟨s.keeps.globals, s.keeps.bound, fun ref b x v hb hx => ?_⟩ rfl (.refl _) rfl
    ⟨rfl, h⟩
  exact s.keeps.fields ref b x v (getElem?_of_push_nil hb hx) hx

theorem setField_runs (s : Household) (ref : Nat) (name : String) {v w : Value}
    (h : Alike s v w) :
    s.Runs (fun _ => setField ref name v) (setField ref name w) fun _ _ _ => True := by
  obtain rfl := eq_of_alike h
  refine runs_step ⟨s.keeps.globals, s.keeps.bound, fun r b x u hb hx => ?_⟩ rfl (.refl _) rfl
    trivial
  rcases getElem?_of_modify_put hb hx with rfl | ⟨b', hb', hx⟩
  · exact h
  · exact s.keeps.fields r b' x u hb' hx

theorem getField?_runs (s : Household) (ref : Nat) (name : String) :
    s.Runs (fun _ => getField? ref name) (getField? ref name)
      fun t => Option.Rel (Alike t) := by
  refine Parallel.Runs.get (.pure ?_)
  show Option.Rel (Alike s) ((s.machine.objects[ref]?).bind (·.find? name))
    ((s.machine.objects[ref]?).bind (·.find? name))
  cases hv : (s.machine.objects[ref]?).bind (·.find? name) with
  | none => exact .none
  | some v =>
    obtain ⟨b, hb, hx⟩ := Option.bind_eq_some_iff.1 hv
    exact .some (s.keeps.fields ref b name v hb hx)

theorem newEnvironment_runs {p : Nat} (hp : p < s.machine.environments.frames.size)
    {b : Bindings Value} (hb : ∀ x v, b.find? x = some v → Alike s v v) :
    s.Runs (fun _ => newEnvironment p b) (newEnvironment p b) fun t e e' =>
      e = e' ∧ p < e ∧ e < t.machine.environments.frames.size ∧
        t.machine.environments.link? e = some p ∧
        (∀ x v, b.find? x = some v → t.machine.environments.find? e x = some v) := by
  have hr := Environments.retains_create s.machine.environments (some p) b
  have hmono {v : Value} (hv : Alike s v v) :
      s.ledger.Same s.machine.created (s.machine.environments.create (some p) b).2 v v :=
    Ledger.Same.mono hv (fun _ _ => rfl) (Nat.le_refl _) hr
  refine runs_step ⟨Nat.lt_of_lt_of_le s.keeps.globals hr.grows.size, fun e x v hv => ?_,
    fun ref b' x v hb' hx => hmono (s.keeps.fields ref b' x v hb' hx)⟩ rfl hr rfl
    ⟨rfl, hp, ?_, ?_, fun x v hx => ?_⟩
  · rcases Environments.of_find?_create hv with hv | hv
    · exact hmono (hb x v hv)
    · exact hmono (s.keeps.bound e x v hv)
  · rw [Environments.size_create]
    exact Nat.lt_succ_self _
  · rw [Environments.link?_create]
    exact if_pos rfl
  · rw [Environments.find?_create]
    exact (if_pos rfl).trans hx

theorem defineIn_runs (e : Nat) {name : Token} (hn : name.Plain) {v w : Value}
    (h : Alike s v w) :
    s.Runs (fun _ => defineIn e name.lexeme v) (defineIn e name.lexeme w) fun _ _ _ => True := by
  obtain rfl := eq_of_alike h
  have hr := Environments.retains_define hn s.machine.environments e v
  have hmono {u : Value} (hu : Alike s u u) : s.ledger.Same s.machine.created
      (s.machine.environments.define e name.lexeme v) u u :=
    Ledger.Same.mono hu (fun _ _ => rfl) (Nat.le_refl _) hr
  refine runs_step ⟨Nat.lt_of_lt_of_le s.keeps.globals hr.grows.size, fun e' x u hu => ?_,
    fun ref b x u hb hx => hmono (s.keeps.fields ref b x u hb hx)⟩ rfl hr rfl trivial
  rcases Environments.of_find?_define hu with ⟨rfl, rfl⟩ | hu
  · exact hmono h
  · exact hmono (s.keeps.bound e' x u hu)

theorem define_runs {name : Token} (hn : name.Plain) {v w : Value} (h : Alike s v w) :
    s.Runs (fun _ => define name.lexeme v) (define name.lexeme w) fun _ _ _ => True :=
  defineIn_runs (s := s) s.machine.current hn h

theorem assignFrom_runs (e : Nat) {name : Token} (hn : name.Plain) {v w : Value}
    (h : Alike s v w) :
    s.Runs (fun _ => assignFrom e name v) (assignFrom e name w) fun _ _ _ => True :=
  Parallel.assignFrom_runs rfl fun owner _ => defineIn_runs owner hn h

theorem ofFault_runs {r : Except Fault α} {Q : Household → α → α → Prop}
    (h : ∀ a, r = .ok a → Q s a a) : s.Runs (fun _ => ofFault r) (ofFault r) Q := by
  cases r with
  | ok a => exact .pure (h a rfl)
  | error f => exact .throw _

theorem alike_of_getAt {e d : Nat} {x : String} {v : Value}
    (h : s.machine.environments.getAt e d x = .ok v) : Alike s v v := by
  obtain ⟨a, -, hf⟩ := Environments.getAt_eq_ok.1 h
  exact s.keeps.bound a x v hf

theorem lookUp_runs (s : Household) (name : Token) (target : Hops) :
    s.Runs (fun _ => lookUp name target) (lookUp name target) Alike := by
  cases target with
  | some d => exact Parallel.Runs.get (ofFault_runs fun v hv => alike_of_getAt hv)
  | none =>
    refine Parallel.lookUp_runs ?_
    show Option.Rel (Alike s) (s.machine.environments.get? Machine.globals name.lexeme)
      (s.machine.environments.get? Machine.globals name.lexeme)
    cases hv : s.machine.environments.get? Machine.globals name.lexeme with
    | none => exact .none
    | some v =>
      obtain ⟨owner, -, hf⟩ := Option.bind_eq_some_iff.1 hv
      exact .some (s.keeps.bound owner _ v hf)

theorem assign_runs {name : Token} (hn : name.Plain) (target : Hops) {v w : Value}
    (h : Alike s v w) :
    s.Runs (fun _ => assign name target v) (assign name target w) fun _ _ _ => True := by
  cases target with
  | none => exact assignFrom_runs Machine.globals hn h
  | some d =>
    refine Parallel.Runs.get ?_
    refine Parallel.Runs.bind (ofFault_runs (Q := fun t owner owner' =>
      owner = owner' ∧ Alike t v w) fun _ _ => ⟨rfl, h⟩) fun t owner _ _ ho => ?_
    obtain ⟨rfl, hv⟩ := ho
    exact defineIn_runs owner hn hv

theorem keeps_mono {L L' : Ledger} {m m' : Machine} (h : L.Keeps m) (hL : L.Agrees m.created L')
    (hc : m.created ≤ m'.created) (he : m'.environments = m.environments)
    (ho : m'.objects = m.objects) : L'.Keeps m' := by
  have hmono {v : Value} (hv : L.Same m.created m.environments v v) :
      L'.Same m'.created m'.environments v v :=
    hv.mono hL hc (he ▸ .refl _)
  exact ⟨he ▸ h.globals, fun e x v hv => hmono (h.bound e x v (he ▸ hv)),
    fun ref b x v hb hx => hmono (h.fields ref b x v (ho ▸ hb) hx)⟩

/-- Whoever is created next is entered in the ledger. -/
theorem nextId_runs (s : Household) (home : Home) :
    s.Runs (fun _ => nextId) nextId fun t id id' =>
      id = id' ∧ id < t.machine.created ∧ t.ledger id = home := by
  let L : Ledger := fun id => if id = s.machine.created then home else s.ledger id
  have hL : s.ledger.Agrees s.machine.created L := fun id hid => if_neg (Nat.ne_of_lt hid)
  have hc : s.machine.created ≤ s.machine.created + 1 := Nat.le_succ _
  have hkeeps : L.Keeps { s.machine with created := s.machine.created + 1 } :=
    keeps_mono s.keeps hL hc rfl rfl
  exact ⟨⟨L, _, hkeeps⟩, ⟨hL, hc, .refl _, rfl⟩,
    .inl ⟨_, _, ⟨rfl, Nat.lt_succ_self _, if_pos rfl⟩, rfl, fun _ _ => rfl⟩⟩

theorem check_runs {f : Closure} {home : Home} (hc : f.id < s.machine.created)
    (hf : s.ledger f.id = home) {β : Type} {x : Ledger × Failure → Eval α} {y : Eval β}
    {Q : Household → α → β → Prop} (h : s.Runs x y Q) :
    s.Runs (fun told => Ledger.check told.1 told.2 f home >>= fun _ => x told) y Q := by
  refine Parallel.Runs.congr h fun told htold => ?_
  have hhome : told.1 f.id = home := (htold f.id hc).trans hf
  show (Ledger.check told.1 told.2 f home >>= fun _ => x told) s.machine = _
  rw [Ledger.check, if_pos hhome]
  rfl

theorem bindMethod_runs (s : Household) {f g : Closure} {v w : Value} (hf : homes.Method s f g)
    (hv : Alike s v w) :
    s.Runs (fun told => Ledger.bindMethod told.1 told.2 f v) (bindMethod g w) homes.Function := by
  obtain ⟨rfl, hoffers⟩ := hf
  obtain rfl := eq_of_alike hv
  obtain ⟨superclass, hhome, hseated, hsuper⟩ := hoffers.class_
  refine Parallel.Runs.congr (z := fun told : Ledger × Failure => bindMethod f v >>= fun f' =>
    Ledger.check told.1 told.2 f' (.method superclass v) >>= fun _ => pure f') ?_
    fun told htold => ?_
  · have hthis (x : String) (u : Value) (hu : Bindings.find? [("this", v)] x = some u) :
        Alike s u u := by
      obtain ⟨rfl, rfl⟩ := Bindings.eq_of_find?_singleton hu
      exact hv
    show s.Runs (fun told => (newEnvironment f.environment [("this", v)] >>= fun e =>
      nextId >>= fun id => pure { f with id, environment := e }) >>= fun f' =>
        Ledger.check told.1 told.2 f' (.method superclass v) >>= fun _ => pure f')
      (newEnvironment f.environment [("this", v)] >>= fun e =>
        nextId >>= fun id => pure { f with id, environment := e }) _
    simp only [bind_assoc, pure_bind]
    refine (newEnvironment_runs hoffers.exists_ hthis).bind fun t e _ ht he => ?_
    obtain ⟨rfl, hlt, hsize, hlink, hfind⟩ := he
    refine (nextId_runs t (.method superclass v)).bind fun u id _ hu hid => ?_
    obtain ⟨rfl, hcreated, hledger⟩ := hid
    refine check_runs hcreated hledger
      (.pure ⟨rfl, hcreated, some ⟨0, superclass.isSome⟩, hseated, ?_⟩)
    have hhouse : t.machine.environments.Houses e (some ⟨0, superclass.isSome⟩)
        (.method superclass v) := by
      refine ⟨hsize, fun k hk => ?_⟩
      cases hk
      refine ⟨superclass, v, rfl, Environments.getAt_eq_ok.2 ⟨e, rfl, hfind "this" v rfl⟩,
        fun hk => ?_⟩
      obtain ⟨c, hc⟩ := Option.isSome_iff_exists.1 hk
      have hbound : t.machine.environments.getAt f.environment 0 "super" = .ok (.class_ c) :=
        Environments.getAt_eq_ok.2 ⟨f.environment, rfl, ht.environments.super _ _ (hsuper c hc)⟩
      exact ⟨c, hc, Environments.getAt_of_link hlink hlt hbound⟩
    show u.machine.environments.Houses e _ (u.ledger id)
    rw [hledger]
    exact hhouse.mono hu.environments
  · show Ledger.bindMethod told.1 told.2 f v s.machine = _
    rw [Ledger.bindMethod, htold f.id hoffers.created, hhome]
    rfl

/-- The same household in another place. -/
def moved (s : Household) (current callDepth : Nat) : Household where
  ledger := s.ledger
  machine := { s.machine with current, callDepth }
  keeps := keeps_mono s.keeps (fun _ _ => rfl) (Nat.le_refl _) rfl rfl

theorem inEnvironment_runs (e : Nat) {β : Type} {x : Ledger × Failure → Eval α} {y : Eval β}
    {Q : Household → α → β → Prop}
    (hQ : ∀ (t : Household) a b current callDepth, Q t a b → Q (t.moved current callDepth) a b)
    (h : (s.moved e s.machine.callDepth).Runs x y Q) :
    s.Runs (fun told => inEnvironment e (x told)) (inEnvironment e y) Q := by
  simp only [inEnvironment_eq]
  refine Parallel.Runs.within h rfl rfl (fun _ _ h => h) fun t ht => ?_
  exact ⟨t.moved s.machine.current t.machine.callDepth,
    ⟨ht.ledger, ht.created, ht.environments, rfl⟩, rfl, rfl, fun a b => hQ t a b _ _, fun _ h => h⟩

theorem inCall_runs (s : Household) (line : Nat) {x : Ledger × Failure → Eval Value}
    {y : Eval Value} (h : ∀ t, s.Later t → t.Runs x y Alike) :
    s.Runs (fun told => inCall line (x told)) (inCall line y) Alike := by
  have hlater : s.Later (s.moved s.machine.current (s.machine.callDepth + 1)) :=
    ⟨fun _ _ => rfl, Nat.le_refl _, .refl _, rfl⟩
  simp only [inCall_eq]
  refine Parallel.Runs.within (h _ hlater) rfl rfl (fun f g h => ?_) fun t ht => ?_
  · exact congrArg (blamed line) h
  · exact ⟨t.moved t.machine.current (t.machine.callDepth - 1),
      ⟨ht.ledger, ht.created, ht.environments, ht.current⟩, rfl, rfl, fun _ _ h => h, fun _ h => h⟩

theorem laws : homes.Laws fun told => Ledger.bindMethod told.1 told.2 where
  callDepth _ := rfl
  emit := emit_runs
  readClock := readClock_runs
  newInstance s _ _ h := newInstance_runs s h
  getField? := getField?_runs
  setField s ref name _ _ h := setField_runs s ref name h
  bindMethod s _ _ _ _ hf hv := bindMethod_runs s hf hv
  inCall s line _ _ h := inCall_runs s line h

/-- The household is at a place of that seat, in a function of that home. -/
def Stands (s : Household) (seat : Option Seat) (home : Home) : Prop :=
  s.machine.environments.Houses s.machine.current seat home

theorem Stands.later {seat : Option Seat} {home : Home} (h : s.Stands seat home) (ht : s.Later t) :
    t.Stands seat home := by
  unfold Stands
  rw [ht.current]
  exact Environments.Houses.mono h ht.environments

section
variable (ev : Ledger × Failure → Home → BoundExpr → Eval Value) (ev' : BoundExpr → Eval Value)
  (ex : Ledger × Failure → Home → BoundStmt → Eval Completion)
  (ex' : BoundStmt → Eval Completion)

def EvaluateKept : Prop :=
  ∀ (s : Household) seat home (e : BoundExpr), e.Seated seat → s.Stands seat home →
    s.Runs (fun told => ev told home e) (ev' e) Alike

def ExecuteKept : Prop :=
  ∀ (s : Household) seat home (st : BoundStmt), st.Seated seat → s.Stands seat home →
    s.Runs (fun told => ex told home st) (ex' st) (Parallel.Ends (P := homes))

end

section forms
variable {ev : Ledger × Failure → Home → BoundExpr → Eval Value} {ev' : BoundExpr → Eval Value}
  {ex : Ledger × Failure → Home → BoundStmt → Eval Completion}
  {ex' : BoundStmt → Eval Completion} {seat : Option Seat} {home : Home}

theorem forall₂_of_seatedExprs {es : List BoundExpr} (h : Expr.SeatedList seat es) :
    List.Forall₂ (fun e e' => e = e' ∧ e.Seated seat) es es := by
  induction es with
  | nil => exact .nil
  | cons e es ih => exact .cons ⟨rfl, h.1⟩ (ih h.2)

theorem forall₂_of_seatedStmts {ss : List BoundStmt} (h : Stmt.SeatedList seat ss) :
    List.Forall₂ (fun st st' => st = st' ∧ st.Seated seat) ss ss := by
  induction ss with
  | nil => exact .nil
  | cons st ss ih => exact .cons ⟨rfl, h.1⟩ (ih h.2)

theorem executeBlock_runs (hex : ExecuteKept ex ex') {p : Nat}
    (hp : s.machine.environments.Houses p seat home) {b : Bindings Value}
    (hb : ∀ x v, b.find? x = some v → Alike s v v) {body : List BoundStmt}
    (hbody : Stmt.SeatedList (seat.map Seat.inner) body) :
    s.Runs (fun told => executeBlock (ex told home) p b body) (executeBlock ex' p b body)
      (Parallel.Ends (P := homes)) := by
  refine (newEnvironment_runs hp.exists_ hb).bind fun t e _ ht he => ?_
  obtain ⟨rfl, hlt, hsize, hlink, -⟩ := he
  refine inEnvironment_runs e (fun _ _ _ _ _ h => h) ?_
  have hhouse : (t.moved e t.machine.callDepth).Stands (seat.map Seat.inner) home :=
    (hp.mono ht.environments).inner hlink hlt hsize
  refine Parallel.executeAll_runs (forall₂_of_seatedStmts hbody) fun u st st' hu hst => ?_
  obtain ⟨rfl, hst⟩ := hst
  exact hex u _ home st hst (hhouse.later hu)

/-- A function runs at its own home, whoever calls it. -/
theorem apply_runs (hex : ExecuteKept ex ex') {f g : Closure} (hf : homes.Function s f g)
    {vs ws : List Value} (hvs : List.Forall₂ (Alike s) vs ws) :
    s.Runs (fun told => apply (ex told (told.1 f.id)) f vs) (apply ex' g ws) Alike := by
  obtain ⟨rfl, hlodges⟩ := hf
  obtain ⟨seat, hseated, hhouse⟩ := hlodges.seated
  obtain rfl : vs = ws := by
    induction hvs with
    | nil => rfl
    | cons h _ ih => rw [eq_of_alike h, ih]
  have harguments (x : String) (v : Value)
      (hv : (Bindings.ofPairs ((f.declaration.parameters.map Token.lexeme).zip vs)).find? x =
        some v) : Alike s v v := by
    have hmem := (List.of_mem_zip (Bindings.mem_of_find?_ofPairs hv)).2
    obtain ⟨i, hi, rfl⟩ := List.mem_iff_getElem.1 hmem
    exact hvs.get hi hi
  have hbody : Stmt.SeatedList (seat.map Seat.inner) f.declaration.body := by
    cases hd : f.declaration
    rw [hd] at hseated
    exact hseated
  refine Parallel.Runs.congr (z := fun told : Ledger × Failure =>
    apply (ex told (s.ledger f.id)) f vs) ?_ fun told htold => by rw [htold f.id hlodges.created]
  refine (executeBlock_runs hex hhouse harguments hbody).bind fun t c d _ hc => ?_
  cases f.isInitializer with
  | true => exact Parallel.Runs.get (ofFault_runs fun v hv => alike_of_getAt hv)
  | false =>
    cases c <;> cases d
    · exact .pure trivial
    · exact hc.elim
    · exact hc.elim
    · exact .pure hc

theorem this_runs {keyword : Token} {target : Hops}
    (h : Expr.Seated seat (.this keyword target)) (hs : s.Stands seat home) :
    s.Runs (fun told => Ledger.this told.2 home) (lookUp keyword target) Alike := by
  obtain ⟨hkeyword, k, hk, rfl⟩ := h
  obtain ⟨superclass, receiver, rfl, hthis, -⟩ := hs.seated k hk
  refine Parallel.Runs.get ?_
  show s.Runs _ (ofFault (s.machine.environments.getAt s.machine.current k.distance
    keyword.lexeme)) _
  rw [hkeyword, hthis]
  exact .pure (alike_of_getAt hthis)

theorem superMethod_runs {keyword method : Token} {target : Hops}
    (h : Expr.Seated seat (.super keyword target method)) (hs : s.Stands seat home) :
    s.Runs (fun told => Ledger.superMethod told.1 told.2 home method)
      (superMethod keyword target method) Alike := by
  obtain ⟨k, hk, hhas, rfl⟩ := h
  obtain ⟨superclass, receiver, rfl, hthis, hderived⟩ := hs.seated k hk
  obtain ⟨c, rfl, hsuper⟩ := hderived hhas
  refine Parallel.Runs.get ?_
  show s.Runs _ (ofFault (s.machine.environments.getAt s.machine.current (k.distance + 1) "super")
    >>= fun superclass =>
      ofFault (s.machine.environments.getAt s.machine.current k.distance "this") >>= fun receiver =>
        _) _
  rw [hthis, hsuper]
  have hc : c.Rel (homes.Method s) c := alike_of_getAt hsuper
  simp only [ofFault, pure_bind]
  rcases hc.findMethod method.lexeme with ⟨hf, -⟩ | ⟨f, g, hf, hg, hfg⟩
  · rw [hf]
    exact .throw _
  · obtain rfl := Option.some.inj (hf.symm.trans hg)
    rw [hf]
    exact (bindMethod_runs s hfg (alike_of_getAt hthis)).bind fun t f g _ hfg => .pure hfg

theorem newFunction_runs (s : Household) (home : Home) (declaration : BoundFunction)
    (isInitializer : Bool) :
    s.Runs (fun told => Ledger.newFunction told.1 told.2 home declaration isInitializer)
      (newFunction declaration isInitializer) fun t f g =>
        f = g ∧ f.id < t.machine.created ∧ t.ledger f.id = home ∧ f.declaration = declaration ∧
          f.environment = s.machine.current := by
  show s.Runs (fun told => (nextId >>= fun id => get >>= fun m =>
    pure ⟨id, declaration, m.current, isInitializer⟩) >>= fun f =>
      Ledger.check told.1 told.2 f home >>= fun _ => pure f) _ _
  simp only [bind_assoc, pure_bind]
  refine (nextId_runs s home).bind fun t id _ ht hid => Parallel.Runs.get ?_
  obtain ⟨rfl, hcreated, hledger⟩ := hid
  exact check_runs hcreated hledger (.pure ⟨rfl, hcreated, hledger, rfl, ht.current⟩)

theorem newMethods_runs (superclass : Option Class) {fs : List BoundFunction}
    (hseated : Stmt.MethodsSeated (some ⟨0, superclass.isSome⟩) fs)
    (hexists : s.machine.current < s.machine.environments.frames.size)
    (hsuper : ∀ c ∈ superclass,
      s.machine.environments.find? s.machine.current "super" = some (.class_ c))
    {ms : Bindings Closure} (hms : Bindings.Rel (homes.Method s) ms ms) :
    s.Runs (fun told => Ledger.newMethods told.1 told.2 (.class_ superclass) fs ms)
      (newMethods fs ms) fun t => Bindings.Rel (homes.Method t) := by
  induction fs generalizing s ms with
  | nil => exact .pure hms
  | cons f fs ih =>
    refine (newFunction_runs s _ f f.isInitializer).bind fun t g _ ht hg => ?_
    obtain ⟨rfl, hcreated, hledger, rfl, henvironment⟩ := hg
    have hsize := Nat.lt_of_lt_of_le hexists ht.environments.grows.size
    have hsuper (c : Class) (hc : c ∈ superclass) :
        t.machine.environments.find? s.machine.current "super" = some (.class_ c) :=
      ht.environments.super _ _ (hsuper c hc)
    have hoffers : t.ledger.Offers t.machine.created t.machine.environments g :=
      ⟨hcreated, henvironment ▸ hsize, superclass, hledger, hseated.1, henvironment ▸ hsuper⟩
    refine ih hseated.2 (ht.current ▸ hsize) (ht.current ▸ hsuper) ?_
    exact (hms.mono fun _ _ h => homes.method_later ht h).put _ ⟨rfl, hoffers⟩

/-- The class is there when the name is bound to it. -/
theorem assignClass_runs {name : Token} (hn : name.Plain) {k k' : Nat → Class}
    (hk : ∀ id, (k id).Rel (homes.Method s) (k' id)) :
    s.Runs
      (fun _ => nextId >>= fun id => get >>= fun m => assignFrom m.current name (.class_ (k id)))
      (nextId >>= fun id => get >>= fun m => assignFrom m.current name (.class_ (k' id)))
      fun _ _ _ => True := by
  refine (nextId_runs s .outside).bind fun t id _ ht hid => Parallel.Runs.get ?_
  obtain ⟨rfl, -, -⟩ := hid
  exact assignFrom_runs t.machine.current hn
    ((hk id).mono fun _ _ h => homes.method_later ht h : (k id).Rel (homes.Method t) (k' id))

theorem declareClass_runs (hev : EvaluateKept ev ev') {name : Token}
    {superclass : Option (Superclass Hops)} {methods : List BoundFunction} (hn : name.Plain)
    (hm : Stmt.MethodsSeated (some ⟨0, superclass.isSome⟩) methods) (hs : s.Stands seat home) :
    s.Runs (fun told => Ledger.declareClass told.1 told.2 (ev told home) name superclass methods)
      (declareClass ev' name superclass methods) fun _ _ _ => True := by
  cases superclass with
  | none =>
    refine (define_runs hn (v := .nil) (w := .nil) trivial).bind fun t _ _ ht _ => ?_
    refine (newMethods_runs none hm (hs.later ht).exists_ (fun _ h => nomatch h) .nil).bind
      fun u ms ms' _ hms => ?_
    exact assignClass_runs hn (k := (.root · name.lexeme ms)) fun id => ⟨rfl, rfl, hms⟩
  | some superclass =>
    refine (hev s seat home superclass.expr trivial hs).bind fun t v v' ht hv => ?_
    obtain rfl := eq_of_alike hv
    cases v with
    | class_ c =>
      refine (define_runs hn (v := .nil) (w := .nil) trivial).bind fun u _ _ hu _ =>
        Parallel.Runs.get ?_
      have hsu := ht.trans hu
      have hbound (x : String) (w : Value)
          (hw : Bindings.find? [("super", Value.class_ c)] x = some w) : Alike u w w := by
        obtain ⟨rfl, rfl⟩ := Bindings.eq_of_find?_singleton hw
        exact Parallel.Alike.later hv hu
      refine (newEnvironment_runs (hs.later hsu).exists_ hbound).bind fun u₁ e _ hu₁ he => ?_
      obtain ⟨rfl, -, hsize, -, hfind⟩ := he
      have hsuper (d : Class) (hd : d ∈ some c) :
          u₁.machine.environments.find? e "super" = some (.class_ d) := by
        cases hd
        exact hfind "super" _ rfl
      refine (inEnvironment_runs e (fun _ _ _ _ _ h => h) (newMethods_runs
        (s := u₁.moved e u₁.machine.callDepth) (some c) hm hsize hsuper .nil)).bind
        fun u₂ ms ms' hu₂ hms => ?_
      have hc : c.Rel (homes.Method u₂) c :=
        Class.Rel.mono hv fun _ _ h => homes.method_later ((hu.trans hu₁).trans hu₂) h
      exact assignClass_runs hn (k := (.derived · name.lexeme ms c)) fun id => ⟨rfl, rfl, hms, hc⟩
    | _ => exact .throw _

theorem evaluateForm_runs (settings : Settings) (hev : EvaluateKept ev ev')
    (hex : ExecuteKept ex ex') {e : BoundExpr} (he : e.Seated seat) (hs : s.Stands seat home) :
    s.Runs
      (fun told => Ledger.evaluateForm settings told.1 told.2 home (ev told home)
        (fun f => apply (ex told (told.1 f.id)) f) e)
      (evaluateForm settings ev' (apply ex') e) Alike := by
  have hpart (e : BoundExpr) (he : e.Seated seat) (t : Household) (ht : s.Later t) :
      t.Runs (fun told => ev told home e) (ev' e) Alike := hev t seat home e he (hs.later ht)
  have hfirst (e : BoundExpr) (he : e.Seated seat) := hev s seat home e he hs
  cases e with
  | literal line value => cases value <;> exact .pure (by first | exact trivial | exact rfl)
  | grouping line inner => exact hfirst inner he
  | unary operator right => exact Parallel.unary_runs (hfirst right he) operator
  | binary left operator right =>
    exact Parallel.binary_runs (hfirst left he.1) (hpart right he.2) operator
  | logical left operator right =>
    exact Parallel.logical_runs (hfirst left he.1) (hpart right he.2) operator
  | read name target => exact lookUp_runs s name target
  | assign line name target value =>
    refine (hfirst value he.2).bind fun t v w _ hv => ?_
    exact (assign_runs he.1 target hv).bind fun u _ _ hu _ => .pure (Parallel.Alike.later hv hu)
  | call callee paren arguments =>
    refine (hfirst callee he.1).bind fun t v w ht hv => ?_
    refine (Parallel.evaluateAll_runs (forall₂_of_seatedExprs he.2) fun u e e' hu h => ?_).bind
      fun u vs ws hu hvs => ?_
    · obtain ⟨rfl, h⟩ := h
      exact hpart e h u (ht.trans hu)
    · exact Parallel.call_runs laws settings (fun _ _ _ _ hf hvs => apply_runs hex hf hvs)
        (Parallel.Alike.later hv hu) hvs paren.line
  | get object name =>
    exact (hfirst object he).bind fun t v w _ hv => Parallel.getProperty_runs laws hv name
  | set line object name value =>
    exact Parallel.set_runs laws (hfirst object he.1) (hpart value he.2) name
  | this keyword target => exact this_runs he hs
  | super keyword target method => exact superMethod_runs he hs

theorem executeForm_runs (settings : Settings) (hev : EvaluateKept ev ev')
    (hex : ExecuteKept ex ex') {st : BoundStmt} (hst : st.Seated seat) (hs : s.Stands seat home) :
    s.Runs
      (fun told => Ledger.executeForm settings told.1 told.2 home (ev told home) (ex told home) st)
      (executeForm settings ev' ex' st) (Parallel.Ends (P := homes)) := by
  have hpart (st : BoundStmt) (hst : st.Seated seat) (t : Household) (ht : s.Later t) :
      t.Runs (fun told => ex told home st) (ex' st) (Parallel.Ends (P := homes)) :=
    hex t seat home st hst (hs.later ht)
  have hfirst (e : BoundExpr) (he : e.Seated seat) := hev s seat home e he hs
  cases st with
  | expression line value => exact (hfirst value hst).bind fun _ _ _ _ _ => .pure trivial
  | print line value => exact Parallel.print_runs laws (hfirst value hst)
  | var name initializer =>
    have hdefine {t : Household} {v w : Value} (hv : Alike t v w) :
        t.Runs (fun _ => define name.lexeme v >>= fun _ => pure Completion.normal)
          (define name.lexeme w >>= fun _ => pure .normal) (Parallel.Ends (P := homes)) :=
      (define_runs hst.1 hv).bind fun _ _ _ _ _ => .pure trivial
    cases initializer with
    | none => exact hdefine (v := .nil) (w := .nil) trivial
    | some e => exact (hfirst e (hst.2 e rfl)).bind fun t v w _ hv => hdefine hv
  | block line body =>
    have hnone (x : String) (v : Value) (h : Bindings.find? [] x = some v) : Alike s v v :=
      nomatch h
    exact Parallel.Runs.get (executeBlock_runs hex hs hnone hst)
  | ifThen line condition thenBranch =>
    exact Parallel.branch_runs (hfirst condition hst.1) (hpart thenBranch hst.2)
      fun _ _ => .pure trivial
  | ifElse line condition thenBranch elseBranch =>
    exact Parallel.branch_runs (hfirst condition hst.1) (hpart thenBranch hst.2.1)
      (hpart elseBranch hst.2.2)
  | while_ line condition body =>
    exact Parallel.loop_runs (fun t ht => hev t seat home condition hst.1 (hs.later ht))
      (hpart body hst.2) settings.turns
  | function f =>
    refine (newFunction_runs s home f false).bind fun t g _ ht hg => ?_
    obtain ⟨rfl, hcreated, hledger, rfl, henvironment⟩ := hg
    have hlodges : t.ledger.Lodges t.machine.created t.machine.environments g := by
      refine ⟨hcreated, seat, hst.2, ?_⟩
      rw [hledger, henvironment, ← ht.current]
      exact hs.later ht
    have hg : Alike t (.function g) (.function g) := ⟨rfl, hlodges⟩
    exact (define_runs hst.1 hg).bind fun _ _ _ _ _ => .pure trivial
  | return_ keyword value =>
    cases value with
    | none => exact .pure trivial
    | some e => exact (hfirst e (hst e rfl)).bind fun _ _ _ _ hv => .pure hv
  | class_ line name superclass methods =>
    exact (declareClass_runs hev hst.1 hst.2 hs).bind fun _ _ _ _ _ => .pure trivial

end forms

theorem evaluate_execute_kept (settings : Settings) (nesting : Nat) :
    EvaluateKept (fun told => Ledger.evaluate settings told.1 told.2 nesting)
        (evaluate settings nesting) ∧
      ExecuteKept (fun told => Ledger.execute settings told.1 told.2 nesting)
        (execute settings nesting) := by
  induction nesting with
  | zero => exact ⟨fun s _ _ _ _ _ => .throw _, fun s _ _ _ _ _ => .throw _⟩
  | succ nesting ih =>
    obtain ⟨hev, hex⟩ := ih
    refine ⟨fun s seat home e he hs => evaluateForm_runs settings hev hex he hs,
      fun s seat home st hst hs => ?_⟩
    simp only [Ledger.execute, execute]
    split
    · exact (emit_runs s _).bind fun t _ _ ht _ =>
        executeForm_runs settings hev hex hst (hs.later ht)
    · exact executeForm_runs settings hev hex hst hs

theorem executeProgram_runs (settings : Settings) {ss : List BoundStmt}
    (h : Stmt.SeatedList none ss) (hs : s.Stands none .outside) :
    s.Runs (fun told => Ledger.executeProgram settings told.1 told.2 ss)
      (executeProgram settings ss) fun _ _ _ => True := by
  induction ss generalizing s with
  | nil => exact .pure trivial
  | cons st ss ih =>
    refine ((evaluate_execute_kept settings settings.nesting).2 s none .outside st h.1 hs).bind
      fun t _ _ ht _ => ih h.2 (hs.later ht)

end Household

namespace Session

/-- Between inputs. -/
structure Housed (s : Session) (L : Ledger) : Prop where
  keeps : L.Keeps s.machine
  current : s.machine.current = Machine.globals

/-- A session comes to `t`, and so does what relies on a ledger and an alarm, whatever the alarm,
once the functions created on the way are entered in the ledger `L`. -/
def Relies (s : Session) (L : Ledger) (x : Ledger → Failure → Session) (t : Session) : Prop :=
  ∃ L₁, L.Agrees s.machine.created L₁ ∧ s.machine.created ≤ t.machine.created ∧ t.Housed L₁ ∧
    ∀ L₂, L₁.Agrees t.machine.created L₂ → ∀ alarm, x L₂ alarm = t

variable {s t : Session} {L : Ledger}

theorem housed_initial (clock : Float) (L : Ledger) : (initial clock).Housed L where
  keeps := by
    refine ⟨Machine.globals_lt_initial clock, fun e x v hv => ?_, fun ref b x v hb _ => ?_⟩
    · obtain ⟨rfl, rfl⟩ := Machine.eq_clock_of_initial hv
      rfl
    · cases (Machine.objects_initial clock ref).symm.trans hb
  current := rfl

theorem Housed.eventful (h : s.Housed L) (ht : ∃ events, t.machine = { s.machine with events }) :
    t.Housed L ∧ t.machine.created = s.machine.created := by
  obtain ⟨events, ht⟩ := ht
  refine ⟨⟨?_, ?_⟩, by rw [ht]⟩
  · rw [ht]
    exact ⟨h.keeps.globals, h.keeps.bound, h.keeps.fields⟩
  · rw [ht]
    exact h.current

theorem Housed.run (h : s.Housed L) (settings : Settings) {program : List RawStmt}
    (hp : Accepted program) :
    let bound := Stmt.boundList .topLevel program
    s.Relies L (fun L alarm => s.run (Ledger.executeProgram settings L alarm bound))
      (s.run (Eval.executeProgram settings bound)) := by
  intro bound
  let household : Household := ⟨L, s.machine, h.keeps⟩
  have hstands : household.Stands none .outside := by
    refine ⟨?_, fun _ hk => nomatch hk⟩
    show s.machine.current < _
    rw [h.current]
    exact h.keeps.globals
  obtain ⟨u, hu, ending, hy, hx⟩ := Parallel.Runs.ending
    (Household.executeProgram_runs settings (Stmt.seatedList_of_accepted hp) hstands)
    fun _ _ hfg => hfg
  let rest : Machine := { u.machine with current := Machine.globals, callDepth := 0 }
  have hy : s.machine.run (Eval.executeProgram settings bound) = (ending, rest) := hy
  have hrest : ({ s with machine := rest } : Session).Housed u.ledger :=
    ⟨Household.keeps_mono u.keeps (fun _ _ => rfl) (Nat.le_refl _) rfl rfl, rfl⟩
  obtain ⟨hhoused, hcreated⟩ := hrest.eventful (machine_conclude _ ending)
  rw [run_def, hy]
  refine ⟨u.ledger, hu.ledger, hcreated ▸ hu.created, hhoused, fun L₂ hL alarm => ?_⟩
  have hagrees : u.ledger.Agrees u.machine.created L₂ := hcreated ▸ hL
  have hx : s.machine.run (Ledger.executeProgram settings L₂ alarm bound) = (ending, rest) :=
    hx (L₂, alarm) hagrees
  show s.run _ = _
  rw [run_def, hx]

theorem Housed.input (h : s.Housed L) (i : Input) :
    s.Relies L (fun L alarm => i.runBy (fun settings => Ledger.executeProgram settings L alarm) s)
      (i.run s) := by
  obtain ⟨hread, hcreated⟩ := h.eventful (annotated_read s i).machine
  rw [Input.run_eq]
  unfold Input.runBy
  cases hr : i.read s with
  | mk s' program =>
    rw [hr] at hread hcreated
    cases program with
    | none => exact ⟨L, fun _ _ => rfl, Nat.le_of_eq hcreated.symm, hread, fun _ _ _ => rfl⟩
    | some bound =>
      obtain ⟨program, ha, rfl⟩ := accepted_read (congrArg Prod.snd hr)
      have hrun := hread.run i.settings ha
      unfold Relies at hrun ⊢
      rwa [hcreated] at hrun

/-- In every session each function has a home: one created at a place has the home of the place, a
method of a class the superclass that the class was given when it was declared, and a bound method
besides the instance that it was bound to. Whatever is given to the session, it goes as if `this`
and `super` were evaluated at home, in the function being run, and every function created were
checked to have the home that the ledger says, with any failure for an alarm. -/
theorem homes_run (clock : Float) (inputs : List Input) :
    ∃ L : Ledger, ∀ alarm : Failure,
      inputs.foldl (Input.runBy fun settings => Ledger.executeProgram settings L alarm)
          (initial clock) =
        inputs.foldl Input.run (initial clock) := by
  suffices h : ∀ (s : Session) (L : Ledger), s.Housed L →
      s.Relies L
        (fun L alarm => inputs.foldl
          (Input.runBy fun settings => Ledger.executeProgram settings L alarm) s)
        (inputs.foldl Input.run s) by
    obtain ⟨L, -, -, -, hL⟩ := h _ (fun _ => .outside) (housed_initial clock _)
    exact ⟨L, hL L fun _ _ => rfl⟩
  induction inputs with
  | nil => exact fun s L h => ⟨L, fun _ _ => rfl, Nat.le_refl _, h, fun _ _ _ => rfl⟩
  | cons i inputs ih =>
    intro s L h
    obtain ⟨L₁, hL₁, hcreated₁, hhoused₁, hfirst⟩ := h.input i
    obtain ⟨L₂, hL₂, hcreated₂, hhoused₂, hrest⟩ := ih _ L₁ hhoused₁
    refine ⟨L₂, fun id hid => ?_, Nat.le_trans hcreated₁ hcreated₂, hhoused₂,
      fun L₃ hL₃ alarm => ?_⟩
    · exact (hL₂ id (Nat.lt_of_lt_of_le hid hcreated₁)).trans (hL₁ id hid)
    · have hagrees : L₁.Agrees (i.run s).machine.created L₃ := fun id hid =>
        (hL₃ id (Nat.lt_of_lt_of_le hid hcreated₂)).trans (hL₂ id hid)
      have hfirst := hfirst L₃ hagrees alarm
      dsimp only at hfirst ⊢
      rw [List.foldl_cons, List.foldl_cons, hfirst]
      exact hrest L₃ hL₃ alarm

end Session
end Lox
