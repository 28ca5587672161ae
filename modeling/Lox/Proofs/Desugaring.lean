import Lox.Proofs.Audit
import Lox.Proofs.Erasure
import Lox.Proofs.Iteration
import Lox.Proofs.Unison

/-! For statements taken apart. A sound machine is put beside itself; on the left a for statement
runs as its rule says, on the right what the parser makes of it is executed. The two do the same.
With an increment, the body lies one spare scope further in on the right. -/

namespace Lox

namespace Class

theorem All.rel_self {P : Closure → Prop} {Q : Closure → Closure → Prop} {c : Class} (h : c.All P)
    (hPQ : ∀ f, P f → Q f f) : c.Rel Q c := by
  induction c with
  | root id name methods =>
    exact ⟨rfl, rfl, List.forall₂_same.2 fun p hp => ⟨rfl, hPQ p.2 (h p hp)⟩⟩
  | derived id name methods superclass ih =>
    exact ⟨rfl, rfl, List.forall₂_same.2 fun p hp => ⟨rfl, hPQ p.2 (h.1 p hp)⟩, ih h.2⟩

end Class

theorem Bindings.same_self {α : Type} {P : α → α → Prop} {b : Bindings α}
    (h : ∀ x v, b.find? x = some v → P v v) : b.Same P b := by
  intro x
  have hx := h x
  generalize b.find? x = v? at hx ⊢
  cases v? with
  | none => exact .none
  | some v => exact .some (hx v rfl)

namespace Layout
variable {envs : Environments}

def twice (envs : Environments) : Layout := ⟨envs, envs, fun e => e⟩

theorem lies_twice {e : Nat} (h : e < envs.frames.size) : (twice envs).Lies none e e :=
  ⟨h, h, fun _ => (Option.map_id' ..).symm⟩

theorem sameCode_self (inner : Surroundings → Surroundings) {f : Closure} {s : Surroundings}
    {activation : Activation} {raw : RawFunction} (hf : f.Written (inner s) activation raw)
    (hs : envs.Supports f.environment s) : (twice envs).SameCode inner f f :=
  ⟨rfl, rfl, rfl, none, s, s, activation, raw, .refl s, lies_twice hs.exists_, hf.regular,
    hf.declaration, hf.declaration⟩

theorem alike_self {v : Value} (h : v.Good envs) : (twice envs).Alike v v := by
  have hclass {c : Class} (hc : c.All (Closure.GoodMethod envs)) :
      c.Rel ((twice envs).SameCode inMethod) c := by
    refine hc.rel_self fun f hf => ?_
    obtain ⟨s, activation, raw, hw, -, hs⟩ := hf
    exact sameCode_self inMethod hw hs
  cases v with
  | function f =>
    obtain ⟨⟨s, activation, raw, hw, -, hs⟩, -⟩ := h
    exact sameCode_self id hw hs
  | class_ c => exact hclass h
  | object ref c => exact ⟨rfl, hclass h⟩
  | nil => exact trivial
  | bool value | number value | string value | native f => exact rfl

end Layout

namespace Pair
open Eval
variable {m : Machine} {t : Pair} {α : Type}

def twice (hm : m.Sound) : Pair where
  place e := e
  left := m
  right := m
  holds :=
    { exists_ := hm.globals
      root := rfl
      within := fun _ he => he
      apart := fun _ _ _ _ he => he
      bound := fun e _ => Bindings.same_self fun x v hv =>
        Layout.alike_self (hm.bound e x v hv).good
      objects_size := rfl
      objects := fun ref => by
        have hfields := hm.fields ref
        generalize m.objects[ref]? = b? at hfields ⊢
        cases b? with
        | none => exact .none
        | some b =>
          exact .some (Bindings.same_self fun x v hv => Layout.alike_self (hfields b x v rfl hv))
      created := rfl
      callDepth := rfl
      clock := rfl
      output := rfl }

theorem stands_twice (hm : m.Sound) (hc : m.current < m.environments.frames.size) :
    (twice hm).Stands none := Layout.lies_twice hc

/-- Where the right ends in no fault, so does the left, and in the same way. -/
theorem Runs.sameResult {hm : m.Sound} (hc : m.current < m.environments.frames.size)
    {x y : Eval Completion} (h : (twice hm).Runs (fun _ => x) y (Parallel.Ends (P := pairs)))
    (hy : ∀ f m', y m = .error f m' → f.isFault = false) : SameResult m (x m) (y m) := by
  have hsince {u : Pair} (hu : (twice hm).Later u) : u.Since m :=
    ⟨hu.layout.place, hu.left, hu.right, (stands_twice hm hc).later hu⟩
  obtain ⟨u, hu, ⟨c, d, hcd, hright, hleft⟩ | ⟨f, g, hfg, hright, hleft⟩⟩ := h
  · rw [show x m = .ok c u.left from hleft () trivial, show y m = .ok d u.right from hright]
    exact ⟨u, rfl, rfl, hsince hu, hcd⟩
  · have hg := hy g _ hright
    rw [show x m = .error f u.left from hleft () trivial, show y m = .error g u.right from hright]
    refine ⟨hfg.resolve_right fun hfaults => ?_, u, rfl, rfl, hsince hu⟩
    rw [hfaults.2] at hg
    cases hg

/-- The machine on the right may be traced before the statement does anything. -/
theorem execute_runs {settings : Settings} {nesting : Nat} {x : Unit → Eval α} {st : BoundStmt}
    {Q : Pair → α → Completion → Prop}
    (h : ∀ u, t.Later u →
      u.Runs x (executeForm settings (evaluate settings nesting) (execute settings nesting) st) Q) :
    t.Runs x (execute settings (nesting + 1) st) Q := by
  simp only [execute]
  split
  · exact traced_runs _ _ h
  · exact h t (.refl t)

end Pair

namespace Eval

def EndsNormally (x : Eval Completion) : Prop := ∀ m c m', x m = .ok c m' → c = .normal

theorem endsNormally_bind {α : Type} {x : Eval α} {f : α → Eval Completion}
    (h : ∀ a, EndsNormally (f a)) : EndsNormally (x >>= f) :=
  fun _ _ _ hm => of_bind_ok h hm

theorem endsNormally_normal : EndsNormally (pure .normal) := by
  intro m c m' hm
  cases hm
  rfl

theorem endsNormally_of_opensLoop (settings : Settings) (nesting : Nat) {st : RawStmt}
    (h : st.opensLoop) (s : Surroundings) :
    EndsNormally (execute settings nesting (st.bound s)) := by
  cases nesting with
  | zero => exact fun m c m' hm => nomatch hm
  | succ nesting =>
    have hform : EndsNormally (executeForm settings (evaluate settings nesting)
        (execute settings nesting) (st.bound s)) := by
      cases st with
      | var name initializer =>
        cases initializer <;>
          exact endsNormally_bind fun _ => endsNormally_bind fun _ => endsNormally_normal
      | expression => exact endsNormally_bind fun _ => endsNormally_normal
      | _ => cases h
    simp only [execute]
    split
    · exact endsNormally_bind fun _ => hform
    · exact hform

theorem executeAll_singleton (ex : BoundStmt → Eval Completion) (st : BoundStmt) :
    executeAll ex [st] = ex st := by
  refine Eq.trans (bind_congr fun c => ?_) (bind_pure (ex st))
  cases c <;> rfl

end Eval

namespace ForLoop
open Eval

section runs
variable {settings : Settings} {l : ForLoop} {s : Surroundings} {t : Pair}

/-- What is done again and again. -/
def round (l : ForLoop) : RawStmt :=
  l.increment.elim l.body fun e => .block l.line [l.body, .expression l.line e]

/-- What stands in the block, behind the initializer. -/
def while_ (l : ForLoop) : RawStmt :=
  .while_ l.line (l.condition.getD (.literal l.line (.bool true))) l.round

theorem statement_eq (l : ForLoop) :
    l.statement = .block l.line (l.initializer.toList ++ [l.while_]) := by
  obtain ⟨line, initializer, condition, increment, body⟩ := l
  cases increment <;> rfl

structure Regular (l : ForLoop) : Prop where
  initializer : ∀ st ∈ l.initializer, st.Regular Token.Spelled
  condition : Expr.Regular? Token.Spelled l.condition
  increment : Expr.Regular? Token.Spelled l.increment
  body : l.body.Regular Token.Spelled

theorem regular_of_statement (h : l.statement.Regular Token.Spelled) : l.Regular := by
  rw [statement_eq] at h
  have hparts : (∀ st ∈ l.initializer, st.Regular Token.Spelled) ∧
      l.while_.Regular Token.Spelled := by
    cases hi : l.initializer with
    | none =>
      rw [hi] at h
      exact ⟨fun st hst => (nomatch hst), h.1⟩
    | some st =>
      rw [hi] at h
      exact ⟨fun st' hst => Option.some.inj hst ▸ h.1, h.2.1⟩
  obtain ⟨hinitializer, hcondition, hround, -⟩ := hparts
  refine ⟨hinitializer, fun e he => ?_, fun e he => ?_, ?_⟩
  · rwa [he] at hcondition
  · rw [round, he] at hround
    exact hround.2.1
  · unfold round at hround
    cases hi : l.increment with
    | none =>
      rw [hi] at hround
      exact hround
    | some e =>
      rw [hi] at hround
      exact hround.1

/-- The scope of the loop binds the loop variable and nothing else. -/
theorem inside_local (hl : l.Regular) (hw : l.WellFormed) (s : Surroundings) :
    (l.inside s).scopes ≠ [] ∧ (l.inside s).hops "super" ≠ some 0 := by
  have hpush : (s.push []).scopes ≠ [] ∧ (s.push []).hops "super" ≠ some 0 := by
    refine ⟨List.cons_ne_nil _ _, fun h => ?_⟩
    rw [Surroundings.hops_push] at h
    obtain ⟨d, -, hd⟩ := Option.map_eq_some_iff.1 h
    cases hd
  unfold inside
  cases hi : l.initializer with
  | none => exact hpush
  | some st =>
    have hst := hw.initializer st hi
    cases st with
    | expression line value => exact hpush
    | var name initializer =>
      have hname := Token.lexeme_ne_super (hl.initializer _ hi).1
      refine ⟨Surroundings.bind_scopes_ne hpush.1 _ _, ?_⟩
      show ((s.push []).bind name.lexeme true).hops "super" ≠ some 0
      rw [Surroundings.hops_bind hpush.1, if_neg hname]
      exact hpush.2
    | _ => cases hst

theorem turn_of_none (h : l.increment = none) (nesting : Nat) :
    l.turn settings s nesting = Eval.execute settings nesting (l.body.bound (l.inside s)) := by
  unfold turn advance
  rw [h]
  refine Eq.trans (bind_congr fun c => ?_) (bind_pure _)
  cases c <;> rfl

/-- Where no nesting is left for a turn, the first one fails. -/
theorem turns_one (settings : Settings) (l : ForLoop) (s : Surroundings) :
    l.turns settings s 1 = loop (throw .exhausted) (throw .exhausted) settings.turns := by
  obtain ⟨line, initializer, condition, increment, body⟩ := l
  unfold turns
  cases settings.turns with
  | zero => rfl
  | succ turns => cases condition <;> cases increment <;> rfl

variable (hl : l.Regular) (hw : l.WellFormed)
include hl

theorem test_runs (ht : t.Stands none) (nesting : Nat) :
    t.Runs (fun _ => l.test settings s (nesting + 1))
      (Eval.evaluate settings (nesting + 1)
        ((l.condition.getD (.literal l.line (.bool true))).bound (l.inside s))) Pair.Alike := by
  unfold test
  cases hc : l.condition with
  | none => exact Parallel.Runs.pure (P := pairs) (a := Value.bool true) (b := Value.bool true) rfl
  | some e =>
    exact (Pair.evaluates_executes settings _).1 t none _ _ e (hl.condition e hc) (.refl _) ht

include hw

theorem advance_runs {nesting : Nat} {e : RawExpr} (he : l.increment = some e)
    (ht : t.Stands (some 0)) :
    t.Runs (fun _ => l.advance settings s (nesting - 1) >>= fun _ => pure .normal)
      (Eval.execute settings nesting ((Stmt.expression l.line e).bound ((l.inside s).push [])))
      (Parallel.Ends (P := pairs)) := by
  have hspare := Surroundings.Spared.here (inside_local hl hw s).1 (inside_local hl hw s).2
  unfold advance
  rw [he]
  cases nesting with
  | zero => exact .throw _
  | succ nesting =>
    refine Pair.execute_runs fun u hu => ?_
    simp only [bind_assoc, pure_bind]
    exact ((Pair.evaluates_executes settings nesting).1 u (some 0) _ _ e (hl.increment e he) hspare
      (ht.later hu)).bind fun _ _ _ _ _ => .pure trivial

/-- The body as it is, or with the increment behind it in a block. -/
theorem turn_runs (ht : t.Stands none) (nesting : Nat) :
    t.Runs (fun _ => l.turn settings s (nesting + 1))
      (Eval.execute settings (nesting + 1) (l.round.bound (l.inside s)))
      (Parallel.Ends (P := pairs)) := by
  unfold round
  cases hi : l.increment with
  | none =>
    rw [turn_of_none hi]
    exact (Pair.evaluates_executes settings _).2 t none _ _ l.body hl.body (fun _ => hw.body)
      (.refl _) ht
  | some e =>
    have hspare := Surroundings.Spared.here (inside_local hl hw s).1 (inside_local hl hw s).2
    have hafter : Stmt.after ((l.inside s).push []) l.body = (l.inside s).push [] :=
      Stmt.after_of_isPlain hl.body hw.body
    unfold turn
    rw [hi]
    refine Pair.execute_runs fun u hu => ?_
    show u.Runs _ (executeBlock (Eval.execute settings nesting) u.right.current []
      (Stmt.boundList ((l.inside s).push []) [l.body, .expression l.line e])) _
    -- The block around body and increment is the spare scope; the rule stays where it is.
    refine Pair.spareEnvironment_runs (ht.later hu) fun u' f hu' hlies => ?_
    refine Pair.inSpare_runs f (fun _ _ _ _ _ _ h => h) ?_
    have hstands : (u'.moved u'.left.current f u'.left.callDepth).Stands (some 0) := by
      have hcurrent : u'.left.current = u.left.current := hu'.left
      unfold Pair.Stands
      exact hcurrent ▸ hlies
    refine ((Pair.evaluates_executes settings nesting).2 _ (some 0) _ _ l.body hl.body
      (fun _ => hw.body) hspare hstands).bind fun v c d hv hcd => ?_
    cases c <;> cases d
    · simp only [Stmt.boundList, hafter, executeAll_singleton]
      exact advance_runs hl hw hi (hstands.later hv)
    · exact hcd.elim
    · exact hcd.elim
    · exact .pure hcd

theorem turns_runs (ht : t.Stands none) (nesting : Nat) :
    t.Runs (fun _ => l.turns settings s nesting)
      (Eval.execute settings nesting (l.while_.bound (l.inside s)))
      (Parallel.Ends (P := pairs)) := by
  cases nesting with
  | zero => exact .throw _
  | succ nesting =>
    refine Pair.execute_runs fun u hu => ?_
    have hu := ht.later hu
    cases nesting with
    | zero =>
      rw [turns_one]
      exact Parallel.loop_runs (fun _ _ => .throw _) (fun _ _ => .throw _) settings.turns
    | succ nesting =>
      exact Parallel.loop_runs (fun v hv => test_runs hl (hu.later hv) nesting)
        (fun v hv => turn_runs hl hw (hu.later hv) nesting) settings.turns

theorem start_turns_runs (ht : t.Stands none) (nesting : Nat) :
    t.Runs (fun _ => l.start settings s nesting >>= fun _ => l.turns settings s nesting)
      (executeAll (Eval.execute settings nesting)
        (Stmt.boundList (s.push []) (l.initializer.toList ++ [l.while_])))
      (Parallel.Ends (P := pairs)) := by
  have hturns {u : Pair} (hu : u.Stands none) :
      u.Runs (fun _ => l.turns settings s nesting) _ (Parallel.Ends (P := pairs)) :=
    turns_runs hl hw hu nesting
  unfold inside at hturns
  unfold start
  cases hi : l.initializer with
  | none =>
    rw [hi] at hturns
    show t.Runs _ (executeAll _ [l.while_.bound (s.push [])]) _
    rw [executeAll_singleton]
    exact hturns ht
  | some st =>
    rw [hi] at hturns
    have hstart := (Pair.evaluates_executes settings nesting).2 t none (s.push []) (s.push []) st
      (hl.initializer st hi) (fun h => nomatch h) (.refl _) ht
    have hnormal := endsNormally_of_opensLoop settings nesting (hw.initializer st hi) (s.push [])
    simp only [bind_assoc, pure_bind]
    -- A block would stop here if its first statement returned.
    refine (hstart.and_ok (hnormal _)).bind fun u c d hu hcd => ?_
    obtain ⟨hcd, rfl⟩ := hcd
    cases c with
    | returned v => exact hcd.elim
    | normal =>
      show u.Runs _ (executeAll _ [l.while_.bound (Stmt.after (s.push []) st)]) _
      rw [executeAll_singleton]
      exact hturns (ht.later hu)

theorem execute_runs (ht : t.Stands none) (nesting : Nat) :
    t.Runs (fun _ => l.execute settings s nesting)
      (Eval.execute settings nesting (l.statement.bound s)) (Parallel.Ends (P := pairs)) := by
  cases nesting with
  | zero => exact .throw _
  | succ nesting =>
    rw [statement_eq]
    refine Pair.execute_runs fun u hu => Parallel.Runs.get (P := pairs) ?_
    refine (Pair.newEnvironment_runs (ht.later hu) (Bindings.same_nil _)).bind fun u e f hu he => ?_
    refine Pair.inEnvironment_runs e f (fun _ _ _ _ _ _ h => h) ?_
    have hstands : (u.moved e f u.left.callDepth).Stands none := he
    exact start_turns_runs hl hw hstands nesting

end runs

section checks
variable {alarm : Failure} {settings : Settings} {m : Machine} {s : Surroundings} {st : RawStmt}

/-- A check passes where the statement ends in no fault. -/
theorem check_agrees (hm : m.Sound) (hc : m.current < m.environments.frames.size)
    (hr : st.Regular Token.Spelled) {nesting : Nat} {x : Eval Completion}
    {Q : Environments → Completion → Prop}
    (h : Agree m x (Eval.execute settings nesting (st.bound s)) Q) :
    Agree m (check alarm settings nesting (st.bound s) >>= fun _ => x)
      (Eval.execute settings nesting (st.bound s)) Q := by
  have hsound (f : Failure) (m' : Machine)
      (hf : Eval.execute settings nesting (st.bound s) m = .error f m') : f.isFault = false := by
    have hend := h.2
    rw [hf] at hend
    exact hend.2.2
  have hpass : ∀ (l : ForLoop) (s' : Surroundings), l.WellFormed →
      st.bound s = l.statement.bound s' →
        SameResult m (l.execute settings s' nesting m)
          (Eval.execute settings nesting (st.bound s) m) := by
    intro l s' hw he
    -- The statement stems from this very for statement, even if it was resolved elsewhere.
    have hl := regular_of_statement (Stmt.eq_of_bound_eq he ▸ hr)
    rw [he] at hsound ⊢
    exact Pair.Runs.sameResult hc (execute_runs hl hw (Pair.stands_twice hm hc) nesting) hsound
  have hcheck : check alarm settings nesting (st.bound s) m = .ok () m := by
    unfold check
    have hget : (get : Eval Machine) m = .ok m m := rfl
    rw [bind_ok hget]
    rw [if_pos hpass]
    rfl
  exact ⟨(bind_ok hcheck _).trans h.1, h.2⟩

theorem checked_agree (alarm : Failure) (settings : Settings) (nesting : Nat) :
    EvaluateAlike (checkedEvaluate alarm settings nesting) (Eval.evaluate settings nesting) ∧
      ExecuteAlike (checkedExecute alarm settings nesting) (Eval.execute settings nesting) := by
  induction nesting with
  | zero =>
    exact ⟨fun e s m _ _ hm _ => Eval.throw_agrees hm rfl,
      fun st s m _ _ _ hm _ => Eval.throw_agrees hm rfl⟩
  | succ nesting ih =>
    obtain ⟨hev, hex⟩ := ih
    refine ⟨fun e s m hp hr hm hs => ?_, fun st s m hp hr hb hm hs => ?_⟩
    · exact Eval.evaluateForm_agrees settings hev (Eval.apply_agrees hex) hp hr hm hs
    · have hform {m' : Machine} (hm' : m'.Sound) (hg : m.Grows m') :=
        hg.current ▸ Eval.executeForm_agrees settings hev hex hp hr hb hm' (hs.mono hg)
      refine check_agrees hm hs.supports.exists_ hr ?_
      simp only [Eval.execute]
      split
      · exact (Eval.emit_agrees hm _).bind fun _ m₁ hm₁ hg₁ _ => hform hm₁ hg₁
      · exact hform hm (.refl m)

theorem checkedProgram_agrees (alarm : Failure) (settings : Settings) {ss : List RawStmt}
    (hp : Stmt.problemsList s ss = []) (hr : Stmt.RegularList Token.Spelled ss) (hb : s.Settled)
    (hm : m.Sound) (hs : m.StandsAt s) (ha : s.activation = .topLevel) :
    Agree m (checkedProgram alarm settings (Stmt.boundList s ss))
      (Eval.executeProgram settings (Stmt.boundList s ss)) fun _ _ => True := by
  induction ss generalizing s m with
  | nil => exact .pure hm trivial
  | cons st ss ih =>
    obtain ⟨hps, hpl⟩ := List.append_eq_nil_iff.1 hp
    have hex := (checked_agree alarm settings settings.nesting).2
    refine (hex st s m hps hr.1 hb hm hs).bind fun c m₁ hm₁ hg₁ hc => ?_
    cases c with
    | returned v => exact absurd ha hc.1.2
    | normal =>
      exact ih hpl hr.2 (Stmt.settled_after hb hr.1) hm₁
        ⟨hg₁.current ▸ hc.2 rfl, Stmt.lawful_after hs.lawful hr.1⟩
        ((Stmt.activation_after s st).trans ha)

end checks
end ForLoop

namespace Parser
variable {α : Type} {c : Conduct} {T : Token → Prop} {p : Parser α} {Q : α → Prop}

theorem Conforms.gives (h : Conforms .any (fun _ => True) p Q) : p.Gives Q := by
  intro s a s' hp
  have hs := h s fun _ _ => trivial
  rw [hp] at hs
  exact hs.2.2

theorem conforms_opensLoop (bound : Nat) :
    Conforms c T (forInitializer bound) fun st? => ∀ st ∈ st?, st.opensLoop := by
  refine (conforms_acceptIf _).bind fun t? _ => ?_
  cases t? with
  | none =>
    have hstatement : Conforms c T (expressionStatement bound) fun st => st.opensLoop :=
      conforms_next?.bind fun _ _ => (conforms_expression bound).bind fun _ _ =>
        (conforms_expect _ _).bind fun _ _ => .pure rfl
    exact hstatement.some
  | some t =>
    have hvar : Conforms c T (varDeclaration bound) fun st => st.opensLoop :=
      (conforms_name _).bind fun _ _ => (conforms_initializerClause bound).bind fun _ _ =>
        (conforms_expect _ _).bind fun _ _ => .pure rfl
    dsimp only
    split
    · exact .pure fun st hs => nomatch hs
    · exact hvar.some

theorem forStatement_eq (nested : Forms) (keyword : Token) :
    forStatement nested keyword = ForLoop.statement <$> ForLoop.parser nested keyword := by
  unfold forStatement ForLoop.parser
  simp only [map_bind, map_pure, ForLoop.statement]

end Parser

theorem ForLoop.conforms_parser {c : Conduct} {T : Token → Prop} {nested : Parser.Forms}
    (h : nested.Conforms c T) (keyword : Token) :
    Parser.Conforms c T (ForLoop.parser nested keyword) ForLoop.WellFormed := by
  refine (Parser.conforms_expect _ _).bind fun _ _ =>
    (Parser.conforms_opensLoop _).bind fun initializer hi => ?_
  refine (Parser.conforms_optional _ _).bind fun _ _ =>
    (Parser.conforms_expect _ _).bind fun _ _ => ?_
  refine (Parser.conforms_optional _ _).bind fun _ _ =>
    (Parser.conforms_expect _ _).bind fun _ _ => ?_
  exact h.statement.bind fun body hb => .pure ⟨hi, hb.2⟩

namespace Session

theorem faithful_checked (alarm : Failure) : Faithful (ForLoop.checkedProgram alarm) :=
  fun settings _ _ hp hm hc => ForLoop.checkedProgram_agrees alarm settings hp.accepted hp.regular
    Surroundings.settled_topLevel hm (hm.standsAt hc) rfl

/-- A for statement is read clause by clause, taken apart, and resolved. Wherever a session executes
what that gives, it runs as the rule for the for statement says. -/
theorem forLoops_run (clock : Float) (inputs : List Input) (alarm : Failure) :
    (∀ (nested : Parser.Forms) (keyword : Token),
      Parser.forStatement nested keyword = ForLoop.statement <$> ForLoop.parser nested keyword) ∧
    (∀ (limit bound : Nat) (keyword : Token),
      (ForLoop.parser ⟨limit, Parser.nestedStatement bound, Parser.nestedDeclaration bound⟩
        keyword).Gives ForLoop.WellFormed) ∧
    (∀ (l : ForLoop) (s : Scoping),
      (Resolver.stmt l.statement s).1 = l.statement.bound s.toSurroundings) ∧
    inputs.foldl (Input.runBy (ForLoop.checkedProgram alarm)) (initial clock) =
      inputs.foldl Input.run (initial clock) := by
  refine ⟨Parser.forStatement_eq, fun limit bound keyword => ?_,
    fun l s => congrArg Prod.fst (Resolver.stmt_run s l.statement),
    (ready_initial clock).inputs (faithful_checked alarm) inputs⟩
  have hnested := Parser.conforms_nested (c := .any) (T := fun _ => True) (fun _ _ _ => trivial)
    bound
  have hforms : (Parser.Forms.mk limit _ _).Conforms .any fun _ => True :=
    ⟨hnested.statement, hnested.declaration⟩
  exact (ForLoop.conforms_parser hforms keyword).gives

end Session
end Lox
