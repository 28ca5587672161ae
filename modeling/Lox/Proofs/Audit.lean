import Lox.Proofs.Input
import Lox.Proofs.Soundness

/-! Audited runs. An audit stops a run with a fault as soon as an expression is about to be
evaluated, a function about to be entered or a statement of the program about to be left in a state
that resolution was to rule out. -/

namespace Lox

namespace Environments

/-- Whether every name that the expression itself uses is where resolution says. The class to look
for a method in and the instance to bind it to lie in neighbouring environments. -/
def admits (s : Environments) (current : Nat) : BoundExpr → Bool
  | .read name (some d) | .this name (some d) => (s.getAt current d name.lexeme).isOk
  | .assign _ _ (some d) _ => (s.ancestor current d).isOk
  | .super _ (some (d + 1)) _ =>
    match s.getAt current (d + 1) "super", s.getAt current d "this" with
    | .ok (.class_ _), .ok (.object ..) => true
    | _, _ => false
  | .super .. => false
  | _ => true

/-- Whether a function can be entered: with an argument for each parameter and, where the result
is to be the instance, with `this` bound around it. -/
def admitsEntry (s : Environments) (f : Closure) (arguments : List Value) : Bool :=
  arguments.length == f.arity && (!f.isInitializer || (s.getAt f.environment 0 "this").isOk)

end Environments

namespace Audit

def broken : Failure := .fault .notClass

def require (p : Bool) : Eval Unit := if p then return () else throw broken

def enter (ex : BoundStmt → Eval Completion) (f : Closure) (arguments : List Value) :
    Eval Value := do
  let m ← get
  require (m.environments.admitsEntry f arguments)
  Eval.apply ex f arguments

mutual

def evaluate (settings : Settings) : (nesting : Nat) → BoundExpr → Eval Value
  | 0, _ => throw .exhausted
  | nesting + 1, e => do
    let m ← get
    require (m.environments.admits m.current e)
    Eval.evaluateForm settings (evaluate settings nesting) (enter (execute settings nesting)) e

def execute (settings : Settings) : (nesting : Nat) → BoundStmt → Eval Completion
  | 0, _ => throw .exhausted
  | nesting + 1, s => do
    if settings.trace then Eval.emit (.traced s.line s.kind)
    Eval.executeForm settings (evaluate settings nesting) (execute settings nesting) s

end

/-- No statement of a program may return. -/
def executeProgram (settings : Settings) : List BoundStmt → Eval Unit
  | [] => return ()
  | s :: ss => do
    match ← execute settings settings.nesting s with
    | .normal => executeProgram settings ss
    | .returned _ => throw broken

section
variable {settings : Settings} {m : Machine} {s : Surroundings}

theorem admits_bound {e : RawExpr} (hp : e.problems s = []) (hr : e.Regular Token.Spelled)
    (hm : m.Sound) (hs : m.StandsAt s) : m.environments.admits m.current (e.bound s) = true := by
  cases e with
  | read name _ =>
    cases hd : s.hops name.lexeme with
    | none => simp only [Expr.bound, hd, Environments.admits]
    | some d =>
      obtain ⟨v, hv, -⟩ := hs.getAt hm hd (Eval.unready_of_misread hp)
      simp only [Expr.bound, hd, Environments.admits, hv, Except.isOk, Except.toBool]
  | assign line name _ value =>
    cases hd : s.hops name.lexeme with
    | none => simp only [Expr.bound, hd, Environments.admits]
    | some d =>
      obtain ⟨a, ha, -⟩ := hs.supports.finds _ d hd
      simp only [Expr.bound, hd, Environments.admits, Environments.ancestor, ha, Except.isOk,
        Except.toBool]
  | this keyword _ =>
    have hk := Token.lexeme_this hr.1 hr.2
    have hc : ¬ s.context = .outside := fun hc => by
      simp [Expr.problems, Surroundings.misusedThis, hc] at hp
    obtain ⟨d, hd⟩ := hs.lawful.this hc
    obtain ⟨v, hv, -⟩ := hs.getAt hm hd hs.lawful.thisReady
    simp only [Expr.bound, if_neg hc, hk, hd, Environments.admits, hv, Except.isOk, Except.toBool]
  | super keyword _ method =>
    obtain ⟨d, c, ref, c', hd, hsuper, hthis, -, -⟩ := Eval.superOperands hm hs hp
    simp only [Expr.bound, Token.lexeme_super hr.1.1 hr.1.2, hd, Environments.admits, hsuper, hthis]
  | _ => rfl

theorem require_agrees {α : Type} {p : Bool} (hp : p = true) {x y : Eval α}
    {Q : Environments → α → Prop} (h : Agree m x y Q) : Agree m (require p >>= fun _ => x) y Q := by
  subst hp
  exact h

theorem enter_agrees {ex' ex : BoundStmt → Eval Completion} (hex : ExecuteAlike ex' ex) :
    EnterAlike (enter ex') (Eval.apply ex) := by
  intro f arguments m hm hf hn ha
  have hthis : (!f.isInitializer || (m.environments.getAt f.environment 0 "this").isOk) = true := by
    cases hi : f.isInitializer with
    | false => rfl
    | true =>
      obtain ⟨v, hv⟩ := Option.isSome_iff_exists.1 (hf.2 hi)
      simp [Environments.getAt, Environments.ancestor, Environments.ancestor?, hv, Except.isOk,
        Except.toBool]
  have hadmits : m.environments.admitsEntry f arguments = true := by
    rw [Environments.admitsEntry, hthis, hn]
    simp
  exact require_agrees hadmits (Eval.apply_agrees hex f arguments m hm hf hn ha)

/-- With any nesting left, an audit finds nothing. -/
theorem evaluate_execute_agree (settings : Settings) (nesting : Nat) :
    EvaluateAlike (evaluate settings nesting) (Eval.evaluate settings nesting) ∧
      ExecuteAlike (execute settings nesting) (Eval.execute settings nesting) := by
  induction nesting with
  | zero =>
    exact ⟨fun e s m _ _ hm _ => Eval.throw_agrees hm rfl,
      fun st s m _ _ _ hm _ => Eval.throw_agrees hm rfl⟩
  | succ nesting ih =>
    obtain ⟨hev, hex⟩ := ih
    refine ⟨fun e s m hp hr hm hs => ?_, fun st s m hp hr hb hm hs => ?_⟩
    · exact require_agrees (admits_bound hp hr hm hs)
        (Eval.evaluateForm_agrees settings hev (enter_agrees hex) hp hr hm hs)
    · have hform {m' : Machine} (hm' : m'.Sound) (hg : m.Grows m') :=
        hg.current ▸ Eval.executeForm_agrees settings hev hex hp hr hb hm'
          (hs.mono hg)
      simp only [execute, Eval.execute]
      split
      · exact (Eval.emit_agrees hm _).bind fun _ m₁ hm₁ hg₁ _ => hform hm₁ hg₁
      · exact hform hm (.refl m)

/-- The statements of an accepted program all end without returning. -/
theorem executeProgram_agrees (settings : Settings) {ss : List RawStmt}
    (ha : s.activation = .topLevel)
    (hp : Stmt.problemsList s ss = []) (hr : Stmt.RegularList Token.Spelled ss) (hb : s.Settled)
    (hm : m.Sound) (hs : m.StandsAt s) :
    Agree m (executeProgram settings (Stmt.boundList s ss))
      (Eval.executeProgram settings (Stmt.boundList s ss)) fun _ _ => True := by
  induction ss generalizing s m with
  | nil => exact .pure hm trivial
  | cons st ss ih =>
    obtain ⟨hps, hpl⟩ := List.append_eq_nil_iff.1 hp
    have hex := (evaluate_execute_agree settings settings.nesting).2
    refine (hex st s m hps hr.1 hb hm hs).bind fun c m₁ hm₁ hg₁ hc => ?_
    cases c with
    | returned v => exact absurd ha hc.1.2
    | normal =>
      exact ih ((Stmt.activation_after s st).trans ha) hpl hr.2 (Stmt.settled_after hb hr.1) hm₁
        ⟨hg₁.current ▸ hc.2 rfl, Stmt.lawful_after hs.lawful hr.1⟩

end
end Audit

namespace Session

def Input.audit (s : Session) (i : Input) : Session := i.runBy Audit.executeProgram s

/-- Between inputs. -/
structure Ready (s : Session) : Prop where
  sound : s.machine.Sound
  current : s.machine.current = Machine.globals
  unbroken : ∀ f, s.breakdown = some f → f = .outOfTurns

theorem ready_initial (clock : Float) : (initial clock).Ready where
  sound := by
    refine ⟨Machine.globals_lt_initial clock, fun e x v hv => ?_, fun ref b x v hb _ => ?_⟩
    · obtain ⟨rfl, rfl⟩ := Machine.eq_clock_of_initial hv
      exact ⟨trivial, fun h => absurd h (by decide), fun h => absurd h (by decide)⟩
    · cases (Machine.objects_initial clock ref).symm.trans hb
  current := rfl
  unbroken f hf := nomatch hf

theorem Ready.annotated {s t : Session} (h : s.Ready) (ha : s.Annotated t) : t.Ready := by
  obtain ⟨⟨events, hm⟩, hb⟩ := ha
  refine ⟨?_, ?_, fun f hf => h.unbroken f (hb ▸ hf)⟩
  · rw [hm]
    exact ⟨h.sound.globals, h.sound.bound, h.sound.fields⟩
  · rw [hm]
    exact h.current

theorem Ready.conclude {s : Session} (h : s.Ready) {f : Option Failure}
    (hf : ∀ failure ∈ f, failure.isFault = false) : (s.conclude f).Ready := by
  have hreport (e : RuntimeError) : (s.reportRuntimeError e).Ready :=
    ⟨⟨h.sound.globals, h.sound.bound, h.sound.fields⟩, h.current, h.unbroken⟩
  cases f with
  | none => exact h
  | some failure =>
    cases failure with
    | runtime e => exact hreport e
    | exhausted => exact hreport _
    | outOfTurns => exact ⟨h.sound, h.current, fun f hf => (Option.some.inj hf).symm⟩
    | fault f => cases hf _ rfl

theorem Ready.run {s : Session} (h : s.Ready) {x y : Eval Unit}
    (hxy : Agree s.machine x y fun _ _ => True) : s.run x = s.run y ∧ (s.run y).Ready := by
  obtain ⟨he, hsound, hfault⟩ := hxy.run
  have hcurrent : (s.machine.run y).2.current = Machine.globals := by
    unfold Machine.run
    cases y s.machine <;> rfl
  have hready : ({ s with machine := (s.machine.run y).2 } : Session).Ready :=
    ⟨hsound, hcurrent, h.unbroken⟩
  rw [run_def, run_def, he]
  exact ⟨rfl, hready.conclude hfault⟩

/-- On a sound machine, accepted programs are carried out as they are executed. -/
def Faithful (carryOut : Settings → List BoundStmt → Eval Unit) : Prop :=
  ∀ (settings : Settings) (program : List RawStmt) (m : Machine), Accepted program → m.Sound →
    m.current = Machine.globals →
      Agree m (carryOut settings (Stmt.boundList .topLevel program))
        (Eval.executeProgram settings (Stmt.boundList .topLevel program)) fun _ _ => True

theorem faithful_audit : Faithful Audit.executeProgram := fun settings _ _ hp hm hc =>
  Audit.executeProgram_agrees settings rfl hp.accepted hp.regular Surroundings.settled_topLevel hm
    (hm.standsAt hc)

theorem Ready.inputBy {s : Session} {carryOut : Settings → List BoundStmt → Eval Unit}
    (hc : Faithful carryOut) (h : s.Ready) (i : Input) :
    i.runBy carryOut s = i.run s ∧ (i.run s).Ready := by
  have hread := h.annotated (annotated_read s i)
  rw [Input.run_eq]
  unfold Input.runBy
  cases hr : i.read s with
  | mk s' program =>
    rw [hr] at hread
    cases program with
    | none => exact ⟨rfl, hread⟩
    | some bound =>
      obtain ⟨program, ha, rfl⟩ := accepted_read (congrArg Prod.snd hr)
      exact hread.run (hc i.settings program _ ha hread.sound hread.current)

theorem Ready.input {s : Session} (h : s.Ready) (i : Input) :
    i.audit s = i.run s ∧ (i.run s).Ready := h.inputBy faithful_audit i

theorem Ready.inputs {s : Session} {carryOut : Settings → List BoundStmt → Eval Unit}
    (hc : Faithful carryOut) (h : s.Ready) (inputs : List Input) :
    inputs.foldl (Input.runBy carryOut) s = inputs.foldl Input.run s := by
  induction inputs generalizing s with
  | nil => rfl
  | cons i inputs ih =>
    obtain ⟨he, hr⟩ := h.inputBy hc i
    rw [List.foldl_cons, List.foldl_cons, he]
    exact ih hr

/-- Whatever is given to a session and however its inputs end, an audit of all its runs finds
nothing; and where a run does not end, a loop has turned too often or a runtime error is
reported. -/
theorem audit_run (clock : Float) (inputs : List Input) :
    inputs.foldl Input.audit (initial clock) = inputs.foldl Input.run (initial clock) ∧
      ∀ f, (inputs.foldl Input.run (initial clock)).breakdown = some f → f = .outOfTurns := by
  suffices h : ∀ s : Session, s.Ready →
      inputs.foldl Input.audit s = inputs.foldl Input.run s ∧
        (inputs.foldl Input.run s).Ready from
    ⟨(h _ (ready_initial clock)).1, (h _ (ready_initial clock)).2.unbroken⟩
  induction inputs with
  | nil => exact fun s hs => ⟨rfl, hs⟩
  | cons i inputs ih =>
    intro s hs
    obtain ⟨he, hr⟩ := hs.input i
    rw [List.foldl_cons, List.foldl_cons, he]
    exact ih _ hr

end Session
end Lox
