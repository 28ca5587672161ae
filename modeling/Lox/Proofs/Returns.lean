import Lox.Proofs.Conversion
import Lox.Proofs.Escape
import Lox.Proofs.Pruning
import Lox.Proofs.Twins

/-! Returns. What follows a return statement in its block or the body of its function is never
run, so that a program runs as it does with all of that cut off; the return itself goes straight
to the end of its activation. -/

namespace Lox

/-- A function may stand pruned in its own place. -/
def pruning : Recoding where
  Same f g := ∃ last, g = Stmt.prunedFunction last f
  refl f := ⟨fun _ => false, (Stmt.prunedFunction_none f).symm⟩
  name_eq := by
    rintro f _ ⟨last, rfl⟩
    exact Stmt.name_prunedFunction last f
  parameters_eq := by
    rintro f _ ⟨last, rfl⟩
    exact Stmt.parameters_prunedFunction last f

theorem forall₂_prunedFunctions (last : Token → Bool) (fs : List BoundFunction) :
    List.Forall₂ pruning.Same fs (Stmt.prunedFunctions last fs) := by
  induction fs with
  | nil => exact .nil
  | cons f fs ih => exact .cons ⟨last, rfl⟩ ih

namespace Eval

/-- A return statement never ends as if it were not there. -/
def Returns (ex : BoundStmt → Eval Completion) : Prop :=
  ∀ keyword value m c m', ex (.return_ keyword value) m = .ok c m' → c ≠ .normal

theorem returns_executeForm (settings : Settings) (ev : BoundExpr → Eval Value)
    (ex : BoundStmt → Eval Completion) : Returns (executeForm settings ev ex) := by
  intro keyword value m c m' hm
  cases value with
  | none =>
    cases hm
    exact Completion.noConfusion
  | some e =>
    refine of_bind_ok (P := (· ≠ .normal)) (fun v m₁ c m₂ hc => ?_) hm
    cases hc
    exact Completion.noConfusion

theorem returns_execute (settings : Settings) (nesting : Nat) :
    Returns (execute settings nesting) := by
  cases nesting with
  | zero =>
    intro keyword value m c m' hm
    cases hm
  | succ nesting =>
    intro keyword value m c m' hm
    have hform := returns_executeForm settings (evaluate settings nesting)
      (execute settings nesting) keyword value
    rw [execute] at hm
    split at hm
    · exact of_bind_ok (P := (· ≠ .normal)) (fun _ => hform) hm
    · exact hform m c m' hm

end Eval

namespace Recoding.Pair
open Eval
variable {s t : pruning.Pair} {ev : BoundExpr → Eval Value} {ex : BoundStmt → Eval Completion}

/-- Every statement runs as it does pruned. -/
def ExecutesPruned (ex : BoundStmt → Eval Completion) : Prop :=
  ∀ (s : pruning.Pair) (last : Token → Bool) (st : BoundStmt),
    s.Runs (ex st) (ex (st.pruned last)) Ends

section
variable (hex : ExecutesPruned ex) (hreturns : Returns ex)
include hex hreturns

theorem executeAll_pruned (s : pruning.Pair) (last : Token → Bool) (ss : List BoundStmt) :
    s.Runs (executeAll ex ss) (executeAll ex (Stmt.prunedList last ss)) Ends := by
  induction ss generalizing s with
  | nil => exact .pure trivial
  | cons st ss ih =>
    rw [Stmt.prunedList]
    by_cases hlast : st.isLast last = true
    · -- both sides return here, and the left side goes no further
      have hreturn : ∀ c m, ex (st.pruned last) s.right = .ok c m → c ≠ .normal := by
        cases st with
        | return_ keyword value => exact hreturns keyword value s.right
        | _ => cases hlast
      refine ((hex s last st).and_ok hreturn).bind fun t c d _ hcd => ?_
      obtain ⟨hcd, hd⟩ := hcd
      cases c <;> cases d
      · exact absurd rfl hd
      · exact hcd.elim
      · exact hcd.elim
      · exact .pure hcd
    · rw [if_neg hlast]
      refine (hex s last st).bind fun t c d _ hcd => ?_
      cases c <;> cases d
      · exact ih t
      · exact hcd.elim
      · exact hcd.elim
      · exact .pure hcd

theorem apply_pruned : Enters pruning (apply ex) (apply ex) := by
  intro s f g vs ws hfg hvs
  obtain ⟨last, hg⟩ := hfg.declaration
  refine apply_runs s hfg hvs fun t => ?_
  rw [hg, Stmt.body_prunedFunction]
  exact executeAll_pruned hex hreturns t last _

theorem executeForm_pruned (settings : Settings) (hev : Evaluates pruning ev ev)
    (s : pruning.Pair) (last : Token → Bool) (st : BoundStmt) :
    s.Runs (executeForm settings ev ex st) (executeForm settings ev ex (st.pruned last)) Ends := by
  cases st with
  | expression line value => exact (hev s value).bind fun _ _ _ _ _ => .pure trivial
  | print line value => exact Parallel.print_runs (laws pruning) (hev s value)
  | var name initializer =>
    have hdefine (t : pruning.Pair) {v w : Value} (h : pruning.Alike v w) :
        t.Runs (define name.lexeme v >>= fun _ => pure Completion.normal)
          (define name.lexeme w >>= fun _ => pure Completion.normal) Ends :=
      (define_runs t name.lexeme h).bind fun _ _ _ _ _ => .pure trivial
    cases initializer with
    | none => exact hdefine s (Alike.refl .nil)
    | some e => exact (hev s e).bind fun t v w _ hv => hdefine t hv
  | block line body =>
    refine Parallel.Runs.get (P := pruning.parallel) ?_
    show s.Runs (executeBlock ex s.left.current [] body) (executeBlock ex s.right.current [] _) _
    rw [s.twins.current]
    exact executeBlock_runs s _ .nil fun t => executeAll_pruned hex hreturns t last body
  | ifThen line condition thenBranch =>
    exact Parallel.branch_runs (hev s condition) (fun t _ => hex t last thenBranch)
      fun _ _ => .pure trivial
  | ifElse line condition thenBranch elseBranch =>
    exact Parallel.branch_runs (hev s condition) (fun t _ => hex t last thenBranch)
      fun t _ => hex t last elseBranch
  | while_ line condition body =>
    exact Parallel.loop_runs (fun t _ => hev t condition) (fun t _ => hex t last body)
      settings.turns
  | function f =>
    refine (newFunction_runs s ⟨last, rfl⟩ false).bind fun t g g' _ hg => ?_
    have hvalue : pruning.Alike (.function g) (.function g') := hg
    show t.Runs (define g.name _ >>= _) (define g'.name _ >>= _) _
    rw [hg.name_eq]
    exact (define_runs t g'.name hvalue).bind fun _ _ _ _ _ => .pure trivial
  | return_ keyword value =>
    cases value with
    | none => exact .pure (Alike.refl .nil)
    | some e => exact (hev s e).bind fun _ _ _ _ hv => .pure hv
  | class_ line name superclass methods =>
    exact (declareClass_runs hev s name superclass (forall₂_prunedFunctions last methods)).bind
      fun _ _ _ _ _ => .pure trivial

end

theorem evaluate_execute_pruned (settings : Settings) (nesting : Nat) :
    Evaluates pruning (evaluate settings nesting) (evaluate settings nesting) ∧
      ExecutesPruned (execute settings nesting) := by
  induction nesting with
  | zero => exact ⟨fun s _ => .throw _, fun s _ _ => .throw _⟩
  | succ nesting ih =>
    obtain ⟨hev, hex⟩ := ih
    have hreturns := returns_execute settings nesting
    refine ⟨fun s e => evaluateForm_runs settings hev (apply_pruned hex hreturns) s e,
      fun s last st => ?_⟩
    simp only [execute, Stmt.line_pruned, Stmt.kind_pruned]
    split
    · exact (emit_runs s _).bind fun t _ _ _ _ =>
        executeForm_pruned hex hreturns settings hev t last st
    · exact executeForm_pruned hex hreturns settings hev s last st

theorem executeProgram_pruned (settings : Settings) (s : pruning.Pair) (last : Token → Bool)
    (ss : List BoundStmt) :
    s.Runs (executeProgram settings ss) (executeProgram settings (ss.map (Stmt.pruned last)))
      fun _ _ _ => True := by
  induction ss generalizing s with
  | nil => exact .pure trivial
  | cons st ss ih =>
    exact ((evaluate_execute_pruned settings settings.nesting).2 s last st).bind fun t _ _ _ _ =>
      ih t

end Recoding.Pair

namespace Session

/-- A function may return from anywhere inside it. Whatever follows a return statement in its block
or the body of its function can be deleted, in any number of places: the program is still accepted,
it writes and reports the same, and its globals end up with the same values. A return is an escape
to the call: it skips all that is left of the statements, conditions and loops around it. -/
theorem runProgram_pruned (last : Token → Bool) {text : String} (h : Clean text) :
    let program := (Parse.program (Scan.ofText text).tokens).value
    let pruned := program.map (Stmt.pruned last)
    Accepted pruned ∧
      Resolution.ofProgram pruned = ⟨(Text.program text).map (Stmt.pruned last), []⟩ ∧
      (∀ (s : Session) (settings : Settings), s.diagnostics.hadError = false →
        (s.runProgram settings text).Echoes (s.resolveAndRun settings pruned) ∧
          (s.resolveAndRun settings pruned).machine.globalTexts =
            (s.runProgram settings text).machine.globalTexts) ∧
      ∀ settings, Eval.executeProgram settings (Text.program text) =
        Escaping.executeProgram settings (Text.program text) := by
  intro program pruned
  have haccepted : Accepted program :=
    ⟨Parse.program_regular (Scan.ofText_spelled text), h.problems⟩
  have hresolved := Resolution.ofProgram_pruned last haccepted
  refine ⟨haccepted.pruned last, hresolved, fun s settings hs => ?_,
    fun settings => (Escaping.executeProgram_eq settings _).symm⟩
  have hpruned : s.resolveAndRun settings pruned =
      s.interpret settings ((Text.program text).map (Stmt.pruned last)) := by
    unfold resolveAndRun
    rw [hresolved]
    show (if s.diagnostics.hadError then s else s.interpret settings _) = _
    rw [hs]
    rfl
  obtain ⟨ending, t, hleft, hright⟩ := Recoding.Pair.ends_alike
    (Recoding.Pair.executeProgram_pruned settings ⟨s.machine, s.machine, .refl _⟩ last
      (Text.program text))
  rw [runProgram_of_clean settings h hs, hpruned, interpret, interpret, run_def, run_def, hleft,
    hright]
  have hechoes : ({ s with machine := t.left } : Session).Echoes { s with machine := t.right } :=
    ⟨t.twins.events, rfl, rfl⟩
  refine ⟨hechoes.conclude ending, ?_⟩
  simp only [Machine.globalTexts, globalValues_conclude]
  exact t.twins.globalTexts_eq

/-- The call is left from within a block, a condition and a loop. -/
def searching : String :=
  "fun search(limit) \x7b\n  for (var i = \"\"; true; i = i + \"*\")\n" ++
    "    if (i == limit) \x7b return i; var rest = i; \x7d\n\x7d\nprint search(\"***\");"

theorem searching_pruned :
    Clean searching ∧
      let last (t : Token) : Bool := t.line == 3
      let program := (Parse.program (Scan.ofText searching).tokens).value
      let pruned := program.map (Stmt.pruned last)
      Accepted pruned ∧
        Resolution.ofProgram pruned = ⟨(Text.program searching).map (Stmt.pruned last), []⟩ ∧
        (∀ (s : Session) (settings : Settings), s.diagnostics.hadError = false →
          (s.runProgram settings searching).Echoes (s.resolveAndRun settings pruned) ∧
            (s.resolveAndRun settings pruned).machine.globalTexts =
              (s.runProgram settings searching).machine.globalTexts) ∧
        ∀ settings, Eval.executeProgram settings (Text.program searching) =
          Escaping.executeProgram settings (Text.program searching) := by
  have h : Clean searching := ⟨by decide +kernel, by decide +kernel, by decide +kernel⟩
  exact ⟨h, runProgram_pruned (·.line == 3) h⟩

example :
    let program := Text.program searching
    (Stmt.localNames program).map Token.lexeme = ["limit", "i", "rest"] ∧
      (Stmt.localNames (program.map (Stmt.pruned (·.line == 3)))).map Token.lexeme =
        ["limit", "i"] := by
  decide +kernel

end Session
end Lox
