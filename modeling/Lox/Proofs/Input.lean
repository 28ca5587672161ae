import Lox.Proofs.Spelling
import Lox.Proofs.Resolution
import Lox.Session

/-! Inputs to a session. An input is first read: that reports what is wrong with its text and
gives, when nothing is wrong, an accepted program. Only then does anything run. -/

namespace Lox

structure Accepted (program : List RawStmt) : Prop where
  regular : Stmt.RegularList Token.Spelled program
  accepted : Stmt.problemsList .topLevel program = []

namespace Session

/-- Reports what is wrong with a program, or else gives it with its names resolved. -/
def resolve (s : Session) (program : List RawStmt) : Session × Option (List BoundStmt) :=
  let r := Resolution.ofProgram program
  let s := s.report r.errors
  (s, if s.diagnostics.hadError then none else some r.program)

structure Input where
  source : String
  /-- Whether a bare expression is to be printed. -/
  isTyped : Bool
  /-- Whether the record of errors is cleared first. -/
  resets : Bool
  settings : Settings

namespace Input

def found (s : Session) (i : Input) : Session := if i.resets then s.reset else s

def run (s : Session) (i : Input) : Session :=
  if i.isTyped then (i.found s).runInput i.settings i.source
  else (i.found s).runProgram i.settings i.source

def read (s : Session) (i : Input) : Session × Option (List BoundStmt) :=
  let scan := Scan.ofText i.source
  match if i.isTyped then bareExpression? scan else none with
  | some e => (i.found s).resolve [.print e.line e]
  | none =>
    let parse := Parse.program scan.tokens
    let s := (i.found s).report (scan.errors ++ parse.errors scan.finish.line)
    if s.diagnostics.hadError then (s, none) else s.resolve parse.value

/-- Reads an input and has the program carried out, if there is one. -/
def runBy (carryOut : Settings → List BoundStmt → Eval Unit) (s : Session) (i : Input) : Session :=
  match i.read s with
  | (s, some program) => s.run (carryOut i.settings program)
  | (s, none) => s

end Input

theorem resolveAndRun_eq (s : Session) (settings : Settings) (program : List RawStmt) :
    s.resolveAndRun settings program =
      match s.resolve program with
      | (s, some program) => s.run (Eval.executeProgram settings program)
      | (s, none) => s := by
  unfold resolveAndRun resolve
  cases h : (s.report (Resolution.ofProgram program).errors).diagnostics.hadError <;>
    simp [h, interpret]

theorem Input.run_eq (s : Session) (i : Input) : i.run s = i.runBy Eval.executeProgram s := by
  unfold Input.run Input.runBy Input.read runInput runProgram
  generalize i.found s = s
  cases i.isTyped with
  | false =>
    simp only [Bool.false_eq_true, if_false]
    split
    · rfl
    · exact resolveAndRun_eq _ _ _
  | true =>
    simp only [if_true]
    cases bareExpression? (Scan.ofText i.source) with
    | some e => exact resolveAndRun_eq _ _ _
    | none =>
      dsimp only
      split
      · rfl
      · exact resolveAndRun_eq _ _ _

/-- Reporting changes nothing that a program runs on. -/
theorem machine_report (s : Session) (errors : List StaticError) :
    ∃ events, (s.report errors).machine = { s.machine with events } := by
  induction errors generalizing s with
  | nil => exact ⟨s.machine.events, rfl⟩
  | cons e errors ih =>
    obtain ⟨events, h⟩ := ih (s.reportError e)
    exact ⟨events, h⟩

theorem run_def (s : Session) (program : Eval Unit) :
    s.run program =
      ({ s with machine := (s.machine.run program).2 } : Session).conclude
        (s.machine.run program).1 := rfl

theorem machine_conclude (s : Session) (f : Option Failure) :
    ∃ events, (s.conclude f).machine = { s.machine with events } := by
  fun_cases conclude s f <;> exact ⟨_, rfl⟩

theorem breakdown_report (s : Session) (errors : List StaticError) :
    (s.report errors).breakdown = s.breakdown := by
  induction errors generalizing s with
  | nil => rfl
  | cons e errors ih => exact ih (s.reportError e)

theorem hadError_report (s : Session) (errors : List StaticError) :
    (s.report errors).diagnostics.hadError = (s.diagnostics.hadError || !errors.isEmpty) := by
  induction errors generalizing s with
  | nil => simp [report]
  | cons e errors ih =>
    have h : (s.report (e :: errors)).diagnostics.hadError = (true || !errors.isEmpty) :=
      ih (s.reportError e)
    simpa using h

/-- A session after static errors have been reported on it. -/
structure Annotated (s s' : Session) : Prop where
  machine : ∃ events, s'.machine = { s.machine with events }
  breakdown : s'.breakdown = s.breakdown

theorem annotated_report (s : Session) (errors : List StaticError) :
    s.Annotated (s.report errors) :=
  ⟨s.machine_report errors, s.breakdown_report errors⟩

theorem Annotated.trans {s t u : Session} (h : s.Annotated t) (h' : t.Annotated u) :
    s.Annotated u := by
  obtain ⟨⟨events, hm⟩, hb⟩ := h
  obtain ⟨⟨events', hm'⟩, hb'⟩ := h'
  exact ⟨⟨events', by rw [hm', hm]⟩, hb'.trans hb⟩

theorem annotated_resolve (s : Session) (program : List RawStmt) :
    s.Annotated (s.resolve program).1 :=
  s.annotated_report _

theorem accepted_resolve {s : Session} {program : List RawStmt} {bound : List BoundStmt}
    (hr : Stmt.RegularList Token.Spelled program) (h : (s.resolve program).2 = some bound) :
    Accepted program ∧ bound = Stmt.boundList .topLevel program := by
  rw [resolve, Resolution.ofProgram_eq] at h
  simp only [hadError_report] at h
  split at h
  · cases h
  · next hn =>
    cases h
    refine ⟨⟨hr, ?_⟩, rfl⟩
    simpa using (not_or.1 (mt Bool.or_eq_true_iff.2 hn)).2

theorem bareExpression?_regular {text : String} {e : RawExpr}
    (h : bareExpression? (Scan.ofText text) = some e) : e.Regular Token.Spelled := by
  unfold bareExpression? at h
  split at h
  · exact Parse.expression_regular (Scan.ofText_spelled text) e h
  · cases h

theorem annotated_read (s : Session) (i : Input) : s.Annotated (i.read s).1 := by
  unfold Input.read
  have hs : s.Annotated (i.found s) := by
    unfold Input.found
    split
    · exact ⟨⟨s.machine.events, rfl⟩, rfl⟩
    · exact ⟨⟨s.machine.events, rfl⟩, rfl⟩
  refine hs.trans ?_
  dsimp only
  split
  · exact annotated_resolve _ _
  · split
    · exact annotated_report _ _
    · exact (annotated_report _ _).trans (annotated_resolve _ _)

theorem accepted_read {s : Session} {i : Input} {bound : List BoundStmt}
    (h : (i.read s).2 = some bound) :
    ∃ program, Accepted program ∧ bound = Stmt.boundList .topLevel program := by
  unfold Input.read at h
  dsimp only at h
  split at h
  · next e he =>
    split at he
    · have hr : Stmt.RegularList Token.Spelled [.print e.line e] :=
        ⟨bareExpression?_regular he, trivial⟩
      exact ⟨_, accepted_resolve hr h⟩
    · cases he
  · split at h
    · cases h
    · exact ⟨_, accepted_resolve (Parse.program_regular (Scan.ofText_spelled i.source)) h⟩

end Session
end Lox
