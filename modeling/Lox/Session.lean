import Lox.Machine.Evaluation
import Lox.Scope
import Lox.Syntax.StatementParser
import Lox.Token.Scan
/-!
Sessions. Inputs run one after another on one machine; an input with a static error does not run
at all.
-/
namespace Lox

structure Session where
  machine : Machine
  diagnostics : Diagnostics
  /-- What stopped the last input, if neither its end nor a runtime error did. -/
  breakdown : Option Failure

namespace Session

def initial (clock : Float) : Session := ⟨.initial clock, .empty, none⟩

def record (s : Session) (e : Event) : Session :=
  { s with machine := { s.machine with events := e :: s.machine.events } }

def reportError (s : Session) (e : StaticError) : Session :=
  { s with diagnostics := s.diagnostics.addStatic e.text }.record (.reported e.text)

def report (s : Session) (errors : List StaticError) : Session := errors.foldl reportError s

def reportRuntimeError (s : Session) (e : RuntimeError) : Session :=
  { s with diagnostics := s.diagnostics.addRuntime e.text }.record (.reported e.text)

/-- Takes notice of how a run ended. Nesting that ran out outside of every call is a runtime error
without a line. -/
def conclude (s : Session) : Option Failure → Session
  | none => s
  | some (.runtime e) => s.reportRuntimeError e
  | some .exhausted => s.reportRuntimeError ⟨.tooDeeplyNested, none⟩
  | some failure => { s with breakdown := some failure }

def run (s : Session) (program : Eval Unit) : Session :=
  let (failure, machine) := s.machine.run program
  { s with machine }.conclude failure

def interpret (s : Session) (settings : Settings) (program : List BoundStmt) : Session :=
  s.run (Eval.executeProgram settings program)

def resolveAndRun (s : Session) (settings : Settings) (program : List RawStmt) : Session :=
  let r := Resolution.ofProgram program
  let s := s.report r.errors
  if s.diagnostics.hadError then s else s.interpret settings r.program

def runProgram (s : Session) (settings : Settings) (source : String) : Session :=
  let scan := Scan.ofText source
  let parse := Parse.program scan.tokens
  let s := s.report (scan.errors ++ parse.errors scan.finish.line)
  if s.diagnostics.hadError then s else s.resolveAndRun settings parse.value

/-- The expression that a text is, if its tokens are not a program. -/
def bareExpression? (scan : Scan) : Option RawExpr :=
  if scan.errors.isEmpty && !(Parse.program scan.tokens).complaints.isEmpty then
    (Parse.expression scan.tokens).value
  else none

/-- Runs a text typed in by hand: a bare expression is printed, anything else is a program. -/
def runInput (s : Session) (settings : Settings) (source : String) : Session :=
  match bareExpression? (Scan.ofText source) with
  | some e => s.resolveAndRun settings [.print e.line e]
  | none => s.runProgram settings source

def reset (s : Session) : Session := { s with diagnostics := s.diagnostics.reset }

/-- Says what stopped an input that should have run to its end. -/
def reportBreakdown (s : Session) : Session :=
  match s.breakdown with
  | some failure =>
    { s.record (.reported ("Internal error: " ++ failure.text)) with breakdown := none }
  | none => s

def forget (s : Session) : Session := { s with machine := { s.machine with events := [] } }

end Session
end Lox
