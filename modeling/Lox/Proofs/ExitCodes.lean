import Lox.Command
import Lox.Proofs.Audit
import Lox.Proofs.Headroom
import Lox.Proofs.Omission

/-! Exit codes. What is found wrong with a text before it runs, and how its run fails, decide the
code that a command exits with and everything that the command writes about errors. -/

namespace Lox

namespace Transcript

theorem messages_append (newer older : Transcript) :
    messages (newer ++ older) = older.messages ++ newer.messages := by
  show String.join ((newer ++ older).reverse.map Event.messages) = _
  rw [List.reverse_append, List.map_append, String.join_append]
  rfl

/-- The texts, each on lines of its own. -/
def lines (texts : List String) : String := join (texts.map (· ++ "\n"))

theorem lines_eq_empty {texts : List String} : lines texts = "" ↔ texts = [] := by
  cases texts with
  | nil => exact ⟨fun _ => rfl, fun _ => rfl⟩
  | cons text texts =>
    have hlines : lines (text :: texts) = text ++ "\n" ++ lines texts := String.join_cons
    simp [hlines]

theorem output_reported (texts : List String) : output (texts.map Event.reported).reverse = "" := by
  induction texts with
  | nil => rfl
  | cons text texts ih =>
    rw [List.map_cons, List.reverse_cons, output_append, ih]
    rfl

theorem messages_reported (texts : List String) :
    messages (texts.map Event.reported).reverse = lines texts := by
  rw [messages, List.reverse_reverse, List.map_map, lines]
  rfl

end Transcript

/-- Computations that write no message. -/
def silence : Passage where
  Holds x _ := ∀ m, (x.leaves m).events.messages = m.events.messages
  pure _ _ := rfl
  bind {_ _ x _ f _} hx hf m := by
    rw [← hx m]
    cases h : x m with
    | ok a m' =>
      rw [Eval.leaves_bind_ok h, Eval.leaves_ok h]
      exact hf a m'
    | error failure m' => rw [Eval.leaves_error h, Eval.leaves_error (Eval.bind_error h f)]
  throw _ _ := rfl
  inspect _ _ h m := h m m
  store hf m := congrArg Transcript.messages (hf.keeps m)
  print text m := by
    show Transcript.messages ([.printed text] ++ m.events) = _
    rw [Transcript.messages_append]
    exact String.append_empty
  inEnvironment {_ x _} e h m := by
    rw [Eval.events_leaves_inEnvironment]
    exact h { m with current := e }
  inCall {_ x _} line h m := by
    rw [Eval.events_leaves_inCall]
    exact h { m with callDepth := m.callDepth + 1 }

/-- Without a trace, a program writes no messages. -/
theorem Eval.messages_executeProgram {settings : Settings} (h : settings.trace = false)
    (program : List BoundStmt) (m : Machine) :
    ((executeProgram settings program).leaves m).events.messages = m.events.messages := by
  have hlines (htrace : settings.trace = true) (line : Nat) (kind : String) :
      silence.Holds (emit (.traced line kind)) (emit (.traced line kind)) := by
    rw [h] at htrace
    cases htrace
  have hevery := silence.evaluate_execute rfl rfl hlines (fun _ _ => silence.call) settings.nesting
  exact silence.executeProgram rfl hevery.2 program m

namespace Text

/-- What the lexer and the parser report. -/
def syntaxErrors (source : String) : List StaticError :=
  let scan := Scan.ofText source
  scan.errors ++ (Parse.program scan.tokens).errors scan.finish.line

/-- What is reported of a text before it runs. Only a text without any other error is resolved. -/
def errors (source : String) : List StaticError :=
  if (syntaxErrors source).isEmpty then
    (Resolution.ofProgram (Parse.program (Scan.ofText source).tokens).value).errors
  else syntaxErrors source

/-- How the program of a text fails when it runs by itself. -/
def failure (clock : Float) (source : String) : Option Failure :=
  ((Machine.initial clock).run (Eval.executeProgram {} (program source))).1

theorem syntaxErrors_of_scan {source : String} (h : (Scan.ofText source).errors ≠ []) :
    syntaxErrors source ≠ [] := fun hnone => h (List.append_eq_nil_iff.1 hnone).1

theorem errors_of_syntaxErrors {source : String} (h : syntaxErrors source ≠ []) :
    errors source ≠ [] := by
  unfold errors
  rwa [if_neg (mt List.isEmpty_iff.1 h)]

theorem clean_of_errors {source : String} (h : errors source = []) : Clean source := by
  unfold errors at h
  split at h
  · next hsyntax =>
    obtain ⟨hscan, hparse⟩ := List.append_eq_nil_iff.1 (List.isEmpty_iff.1 hsyntax)
    exact ⟨hscan, List.map_eq_nil_iff.1 hparse, h⟩
  · next hsyntax => exact absurd (List.isEmpty_iff.2 h) hsyntax

/-- An accepted text fails with an error that is reported, if its loops come to an end. -/
theorem unreported?_failure (clock : Float) {source : String} (h : Clean source)
    (hends : failure clock source ≠ some .outOfTurns) :
    (failure clock source).bind Failure.unreported? = none := by
  have haccepted : Accepted (Parse.program (Scan.ofText source).tokens).value :=
    ⟨Parse.program_regular (Scan.ofText_spelled source), h.problems⟩
  have hready : ((Session.initial clock).interpret {} (program source)).Ready := by
    unfold Session.interpret program
    rw [Resolution.ofProgram_eq]
    have hinitial := Session.ready_initial clock
    exact (hinitial.run
      (Session.faithful_audit {} _ _ haccepted hinitial.sound hinitial.current)).2
  have hbreakdown : ((Session.initial clock).interpret {} (program source)).breakdown =
      ((failure clock source).bind Failure.unreported?).or none :=
    Session.breakdown_conclude _ (failure clock source)
  cases hf : failure clock source with
  | none => rfl
  | some f =>
    rw [hf] at hbreakdown hends
    cases f with
    | runtime e => rfl
    | exhausted => rfl
    | outOfTurns => exact absurd rfl hends
    | fault f => cases hready.unbroken _ hbreakdown

end Text

theorem Session.messages_conclude (s : Session) (f : Option Failure) :
    (s.conclude f).machine.events.messages = s.machine.events.messages ++
      Transcript.lines ((f.bind Failure.reported?).map RuntimeError.text).toList := by
  have hreport (e : RuntimeError) : (s.reportRuntimeError e).machine.events.messages =
      s.machine.events.messages ++ Transcript.lines [e.text] := by
    rw [← Transcript.messages_reported, ← Transcript.messages_append]
    rfl
  cases f with
  | none => exact String.append_empty.symm
  | some f =>
    cases f with
    | runtime e => exact hreport e
    | exhausted => exact hreport _
    | outOfTurns | fault _ => exact String.append_empty.symm

namespace Report
variable {source : String} {failure : Option Failure} {r : Report}

/-- What the report of a run tells. -/
structure Tells (source : String) (failure : Option Failure) (r : Report) : Prop where
  rejects : r.exitCode = 65 ↔ Text.errors source ≠ []
  rejected : Text.errors source ≠ [] → r.transcript.output = "" ∧
    r.transcript.messages = Transcript.lines ((Text.errors source).map StaticError.text)
  fails : r.exitCode = 70 ↔
    Text.errors source = [] ∧ (failure.bind Failure.reported?).isSome
  failed : ∀ e, Text.errors source = [] → failure.bind Failure.reported? = some e →
    r.transcript.messages = Transcript.lines [e.text]
  succeeds : r.exitCode = 0 ↔ r.transcript.messages = ""

theorem exitCode_ofErrors (errors : List StaticError) (output : List String) :
    (ofErrors errors output).exitCode = 65 ↔ errors ≠ [] := by
  cases errors with
  | nil => simp [ofErrors]
  | cons e errors => exact ⟨fun _ => List.cons_ne_nil e errors, fun _ => rfl⟩

theorem tells_of_errors (h : Text.errors source ≠ []) (hcode : r.exitCode = 65)
    (houtput : r.transcript.output = "")
    (hmessages : r.transcript.messages =
      Transcript.lines ((Text.errors source).map StaticError.text)) :
    r.Tells source failure where
  rejects := by simp [hcode, h]
  rejected _ := ⟨houtput, hmessages⟩
  fails := by simp [hcode, h]
  failed _ hnone := absurd hnone h
  succeeds := by simp [hcode, hmessages, Transcript.lines_eq_empty, h]

theorem tells_of_clean (h : Text.errors source = [])
    (hcode : r.exitCode = if (failure.bind Failure.reported?).isSome then 70 else 0)
    (hmessages : r.transcript.messages =
      Transcript.lines ((failure.bind Failure.reported?).map RuntimeError.text).toList) :
    r.Tells source failure := by
  cases he : failure.bind Failure.reported? with
  | none =>
    rw [he] at hcode hmessages
    have hcode : r.exitCode = 0 := hcode
    have hmessages : r.transcript.messages = "" := hmessages
    exact {
      rejects := by simp [hcode, h]
      rejected := fun herrors => absurd h herrors
      fails := by simp [hcode, he]
      failed := fun e _ hsome => by cases he.symm.trans hsome
      succeeds := by simp [hcode, hmessages] }
  | some e =>
    rw [he] at hcode hmessages
    have hcode : r.exitCode = 70 := hcode
    have hmessages : r.transcript.messages = Transcript.lines [e.text] := hmessages
    exact {
      rejects := by simp [hcode, h]
      rejected := fun herrors => absurd h herrors
      fails := by simp [hcode, h, he]
      failed := fun e' _ hsome => by
        cases he.symm.trans hsome
        exact hmessages
      succeeds := by simp [hcode, hmessages, Transcript.lines_eq_empty] }

end Report

namespace Command
variable {source : String}

/-- The report of a run that nothing else has stopped. -/
theorem runReport_eq {settings : Settings} {clock : Float} {s : Session}
    (hrun : (Session.initial clock).runProgram settings source = s) (h : s.breakdown = none) :
    runReport settings clock source =
      ⟨if s.diagnostics.hadError then 65 else if s.diagnostics.hadRuntimeError then 70 else 0,
        s.machine.events⟩ := by
  unfold runReport Session.reportBreakdown
  rw [hrun]
  simp only [h]
  rfl

theorem runReport_of_errors (clock : Float) (h : Text.errors source ≠ []) :
    runReport {} clock source =
      ⟨65, (((Text.errors source).map StaticError.text).map .reported).reverse⟩ := by
  have hunmoved := Session.unmoved_of_errors (s := .initial clock)
    (i := ⟨source, false, false, {}⟩) rfl h
  have hrefused := (Session.initial clock).refuses_report h
  have hbreakdown := (Session.initial clock).breakdown_report (Text.errors source)
  rw [runReport_eq hunmoved.run hbreakdown]
  show Report.mk (if ((Session.initial clock).report (Text.errors source)).diagnostics.hadError
    then 65 else _) ((Session.initial clock).report (Text.errors source)).machine.events = _
  rw [if_pos hrefused.hadError, Session.machine_report_eq, List.map_map]
  simp [Session.initial, Machine.initial]

theorem runReport_of_conclude {clock : Float} {s : Session} {f : Option Failure}
    (hrun : (Session.initial clock).runProgram {} source = s.conclude f)
    (hdiagnostics : s.diagnostics = .empty) (hbreakdown : s.breakdown = none)
    (hsilent : s.machine.events.messages = "") (hf : f.bind Failure.unreported? = none) :
    (runReport {} clock source).exitCode = (if (f.bind Failure.reported?).isSome then 70 else 0) ∧
      (runReport {} clock source).transcript.messages =
        Transcript.lines ((f.bind Failure.reported?).map RuntimeError.text).toList := by
  have hended : (s.conclude f).breakdown = none := by
    rw [Session.breakdown_conclude, hf, hbreakdown]
    rfl
  rw [runReport_eq hrun hended, Session.hadError_conclude, Session.hadRuntimeError_conclude,
    Session.messages_conclude, hdiagnostics, hsilent]
  exact ⟨rfl, String.empty_append⟩

theorem runReport_of_clean (clock : Float) (h : Text.errors source = [])
    (hends : Text.failure clock source ≠ some .outOfTurns) :
    (runReport {} clock source).exitCode =
        (if ((Text.failure clock source).bind Failure.reported?).isSome then 70 else 0) ∧
      (runReport {} clock source).transcript.messages = Transcript.lines
        (((Text.failure clock source).bind Failure.reported?).map RuntimeError.text).toList := by
  have hclean := Text.clean_of_errors h
  let m := ((Machine.initial clock).run (Eval.executeProgram {} (Text.program source))).2
  have hrun : (Session.initial clock).runProgram {} source =
      Session.conclude { Session.initial clock with machine := m } (Text.failure clock source) :=
    Session.runProgram_of_clean {} hclean rfl
  apply runReport_of_conclude hrun rfl rfl
  · rw [Machine.events_run, Eval.messages_executeProgram rfl]
    rfl
  · exact Text.unreported?_failure clock hclean hends

theorem runReport_tells (clock : Float)
    (hends : Text.errors source = [] → Text.failure clock source ≠ some .outOfTurns) :
    (runReport {} clock source).Tells source (Text.failure clock source) := by
  by_cases h : Text.errors source = []
  · obtain ⟨hcode, hmessages⟩ := runReport_of_clean clock h (hends h)
    exact Report.tells_of_clean h hcode hmessages
  · have hreport := runReport_of_errors clock h
    apply Report.tells_of_errors h
    · rw [hreport]
    · rw [hreport, Transcript.output_reported]
    · rw [hreport, Transcript.messages_reported]

end Command

/-- The exit codes of the three commands on a file that can be read. A run that comes to an end, and
that no trace is shown of, tells by its code and its messages whether the text was rejected, failed
or ran through; what is wrong with the tokens is wrong with the program, and is not run. -/
theorem Invocation.report_exitCodes (clock : Float) {read : String → Except FileError ByteArray}
    {path : String} {bytes : ByteArray} {source : String} (input : String) (trace : Bool)
    (hread : read path = .ok bytes) (htext : sourceText bytes = some source) :
    ∃ run parse tokens : Report,
      (⟨.run path, false⟩ : Invocation).report clock read input = some run ∧
      (⟨.parse path, trace⟩ : Invocation).report clock read input = some parse ∧
      (⟨.tokens path, trace⟩ : Invocation).report clock read input = some tokens ∧
      ((Text.errors source = [] → Text.failure clock source ≠ some .outOfTurns) →
        run.Tells source (Text.failure clock source)) ∧
      (parse.exitCode = 65 ↔ Text.syntaxErrors source ≠ []) ∧
      (tokens.exitCode = 65 ↔ (Scan.ofText source).errors ≠ []) ∧
      (tokens.exitCode = 65 → parse.exitCode = 65) ∧
      (parse.exitCode = 65 → run.exitCode = 65) := by
  have hparse : (Command.parseReport source).exitCode = 65 ↔ Text.syntaxErrors source ≠ [] :=
    Report.exitCode_ofErrors _ _
  have htokens : (Command.tokensReport source).exitCode = 65 ↔ (Scan.ofText source).errors ≠ [] :=
    Report.exitCode_ofErrors _ _
  refine ⟨Command.runReport {} clock source, Command.parseReport source,
    Command.tokensReport source, ?_, ?_, ?_, Command.runReport_tells clock, hparse, htokens,
    fun hcode => ?_, fun hcode => ?_⟩
  · simp only [report, hread, htext, Option.map_some]
  · simp only [report, hread, htext, Option.map_some]
  · simp only [report, hread, htext, Option.map_some]
  · exact hparse.2 (Text.syntaxErrors_of_scan (htokens.1 hcode))
  · rw [Command.runReport_of_errors clock (Text.errors_of_syntaxErrors (hparse.1 hcode))]

/-- Its second line fails. -/
def failing : String := "print \"one\";\nprint two;"

theorem failing_exitCodes :
    let read : String → Except FileError ByteArray := fun _ => .ok failing.toUTF8
    let two : RuntimeError := ⟨.undefinedVariable "two", some 2⟩
    sourceText failing.toUTF8 = some failing ∧
      ∃ run, (⟨.run "one.lox", false⟩ : Invocation).report 0 read "" = some run ∧
        run.exitCode = 70 ∧ run.transcript.messages = Transcript.lines [two.text] := by
  intro read two
  have htext : sourceText failing.toUTF8 = some failing := by decide +kernel
  have herrors : Text.errors failing = [] := by decide +kernel
  have hfails : (Text.failure 0 failing).bind Failure.reported? = some two := by decide +kernel
  have hends : Text.failure 0 failing ≠ some .outOfTurns := fun h => by
    rw [h] at hfails
    cases hfails
  have hread : read "one.lox" = .ok failing.toUTF8 := rfl
  obtain ⟨run, _, _, hreport, _, _, htells, _⟩ :=
    Invocation.report_exitCodes 0 "" false hread htext
  have htells := htells fun _ => hends
  exact ⟨htext, run, hreport, htells.fails.2 ⟨herrors, by rw [hfails]; rfl⟩,
    htells.failed two herrors hfails⟩

end Lox
