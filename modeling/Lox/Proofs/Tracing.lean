import Lox.Proofs.Input
import Lox.Proofs.Observation

/-! Tracing. A session that shows a trace of its runs differs from the same session without one
only by the lines of the trace. These tell, in order, which statements were executed, each before
anything that its statement does. -/

namespace Lox

namespace Observed

def failure? : Except Failure Unit → Option Failure
  | .ok _ => none
  | .error f => some f

section
variable {m m' : Machine} {log log' : Log} {r : Except Failure Unit}

theorem run_ending {program : Observed Unit}
    (h : program (m, log) = ending r (m', log')) :
    run program m log =
      (failure? r, { m' with current := Machine.globals, callDepth := 0 }, log') := by
  unfold run
  rw [h]
  cases r <;> rfl

theorem eval_run_ending {program : Eval Unit} (h : program m = ending r m') :
    m.run program = (failure? r, { m' with current := Machine.globals, callDepth := 0 }) := by
  unfold Machine.run
  rw [h]
  cases r <;> rfl

end
end Observed

namespace Session

def runObserved (s : Session) (program : Observed Unit) (log : Log) : Session × Log :=
  let (failure, machine, log) := Observed.run program s.machine log
  ({ s with machine }.conclude failure, log)

/-- Reads an input and has its program observed, if there is one. -/
def Input.observe (seen : Session × Log) (i : Input) : Session × Log :=
  match i.read seen.1 with
  | (s, some program) => s.runObserved (Observed.executeProgram i.settings program) seen.2
  | (s, none) => (s, seen.2)

def Input.traced (trace : Bool) (i : Input) : Input :=
  { i with settings := i.settings.traced trace }

/-- A session as it is at some moment without a trace, the same session with one, and the logs. -/
def Told (s s' : Session) (log log' : Log) : Prop :=
  ∃ t : Moment, s.machine = t.machine ∧ s' = { s with machine := t.traced } ∧ t.log = log ∧
    t.tracedLog = log'

section
variable {s s' : Session} {log log' : Log}

theorem Told.reset (h : Told s s' log log') : Told s.reset s'.reset log log' := by
  obtain ⟨t, hm, rfl, hlog, hlog'⟩ := h
  exact ⟨t, hm, rfl, hlog, hlog'⟩

/-- A message that is reported is no line of a trace, so it is reported in both alike. -/
theorem Told.record (h : Told s s' log log') (add : Diagnostics → Diagnostics) (text : String) :
    Told ({ s with diagnostics := add s.diagnostics }.record (.reported text))
      ({ s' with diagnostics := add s'.diagnostics }.record (.reported text)) log log' := by
  obtain ⟨t, hm, rfl, hlog, hlog'⟩ := h
  have hwrite : ({ s with diagnostics := add s.diagnostics }.record (.reported text)).machine =
      (t.write (.reported text) rfl).machine := by
    rw [Session.record, hm]
    rfl
  exact ⟨t.write (.reported text) rfl, hwrite, rfl, hlog, hlog'⟩

theorem Told.report (h : Told s s' log log') (errors : List StaticError) :
    Told (s.report errors) (s'.report errors) log log' := by
  induction errors generalizing s s' with
  | nil => exact h
  | cons e errors ih => exact ih (h.record (·.addStatic e.text) e.text)

theorem Told.hadError (h : Told s s' log log') :
    s'.diagnostics.hadError = s.diagnostics.hadError := by
  obtain ⟨t, -, rfl, -, -⟩ := h
  rfl

theorem Told.resolve (h : Told s s' log log') (program : List RawStmt) :
    Told (s.resolve program).1 (s'.resolve program).1 log log' ∧
      (s'.resolve program).2 = (s.resolve program).2 := by
  have hreport := h.report (Resolution.ofProgram program).errors
  refine ⟨hreport, ?_⟩
  unfold Session.resolve
  dsimp only
  rw [hreport.hadError]

theorem Told.read (h : Told s s' log log') (i : Input) :
    Told (i.read s).1 (i.read s').1 log log' ∧ (i.read s').2 = (i.read s).2 := by
  have hfound : Told (i.found s) (i.found s') log log' := by
    unfold Input.found
    split
    · exact h.reset
    · exact h
  unfold Input.read
  dsimp only
  split
  · exact hfound.resolve _
  · have hreport := hfound.report ((Scan.ofText i.source).errors ++
      (Parse.program (Scan.ofText i.source).tokens).errors (Scan.ofText i.source).finish.line)
    rw [hreport.hadError]
    split
    · exact ⟨hreport, rfl⟩
    · exact hreport.resolve _

theorem Told.conclude (h : Told s s' log log') (f : Option Failure) :
    Told (s.conclude f) (s'.conclude f) log log' := by
  cases f with
  | none => exact h
  | some failure =>
    cases failure with
    | runtime e => exact h.record (·.addRuntime e.text) e.text
    | exhausted => exact h.record (·.addRuntime _) _
    | outOfTurns | fault f =>
      obtain ⟨t, hm, rfl, hlog, hlog'⟩ := h
      exact ⟨t, hm, rfl, hlog, hlog'⟩

theorem Told.run (h : Told s s' log log') (settings : Settings) (program : List BoundStmt) :
    let quiet := settings.traced false
    let loud := settings.traced true
    let observed := s.runObserved (Observed.executeProgram quiet program) log
    let tracedObserved := s'.runObserved (Observed.executeProgram loud program) log'
    observed.1 = s.run (Eval.executeProgram quiet program) ∧
      tracedObserved.1 = s'.run (Eval.executeProgram loud program) ∧
      Told observed.1 tracedObserved.1 observed.2 tracedObserved.2 := by
  obtain ⟨t, hm, rfl, rfl, rfl⟩ := h
  obtain ⟨r, u, hu⟩ := Observed.executeProgram_observes settings program t
  let rest (m : Machine) : Machine := { m with current := Machine.globals, callDepth := 0 }
  have hend : Told { s with machine := rest u.machine } { s with machine := rest u.traced }
      u.log u.tracedLog := ⟨u.move (rest u.machine) rfl, rfl, rfl, rfl, rfl⟩
  unfold runObserved Session.run
  dsimp only
  rw [hm, Observed.run_ending hu.observed, Observed.eval_run_ending hu.plain,
    Observed.run_ending hu.tracedObserved, Observed.eval_run_ending hu.tracedPlain]
  exact ⟨rfl, rfl, hend.conclude _⟩

theorem Told.input (h : Told s s' log log') (i : Input) :
    let observed := (i.traced false).observe (s, log)
    let tracedObserved := (i.traced true).observe (s', log')
    observed.1 = (i.traced false).run s ∧ tracedObserved.1 = (i.traced true).run s' ∧
      Told observed.1 tracedObserved.1 observed.2 tracedObserved.2 := by
  intro observed tracedObserved
  obtain ⟨hread, hprogram⟩ := h.read i
  unfold observed tracedObserved
  rw [Input.run_eq, Input.run_eq]
  unfold Input.observe Input.runBy
  have hreads (b : Bool) (s : Session) : (i.traced b).read s = i.read s := rfl
  dsimp only
  rw [hreads, hreads]
  generalize i.read s = p at hread hprogram ⊢
  generalize i.read s' = p' at hread hprogram ⊢
  obtain ⟨u, program⟩ := p
  obtain ⟨u', program'⟩ := p'
  subst hprogram
  cases program' with
  | none => exact ⟨rfl, rfl, hread⟩
  | some program => exact hread.run i.settings program

theorem Told.inputs (h : Told s s' log log') (inputs : List Input) :
    let quiet := inputs.map (Input.traced false)
    let loud := inputs.map (Input.traced true)
    let observed := quiet.foldl Input.observe (s, log)
    let tracedObserved := loud.foldl Input.observe (s', log')
    observed.1 = quiet.foldl Input.run s ∧ tracedObserved.1 = loud.foldl Input.run s' ∧
      Told observed.1 tracedObserved.1 observed.2 tracedObserved.2 := by
  induction inputs generalizing s s' log log' with
  | nil => exact ⟨rfl, rfl, h⟩
  | cons i inputs ih =>
    obtain ⟨hplain, htraced, htold⟩ := h.input i
    simp only [List.map_cons, List.foldl_cons]
    rw [← hplain, ← htraced]
    exact ih htold

end

/-- What a trace changes: it adds its lines to what is written. There is one for every statement
executed, in their order, and nothing is done between the beginning of a statement and its line. -/
structure ShowsOnly (plain traced : Session) (log log' : Log) : Prop where
  output : traced.machine.events.output = plain.machine.events.output
  diagnostics : traced.diagnostics = plain.diagnostics
  breakdown : traced.breakdown = plain.breakdown
  machine : traced.machine = { plain.machine with events := traced.machine.events }
  others : traced.machine.events.filter (!·.isTrace) = plain.machine.events
  lines : traced.machine.events.filter (·.isTrace) = log.arrivals.map Visit.line
  woven : Woven log.arrivals plain.machine.events log'.arrivals traced.machine.events
  announced : log'.announcements = log'.arrivals

theorem Told.showsOnly {s s' : Session} {log log' : Log} (h : Told s s' log log') :
    s.ShowsOnly s' log log' := by
  obtain ⟨t, hm, rfl, rfl, rfl⟩ := h
  have hwoven : Woven t.log.arrivals s.machine.events t.tracedLog.arrivals t.events :=
    hm ▸ t.woven
  exact {
    output := hwoven.output_eq
    diagnostics := rfl
    breakdown := rfl
    machine := by rw [hm]; rfl
    others := hwoven.others
    lines := hwoven.lines
    woven := hwoven
    announced := t.announced }

/-- Whatever is given to a session, tracing it shows which statements are executed and changes
nothing else; and observing it changes nothing at all. -/
theorem foldl_traced (clock : Float) (inputs : List Input) :
    let run (trace : Bool) := (inputs.map (Input.traced trace)).foldl Input.run (initial clock)
    let observe (trace : Bool) :=
      (inputs.map (Input.traced trace)).foldl Input.observe (initial clock, ⟨[], []⟩)
    (observe false).1 = run false ∧ (observe true).1 = run true ∧
      (run false).ShowsOnly (run true) (observe false).2 (observe true).2 := by
  intro run observe
  have hstart : Told (initial clock) (initial clock) ⟨[], []⟩ ⟨[], []⟩ :=
    ⟨⟨.initial clock, ⟨[], []⟩, [], ⟨[], []⟩, .start, rfl, rfl⟩, rfl, rfl, rfl, rfl⟩
  obtain ⟨hplain, htraced, htold⟩ := hstart.inputs inputs
  have hshows := htold.showsOnly
  rw [hplain, htraced] at hshows
  exact ⟨hplain, htraced, hshows⟩

example : ((initial 0).runProgram { trace := true } "if (true)\n  print \"so\";").machine.events =
    [.printed "so", .traced 2 "Print", .traced 1 "If"] := by decide +kernel

end Session
end Lox
