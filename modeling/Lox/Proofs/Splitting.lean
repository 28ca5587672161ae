import Lox.Proofs.Input
import Lox.Proofs.Invariance
import Lox.Proofs.Joining
import Lox.Proofs.Placement
import Lox.Proofs.Relocation

/-! Programs in parts. A text given to a session in two inputs, one after the other, does what it
does in one, except that what is wrong with the second part is found further down. -/

namespace Lox

/-- A text that nothing is wrong with before it runs. -/
structure Clean (text : String) : Prop where
  scan : (Scan.ofText text).errors = []
  parse : (Parse.program (Scan.ofText text).tokens).complaints = []
  resolution :
    (Resolution.ofProgram (Parse.program (Scan.ofText text).tokens).value).errors = []

/-- The program that a text is, with its names resolved. -/
def Text.program (text : String) : List BoundStmt :=
  (Resolution.ofProgram (Parse.program (Scan.ofText text).tokens).value).program

namespace Clean
variable {first second : String}

theorem join_program (hfirst : Clean first) (hsecond : Clean second) :
    Parse.program (Scan.ofText (first ++ "\n" ++ second)).tokens =
      ⟨(Parse.program (Scan.ofText first).tokens).value ++
        Stmt.renumberList (· + Text.height first)
          (Parse.program (Scan.ofText second).tokens).value, []⟩ := by
  rw [Scan.tokens_join (Scan.closed_of_errors hfirst.scan)]
  apply Parse.program_of_derives
  apply Grammar.Sequence.append
  · exact Parse.derives_of_complaints_eq_nil hfirst.parse
  · exact (Parse.derives_of_complaints_eq_nil hsecond.parse).renumber _

theorem problems {text : String} (h : Clean text) :
    Stmt.problemsList .topLevel (Parse.program (Scan.ofText text).tokens).value = [] := by
  have hresolution := h.resolution
  rwa [Resolution.ofProgram_eq] at hresolution

theorem join_resolution (hfirst : Clean first) (hsecond : Clean second) :
    Resolution.ofProgram (Parse.program (Scan.ofText (first ++ "\n" ++ second)).tokens).value =
      ⟨Text.program first ++
        Stmt.renumberList (· + Text.height first) (Text.program second), []⟩ := by
  rw [join_program hfirst hsecond]
  unfold Text.program
  rw [Resolution.ofProgram_eq, Resolution.ofProgram_eq, Resolution.ofProgram_eq,
    Stmt.boundList_append rfl, Stmt.problemsList_append rfl, Stmt.boundList_renumber,
    Stmt.problemsList_renumber, hfirst.problems, hsecond.problems]
  rfl

theorem join (hfirst : Clean first) (hsecond : Clean second) :
    Clean (first ++ "\n" ++ second) where
  scan := by rw [Scan.errors_join hfirst.scan, hsecond.scan, List.map_nil]
  parse := by rw [join_program hfirst hsecond]
  resolution := by rw [join_resolution hfirst hsecond]

end Clean

theorem Text.program_join {first second : String} (hfirst : Clean first) (hsecond : Clean second) :
    program (first ++ "\n" ++ second) =
      program first ++ Stmt.renumberList (· + height first) (program second) :=
  congrArg Resolution.program (Clean.join_resolution hfirst hsecond)

/-- A text with so many line feeds in front. -/
def Text.lowered (n : Nat) (text : String) : String :=
  String.ofList (List.replicate n '\n') ++ text

theorem Piece.visible_lineFeeds (p : Position) (n : Nat) :
    visible p (List.replicate n '\n') = [] := by
  induction n generalizing p with
  | zero => exact visible_nil p
  | succ n ih => rw [List.replicate_succ, visible_blank _ _ (by decide), ih]

theorem Scan.tokens_lineFeeds (n : Nat) :
    (ofText (String.ofList (List.replicate n '\n'))).tokens = [] := by
  rw [tokens_of_visible, String.toList_ofList, Piece.visible_lineFeeds]
  rfl

theorem Parse.program_nil : program [] = ⟨[], []⟩ := program_of_derives .nil

theorem Text.program_lineFeeds (n : Nat) :
    program (String.ofList (List.replicate n '\n')) = [] := by
  rw [program, Scan.tokens_lineFeeds, Parse.program_nil]
  rfl

namespace Clean

theorem lineFeeds (n : Nat) : Clean (String.ofList (List.replicate n '\n')) where
  scan := by
    rw [Scan.errors_of_visible, String.toList_ofList, Piece.visible_lineFeeds]
    rfl
  parse := by rw [Scan.tokens_lineFeeds, Parse.program_nil]
  resolution := by
    rw [Scan.tokens_lineFeeds, Parse.program_nil]
    rfl

theorem lowered {text : String} (h : Clean text) (n : Nat) : Clean (Text.lowered n text) ∧
    Text.program (Text.lowered n text) = Stmt.renumberList (· + n) (Text.program text) := by
  cases n with
  | zero =>
    have htext : Text.lowered 0 text = text := by simp [Text.lowered]
    rw [htext]
    exact ⟨h, (Stmt.renumberList_self _).symm⟩
  | succ n =>
    have htext : Text.lowered (n + 1) text =
        String.ofList (List.replicate n '\n') ++ "\n" ++ text := by
      apply String.toList_inj.1
      simp [Text.lowered, List.replicate_succ']
    have hheight : Text.height (String.ofList (List.replicate n '\n')) = n + 1 := by
      simp [Text.height]
    have hfeeds := lineFeeds n
    rw [htext, Text.program_join hfeeds h, hheight, Text.program_lineFeeds]
    exact ⟨hfeeds.join h, rfl⟩

end Clean

namespace Eval

theorem executeProgram_append (settings : Settings) (ss ts : List BoundStmt) :
    executeProgram settings (ss ++ ts) =
      executeProgram settings ss >>= fun _ => executeProgram settings ts := by
  induction ss with
  | nil => rfl
  | cons s ss ih => simp only [List.cons_append, executeProgram, ih, bind_assoc]

end Eval

namespace Machine
variable (settings : Settings) (m : Machine)

theorem run_renumber (φ : Nat → Nat) (program : List BoundStmt) :
    (m.renumber φ).run (Eval.executeProgram settings (Stmt.renumberList φ program)) =
      ((m.run (Eval.executeProgram settings program)).1.map (Failure.renumber φ),
        (m.run (Eval.executeProgram settings program)).2.renumber φ) := by
  have h := Eval.executeProgram_follows φ settings program m
  unfold run
  cases hm : Eval.executeProgram settings program m with
  | ok a m' =>
    rw [hm] at h
    rw [h.1]
    rfl
  | error f m' =>
    rw [hm] at h
    rw [h]
    rfl

/-- Between two inputs. -/
structure AtRest (m : Machine) : Prop where
  current : m.current = globals
  callDepth : m.callDepth = 0

theorem atRest_run (program : Eval Unit) : (m.run program).2.AtRest := by
  unfold run
  cases program m <;> exact ⟨rfl, rfl⟩

/-- Where the first part of a program ends, the rest runs as a program of its own. -/
theorem run_append {m m' : Machine} (hm : m.AtRest) {first : List BoundStmt}
    (hfirst : m.run (Eval.executeProgram settings first) = (none, m')) (second : List BoundStmt) :
    m.run (Eval.executeProgram settings (first ++ second)) =
      m'.run (Eval.executeProgram settings second) := by
  have h := Eval.executeProgram_follows (fun line => line) settings first m
  unfold run at hfirst ⊢
  cases hend : Eval.executeProgram settings first m with
  | error f m₁ =>
    rw [hend] at hfirst
    cases hfirst
  | ok a m₁ =>
    have hseq : Eval.executeProgram settings (first ++ second) m =
        Eval.executeProgram settings second m₁ := by
      rw [Eval.executeProgram_append]
      show EStateM.bind _ _ m = _
      unfold EStateM.bind
      rw [hend]
    rw [hend] at h hfirst
    rw [hseq]
    obtain ⟨-, hcurrent, hcalls⟩ := h
    have hm₁ : ({ m₁ with current := globals, callDepth := 0 } : Machine) = m₁ := by
      rw [← hm.current, ← hm.callDepth, ← hcurrent, ← hcalls]
    have hm' : _ = m' := congrArg Prod.snd hfirst
    rw [← hm'.symm.trans hm₁]

end Machine

/-- Even line numbers are halved, and `φ` numbers the halves of odd ones. -/
def unmark (φ : Nat → Nat) (line : Nat) : Nat :=
  if line % 2 = 0 then line / 2 else φ (line / 2)

theorem unmark_even (φ : Nat → Nat) : (unmark φ ∘ fun line => 2 * line) = fun line => line := by
  funext line
  simp [unmark]

theorem unmark_odd (φ : Nat → Nat) : (unmark φ ∘ fun line => 2 * line + 1) = φ := by
  funext line
  have hodd : (2 * line + 1) % 2 ≠ 0 := by omega
  have hhalf : (2 * line + 1) / 2 = line := by omega
  simp only [unmark, Function.comp_apply, if_neg hodd, hhalf]

/-- One run, with the lines of the program told from all other lines, stands for the runs of the
program on whatever lines. -/
theorem Machine.exists_run (settings : Settings) (m : Machine) (program : List BoundStmt) :
    ∃ (f : Option Failure) (m' : Machine), ∀ φ : Nat → Nat,
      m.run (Eval.executeProgram settings (Stmt.renumberList φ program)) =
        (f.map (Failure.renumber (unmark φ)), m'.renumber (unmark φ)) := by
  obtain ⟨f, m', hrun⟩ : ∃ f m', (m.renumber fun line => 2 * line).run (Eval.executeProgram settings
      (Stmt.renumberList (fun line => 2 * line + 1) program)) = (f, m') := ⟨_, _, rfl⟩
  refine ⟨f, m', fun φ => ?_⟩
  have h := run_renumber settings (m.renumber fun line => 2 * line) (unmark φ)
    (Stmt.renumberList (fun line => 2 * line + 1) program)
  rwa [Machine.renumber_renumber, Stmt.renumberList_renumberList, unmark_even, unmark_odd,
    Machine.renumber_self, hrun] at h

namespace Session
variable {s t : Session} (settings : Settings) {clock : Float}

/-- What a session can come to between two inputs. -/
inductive Reachable (clock : Float) : Session → Prop
  | initial : Reachable clock (initial clock)
  | input {s : Session} (h : Reachable clock s) (i : Input) : Reachable clock (i.run s)
  | reset {s : Session} (h : Reachable clock s) : Reachable clock s.reset
  | record {s : Session} (h : Reachable clock s) (e : Event) : Reachable clock (s.record e)
  | breakdown {s : Session} (h : Reachable clock s) : Reachable clock s.reportBreakdown
  | forget {s : Session} (h : Reachable clock s) : Reachable clock s.forget

theorem atRest_conclude (h : s.machine.AtRest) (f : Option Failure) :
    (s.conclude f).machine.AtRest := by
  fun_cases conclude s f <;> exact ⟨h.current, h.callDepth⟩

theorem atRest_run (s : Session) (program : Eval Unit) : (s.run program).machine.AtRest :=
  atRest_conclude (s.machine.atRest_run program) _

theorem Reachable.atRest (h : Reachable clock s) : s.machine.AtRest := by
  induction h with
  | initial => exact ⟨rfl, rfl⟩
  | @input s _ i ih =>
    rw [Input.run_eq]
    have hread := annotated_read s i
    unfold Input.runBy
    cases hr : i.read s with
    | mk s' program =>
      rw [hr] at hread
      cases program with
      | none =>
        obtain ⟨events, hmachine⟩ := hread.machine
        show s'.machine.AtRest
        rw [hmachine]
        exact ⟨ih.current, ih.callDepth⟩
      | some program => exact s'.atRest_run _
  | reset _ ih => exact ih
  | record _ _ ih => exact ⟨ih.current, ih.callDepth⟩
  | breakdown _ ih =>
    unfold reportBreakdown
    split
    · exact ⟨ih.current, ih.callDepth⟩
    · exact ih
  | forget _ ih => exact ⟨ih.current, ih.callDepth⟩

theorem runProgram_of_clean {text : String} (h : Clean text)
    (hs : s.diagnostics.hadError = false) :
    s.runProgram settings text = s.interpret settings (Text.program text) := by
  have herrors : (Parse.program (Scan.ofText text).tokens).errors
      (Scan.ofText text).finish.line = [] := by
    rw [Parse.errors, h.parse, List.map_nil]
  unfold runProgram resolveAndRun
  simp only [h.scan, herrors, h.resolution, List.append_nil]
  show (if s.diagnostics.hadError then s else
    if s.diagnostics.hadError then s else s.interpret settings (Text.program text)) = _
  simp only [hs, Bool.false_eq_true, if_false]

end Session

namespace Failure

/-- The error that a failure is reported as, if it is. -/
def reported? : Failure → Option RuntimeError
  | runtime e => some e
  | exhausted => some ⟨.tooDeeplyNested, none⟩
  | _ => none

/-- A failure that is not reported. -/
def unreported? : Failure → Option Failure
  | runtime _ | exhausted => none
  | f => some f

variable (φ : Nat → Nat) (f : Option Failure)

theorem reported?_renumber : (f.map (renumber φ)).bind reported? =
    (f.bind reported?).map (RuntimeError.renumber φ) := by
  rcases f with _ | _ | _ <;> rfl

theorem unreported?_renumber : (f.map (renumber φ)).bind unreported? = f.bind unreported? := by
  rcases f with _ | _ | _ <;> rfl

end Failure

namespace Session
variable (s : Session) (f : Option Failure)

theorem output_conclude : (s.conclude f).machine.events.output = s.machine.events.output := by
  have hreport (e : RuntimeError) :
      (s.reportRuntimeError e).machine.events.output = s.machine.events.output := by
    simp [reportRuntimeError, record, Transcript.output, Transcript.join, Event.output]
  fun_cases conclude s f <;> first | exact hreport _ | rfl

theorem globalValues_conclude :
    (s.conclude f).machine.globalValues = s.machine.globalValues := by
  fun_cases conclude s f <;> rfl

theorem hadError_conclude :
    (s.conclude f).diagnostics.hadError = s.diagnostics.hadError := by
  fun_cases conclude s f <;> rfl

theorem hadRuntimeError_conclude : (s.conclude f).diagnostics.hadRuntimeError =
    (s.diagnostics.hadRuntimeError || (f.bind Failure.reported?).isSome) := by
  cases f with
  | none => simp [conclude]
  | some f =>
    cases f <;> simp [conclude, reportRuntimeError, record, Diagnostics.addRuntime,
      Failure.reported?]

theorem log_conclude : (s.conclude f).diagnostics.log =
    ((f.bind Failure.reported?).map RuntimeError.text).toList ++ s.diagnostics.log := by
  cases f with
  | none => rfl
  | some f => cases f <;> rfl

theorem breakdown_conclude :
    (s.conclude f).breakdown = (f.bind Failure.unreported?).or s.breakdown := by
  rcases f with _ | _ | _ <;> rfl

/-- An input that ends without an error leaves no failure behind. -/
theorem eq_none_of_conclude (herror : (s.conclude f).diagnostics.hadRuntimeError = false)
    (hbreakdown : (s.conclude f).breakdown = none) : f = none := by
  cases f with
  | none => rfl
  | some f => cases f <;> first | cases herror | cases hbreakdown

end Session

/-- A program has no lines but those of its tokens. -/
theorem Text.program_renumber_of_tokens {text : String} (h : Clean text) {φ : Nat → Nat}
    (hφ : ∀ t ∈ (Scan.ofText text).tokens, φ t.line = t.line) :
    Stmt.renumberList φ (program text) = program text := by
  have hresolved :=
    Resolution.ofProgram_renumber φ (Parse.program (Scan.ofText text).tokens).value
  rw [Parse.value_renumber_of_tokens φ h.parse hφ] at hresolved
  exact (congrArg Resolution.program hresolved).symm

namespace RuntimeError

/-- The error so many lines further down. -/
def down (n : Nat) (e : RuntimeError) : RuntimeError :=
  { e with line := e.line.map (· + (n : Int)) }

/-- An error shows at a marked line or it does not. -/
theorem renumber_unmark (e : RuntimeError) :
    (∀ φ : Nat → Nat, e.renumber (unmark φ) = e.renumber (unmark fun line => line)) ∨
      ∃ line : Nat, ∀ φ : Nat → Nat, e.renumber (unmark φ) = ⟨e.cause, some (φ line)⟩ := by
  obtain ⟨cause, line⟩ := e
  cases line with
  | none => exact .inl fun φ => rfl
  | some line =>
    by_cases heven : line.toNat % 2 = 0
    · refine .inl fun φ => ?_
      simp [renumber, unmark, heven]
    · refine .inr ⟨line.toNat / 2, fun φ => ?_⟩
      simp only [renumber, unmark, if_neg heven, Option.map_some]

end RuntimeError

namespace Session

/-- What can be told of two sessions, the lines of their errors apart. -/
structure Alike (s t : Session) : Prop where
  output : s.machine.events.output = t.machine.events.output
  hadError : s.diagnostics.hadError = t.diagnostics.hadError
  hadRuntimeError : s.diagnostics.hadRuntimeError = t.diagnostics.hadRuntimeError
  breakdown : s.breakdown = t.breakdown
  globals : s.machine.globalTexts = t.machine.globalTexts

section
variable (s : Session) (settings : Settings) (text : String) (e : RuntimeError)

/-- The error that a text raises names a token of the text: it stands on the line of one, and it
moves down with the text. -/
structure NamesToken : Prop where
  token : ∃ t ∈ (Scan.ofText text).tokens, e.line = some (t.line : Int)
  moves : ∀ n, (s.runProgram settings (Text.lowered n text)).diagnostics.log =
    (e.down n).text :: s.diagnostics.log

/-- The error that a text raises names no token of the text: it stays where it is when the text
moves down. -/
def NamesElsewhere : Prop :=
  ∀ n, (s.runProgram settings (Text.lowered n text)).diagnostics.log =
    e.text :: s.diagnostics.log

end

variable (settings : Settings) {s : Session} {text : String}

/-- The line of an error that moves with the lines of a text is the line of one of its tokens. -/
theorem exists_token {m m' : Machine} {f : Option Failure} (h : Clean text)
    (hrun : ∀ φ : Nat → Nat,
      m.run (Eval.executeProgram settings (Stmt.renumberList φ (Text.program text))) =
        (f.map (Failure.renumber (unmark φ)), m'.renumber (unmark φ)))
    {e : RuntimeError} (hf : f.bind Failure.reported? = some e) {line : Nat}
    (hmoves : ∀ φ : Nat → Nat, e.renumber (unmark φ) = ⟨e.cause, some (φ line)⟩) :
    ∃ t ∈ (Scan.ofText text).tokens, t.line = line := by
  -- Numbers the lines anew that hold no token: the program stays as it is, so the error does.
  let φ (n : Nat) : Nat := if ∃ t ∈ (Scan.ofText text).tokens, t.line = n then n else n + 1
  have hprogram : Stmt.renumberList φ (Text.program text) =
      Stmt.renumberList (fun n => n) (Text.program text) := by
    rw [Stmt.renumberList_self]
    exact Text.program_renumber_of_tokens h fun t ht => if_pos ⟨t, ht, rfl⟩
  have hfailure : f.map (Failure.renumber (unmark φ)) =
      f.map (Failure.renumber (unmark fun n => n)) := by
    have hsame := hrun φ
    rw [hprogram, hrun] at hsame
    exact (congrArg Prod.fst hsame).symm
  have herror := congrArg (Option.bind · Failure.reported?) hfailure
  simp only [Failure.reported?_renumber, hf, Option.map_some, hmoves] at herror
  have hline : φ line = line := by
    injection herror with herror
    injection herror with _ herror
    injection herror with herror
    exact Int.ofNat_inj.1 herror
  by_cases htoken : ∃ t ∈ (Scan.ofText text).tokens, t.line = line
  · exact htoken
  · have hnext : φ line = line + 1 := if_neg htoken
    omega

/-- Further down, a text does the same. -/
theorem runProgram_lowered (hs : s.diagnostics.hadError = false) (h : Clean text) :
    (∀ n, (s.runProgram settings (Text.lowered n text)).Alike (s.runProgram settings text)) ∧
      ((∀ n, (s.runProgram settings (Text.lowered n text)).diagnostics.log =
          s.diagnostics.log) ∨
        ∃ e, s.NamesToken settings text e ∨ s.NamesElsewhere settings text e) := by
  obtain ⟨f, m, hrun⟩ := s.machine.exists_run settings (Text.program text)
  have hend (n : Nat) : s.runProgram settings (Text.lowered n text) =
      ({ s with machine := m.renumber (unmark (· + n)) } : Session).conclude
        (f.map (Failure.renumber (unmark (· + n)))) := by
    obtain ⟨hclean, hprogram⟩ := h.lowered n
    rw [runProgram_of_clean settings hclean hs, hprogram, interpret, run_def, hrun]
  have htext : Text.lowered 0 text = text := by simp [Text.lowered]
  have hlog (n : Nat) : (s.runProgram settings (Text.lowered n text)).diagnostics.log =
      (((f.bind Failure.reported?).map (RuntimeError.renumber (unmark (· + n)))).map
        RuntimeError.text).toList ++ s.diagnostics.log := by
    rw [hend, log_conclude, Failure.reported?_renumber]
  constructor
  · intro n
    have hzero := hend 0
    rw [htext] at hzero
    rw [hend, hzero]
    constructor
    · simp only [output_conclude, Machine.output_renumber]
    · simp only [hadError_conclude]
    · simp only [hadRuntimeError_conclude, Failure.reported?_renumber, Option.isSome_map]
    · simp only [breakdown_conclude, Failure.unreported?_renumber]
    · simp only [Machine.globalTexts, globalValues_conclude]
      exact (Machine.globalTexts_renumber _ m).trans (Machine.globalTexts_renumber _ m).symm
  · cases hf : f.bind Failure.reported? with
    | none =>
      refine .inl fun n => ?_
      rw [hlog, hf]
      rfl
    | some e =>
      simp only [hf, Option.map_some, Option.toList_some, List.singleton_append] at hlog
      rcases e.renumber_unmark with hstays | ⟨line, hmoves⟩
      · refine .inr ⟨e.renumber (unmark fun line => line), .inr fun n => ?_⟩
        rw [hlog, hstays]
      · refine .inr ⟨⟨e.cause, some line⟩, .inl ⟨?_, fun n => ?_⟩⟩
        · obtain ⟨t, ht, hline⟩ := exists_token settings h hrun hf hmoves
          exact ⟨t, ht, by rw [hline]⟩
        · rw [hlog, hmoves]
          rfl

/-- What stands behind a text that ends without an error runs after it, so many lines down. -/
theorem runProgram_behind {clock : Float} (hs : s.Reachable clock)
    (herror : s.diagnostics.hadError = false) {first second : String} (hfirst : Clean first)
    (hsecond : Clean second)
    (hruns : (s.runProgram settings first).diagnostics.hadRuntimeError = false)
    (hends : (s.runProgram settings first).breakdown = none) :
    (s.runProgram settings first).diagnostics = s.diagnostics ∧
      s.runProgram settings (first ++ "\n" ++ second) =
        (s.runProgram settings first).runProgram settings
          (Text.lowered (Text.height first) second) := by
  obtain ⟨f, m, hrun⟩ :
      ∃ f m, s.machine.run (Eval.executeProgram settings (Text.program first)) = (f, m) :=
    ⟨_, _, rfl⟩
  have hafter : s.runProgram settings first =
      ({ s with machine := m } : Session).conclude f := by
    rw [runProgram_of_clean settings hfirst herror, interpret, run_def, hrun]
  rw [hafter] at hruns hends ⊢
  obtain rfl := eq_none_of_conclude _ f hruns hends
  refine ⟨rfl, ?_⟩
  obtain ⟨hlowered, hprogram⟩ := hsecond.lowered (Text.height first)
  have hjoined := runProgram_of_clean settings (hfirst.join hsecond) herror
  have hbehind := runProgram_of_clean (s := { s with machine := m }) settings hlowered herror
  rw [hjoined, Text.program_join hfirst hsecond, interpret, run_def,
    Machine.run_append settings hs.atRest hrun]
  rw [hprogram] at hbehind
  exact hbehind.symm

/-- Given in two inputs, a text does what it does in one: it writes the same, and leaves the same
flags and globals. An error has the same message, but one that names a token of the second input
shows so many lines further down as the first input is long. -/
structure SameInParts (s : Session) (settings : Settings) (first second : String) : Prop where
  alike : (s.runProgram settings (first ++ "\n" ++ second)).Alike
    ((s.runProgram settings first).runProgram settings second)
  messages :
    let joined := (s.runProgram settings (first ++ "\n" ++ second)).diagnostics.log
    let split := ((s.runProgram settings first).runProgram settings second).diagnostics.log
    (joined = s.diagnostics.log ∧ split = s.diagnostics.log) ∨
      ∃ e : RuntimeError, split = e.text :: s.diagnostics.log ∧
        (((s.runProgram settings first).NamesToken settings second e ∧
            joined = (e.down (Text.height first)).text :: s.diagnostics.log) ∨
          ((s.runProgram settings first).NamesElsewhere settings second e ∧
            joined = e.text :: s.diagnostics.log))

/-- A text may be given in two inputs, if the first of them ends without an error. -/
theorem runProgram_join {clock : Float} (hs : s.Reachable clock)
    (herror : s.diagnostics.hadError = false) {first second : String} (hfirst : Clean first)
    (hsecond : Clean second)
    (hruns : (s.runProgram settings first).diagnostics.hadRuntimeError = false)
    (hends : (s.runProgram settings first).breakdown = none) :
    s.SameInParts settings first second := by
  obtain ⟨hafter, hjoined⟩ := runProgram_behind settings hs herror hfirst hsecond hruns hends
  obtain ⟨halike, hlogs⟩ := runProgram_lowered settings (hafter ▸ herror) hsecond
  constructor
  · rw [hjoined]
    exact halike _
  · intro joined split
    have hjoined : joined = _ := congrArg (·.diagnostics.log) hjoined
    have hsplit : split = ((s.runProgram settings first).runProgram settings
        (Text.lowered 0 second)).diagnostics.log := by
      simp [split, Text.lowered]
    rw [← hafter, hjoined, hsplit]
    rcases hlogs with hquiet | ⟨e, htoken | helsewhere⟩
    · exact .inl ⟨hquiet _, hquiet 0⟩
    · have hzero : e.down 0 = e := by
        obtain ⟨cause, line⟩ := e
        simp [RuntimeError.down]
      refine .inr ⟨e, ?_, .inl ⟨htoken, htoken.moves _⟩⟩
      rw [htoken.moves 0, hzero]
    · exact .inr ⟨e, helsewhere 0, .inr ⟨helsewhere, helsewhere _⟩⟩

def greeting : String :=
  "fun greet(name) \x7b print \"hello \" + name; \x7d\nvar guest = \"you\";"

/-- Greets, and fails on its second line. -/
def visit : String := "greet(guest);\nhost;"

theorem visit_join :
    Clean greeting ∧ Clean visit ∧
      ((initial 0).runProgram {} greeting).diagnostics.hadRuntimeError = false ∧
      ((initial 0).runProgram {} greeting).breakdown = none ∧
      (initial 0).SameInParts {} greeting visit := by
  have hgreeting : Clean greeting := ⟨by decide +kernel, by decide +kernel, by decide +kernel⟩
  have hvisit : Clean visit := ⟨by decide +kernel, by decide +kernel, by decide +kernel⟩
  have hruns : ((initial 0).runProgram {} greeting).diagnostics.hadRuntimeError = false := by
    decide +kernel
  have hends : ((initial 0).runProgram {} greeting).breakdown = none :=
    Option.isNone_iff_eq_none.1 (by decide +kernel)
  exact ⟨hgreeting, hvisit, hruns, hends,
    runProgram_join {} .initial rfl hgreeting hvisit hruns hends⟩

end Session
end Lox
