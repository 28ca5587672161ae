import Lox.Proofs.Input

/-! Inputs that are refused. A text that is no program may still be taken for an expression, and
what was wrong with it is then forgotten. That happens exactly where every problem of the
expression is one that a rule complains about without giving up. -/

namespace Lox

/-- Mild problems are noted on the way; only another one ends a rule. -/
def Conduct.mild : Conduct where
  goes s t := ∃ cs : List Complaint, (∀ c ∈ cs, c.problem.isMild = true) ∧
    t.complaints = cs ++ s.complaints
  fails _ t := ∃ c ∈ t.complaints, c.problem.isMild = false
  refl s := ⟨[], by simp, rfl⟩
  trans := by
    rintro s t u ⟨cs, hcs, ht⟩ ⟨ds, hds, hu⟩
    refine ⟨ds ++ cs, fun c hc => (List.mem_append.1 hc).elim (hds c) (hcs c), ?_⟩
    rw [hu, ht, List.append_assoc]
  fails_of_goes _ h := h
  takes t ts cs := ⟨[], by simp, rfl⟩
  protests s c h := by
    refine ⟨[c], fun d hd => ?_, rfl⟩
    rw [List.mem_singleton.1 hd]
    exact h
  stops s what := ⟨_, List.mem_cons_self, rfl⟩

namespace Parse
variable {tokens : List Token}

/-- An expression comes back if and only if no problem was worse than mild. -/
theorem isSome_expression_value :
    (Parse.expression tokens).value.isSome ↔
      ∀ c ∈ (Parse.expression tokens).complaints, c.problem.isMild = true := by
  have h := Parser.conforms_soleExpression (c := .mild) (T := fun _ => True) tokens.length
    ⟨tokens, []⟩ fun _ _ => trivial
  unfold Parse.expression EStateM.run
  cases he : Parser.soleExpression tokens.length ⟨tokens, []⟩ with
  | ok e s =>
    rw [he] at h
    obtain ⟨⟨cs, hcs, hs⟩, -⟩ := h
    have hs : s.complaints = cs := hs.trans (List.append_nil cs)
    refine ⟨fun _ c hc => hcs c ?_, fun _ => rfl⟩
    rw [← hs]
    exact List.mem_reverse.1 hc
  | error e s =>
    rw [he] at h
    obtain ⟨⟨c, hc, hm⟩, -⟩ := h
    refine ⟨fun h => (nomatch h), fun hall => ?_⟩
    have hmild := hall c (List.mem_reverse.2 hc)
    rw [hm] at hmild
    cases hmild

end Parse

namespace Session
variable {s : Session} {settings : Settings} {source : String}

/-- Nothing has run, and a message says why. -/
structure Refuses (s s' : Session) : Prop where
  output : s'.machine.events.output = s.machine.events.output
  globals : s'.machine.environments = s.machine.environments
  message : s.diagnostics.log.length < s'.diagnostics.log.length
  hadError : s'.diagnostics.hadError = true

theorem output_report (s : Session) (errors : List StaticError) :
    (s.report errors).machine.events.output = s.machine.events.output := by
  induction errors generalizing s with
  | nil => rfl
  | cons e errors ih =>
    refine (ih (s.reportError e)).trans ?_
    simp [reportError, record, Transcript.output, Transcript.join, Event.output]

theorem length_log_report (s : Session) (errors : List StaticError) :
    (s.report errors).diagnostics.log.length = s.diagnostics.log.length + errors.length := by
  induction errors generalizing s with
  | nil => rfl
  | cons e errors ih =>
    have h : (s.report (e :: errors)).diagnostics.log.length =
        (s.diagnostics.log.length + 1) + errors.length := ih (s.reportError e)
    rw [h, List.length_cons]
    omega

theorem refuses_report (s : Session) {errors : List StaticError} (h : errors ≠ []) :
    s.Refuses (s.report errors) where
  output := s.output_report errors
  globals := by
    obtain ⟨events, hm⟩ := s.machine_report errors
    rw [hm]
  message := by
    have hpos := List.length_pos_iff.2 h
    rw [length_log_report]
    omega
  hadError := by
    rw [hadError_report]
    cases errors with
    | nil => exact absurd rfl h
    | cons e errors => simp

/-- A run that is not stopped before it begins adds no static error. -/
theorem hadError_run (s : Session) (program : Eval Unit) :
    (s.run program).diagnostics.hadError = s.diagnostics.hadError := by
  unfold run
  cases s.machine.run program with
  | mk failure machine =>
    cases failure with
    | none => rfl
    | some f => cases f <;> rfl

theorem resolveAndRun_refuses {program : List RawStmt}
    (h : (Resolution.ofProgram program).errors ≠ []) :
    s.Refuses (s.resolveAndRun settings program) := by
  have hr := s.refuses_report h
  unfold resolveAndRun
  rw [if_pos hr.hadError]
  exact hr

theorem hadError_resolveAndRun {program : List RawStmt}
    (h : (Resolution.ofProgram program).errors = []) :
    (s.resolveAndRun settings program).diagnostics.hadError = s.diagnostics.hadError := by
  unfold resolveAndRun
  simp only [h]
  show (if s.diagnostics.hadError = true then s else _).diagnostics.hadError = _
  split
  · rfl
  · exact hadError_run s _

theorem bareExpression?_eq (hp : (Parse.program (Scan.ofText source).tokens).complaints ≠ [])
    (hs : (Scan.ofText source).errors = []) :
    bareExpression? (Scan.ofText source) =
      (Parse.expression (Scan.ofText source).tokens).value := by
  unfold bareExpression?
  rw [hs, if_pos]
  simp [hp]

/-- A text that is not taken for an expression is refused with what is wrong with it. -/
theorem runInput_refuses (hp : (Parse.program (Scan.ofText source).tokens).complaints ≠ [])
    (hb : bareExpression? (Scan.ofText source) = none) :
    s.Refuses (s.runInput settings source) := by
  have hne : (Scan.ofText source).errors ++ (Parse.program (Scan.ofText source).tokens).errors
      (Scan.ofText source).finish.line ≠ [] := by
    intro h
    exact hp (List.map_eq_nil_iff.1 (List.append_eq_nil_iff.1 h).2)
  have hr := s.refuses_report hne
  unfold runInput runProgram
  rw [hb]
  dsimp only
  rw [if_pos hr.hadError]
  exact hr

theorem runInput_of_bare {e : RawExpr} (hb : bareExpression? (Scan.ofText source) = some e) :
    s.runInput settings source = s.resolveAndRun settings [.print e.line e] := by
  unfold runInput
  rw [hb]

/-- Of the texts that are neither a program nor an expression, the session refuses those whose
tokens are wrong, those with a problem that the expression could not be read past, and those that
resolution rejects; any other is run as if nothing were wrong with it. -/
theorem refuses_runInput_iff (hclean : s.diagnostics.hadError = false)
    (hp : (Parse.program (Scan.ofText source).tokens).complaints ≠ []) :
    s.Refuses (s.runInput settings source) ↔
      (Scan.ofText source).errors ≠ [] ∨
      (∃ c ∈ (Parse.expression (Scan.ofText source).tokens).complaints,
        c.problem.isMild = false) ∨
      ∃ e, (Parse.expression (Scan.ofText source).tokens).value = some e ∧
        (Resolution.ofProgram [.print e.line e]).errors ≠ [] := by
  by_cases hs : (Scan.ofText source).errors = []
  · have hbare := bareExpression?_eq hp hs
    cases hv : (Parse.expression (Scan.ofText source).tokens).value with
    | none =>
      have hnone := mt Parse.isSome_expression_value.2 (by rw [hv]; simp)
      refine ⟨fun _ => .inr (.inl ?_), fun _ => runInput_refuses hp (hbare.trans hv)⟩
      simpa using hnone
    | some e =>
      have hmild := Parse.isSome_expression_value.1 (by rw [hv]; rfl)
      rw [runInput_of_bare (hbare.trans hv)]
      constructor
      · intro hr
        refine .inr (.inr ⟨e, rfl, fun hnil => ?_⟩)
        have hfalse := hr.hadError
        rw [hadError_resolveAndRun hnil, hclean] at hfalse
        cases hfalse
      · rintro (h | ⟨c, hc, hm⟩ | ⟨e', he, hr⟩)
        · exact absurd hs h
        · rw [hmild c hc] at hm
          cases hm
        · cases he
          exact resolveAndRun_refuses hr
  · refine ⟨fun _ => .inl hs, fun _ => runInput_refuses hp ?_⟩
    unfold bareExpression?
    rw [if_neg]
    simp [hs]

theorem unfinishedCall_refused :
    (initial 0).diagnostics.hadError = false ∧
      (Parse.program (Scan.ofText "f(1 = 2").tokens).complaints ≠ [] ∧
      (initial 0).Refuses ((initial 0).runInput {} "f(1 = 2") := by
  have hprogram : (Parse.program (Scan.ofText "f(1 = 2").tokens).complaints ≠ [] := by
    decide +kernel
  have hworse : ∃ c ∈ (Parse.expression (Scan.ofText "f(1 = 2").tokens).complaints,
      c.problem.isMild = false := by decide +kernel
  exact ⟨rfl, hprogram, (refuses_runInput_iff rfl hprogram).2 (.inr (.inl hworse))⟩

/-- The number in front of the equals sign is printed, and the assignment to it passes. -/
theorem assignmentToNumber_not_refused :
    ¬ ∀ (s : Session) (settings : Settings) (source : String), s.diagnostics.hadError = false →
      (Parse.program (Scan.ofText source).tokens).complaints ≠ [] →
      (Parse.expression (Scan.ofText source).tokens).complaints ≠ [] →
      s.Refuses (s.runInput settings source) := by
  intro h
  have hprogram : (Parse.program (Scan.ofText "1 = 2").tokens).complaints ≠ [] := by
    decide +kernel
  have hexpression : (Parse.expression (Scan.ofText "1 = 2").tokens).complaints ≠ [] := by
    decide +kernel
  have hsome : (bareExpression? (Scan.ofText "1 = 2")).isSome := by decide +kernel
  have haccepted : (((bareExpression? (Scan.ofText "1 = 2")).map fun e =>
      (Resolution.ofProgram [.print e.line e]).errors).getD []) = [] := by decide +kernel
  obtain ⟨e, he⟩ := Option.isSome_iff_exists.1 hsome
  rw [he] at haccepted
  have hr := (h (.initial 0) {} "1 = 2" rfl hprogram hexpression).hadError
  rw [runInput_of_bare he, hadError_resolveAndRun haccepted] at hr
  cases hr

end Session
end Lox
