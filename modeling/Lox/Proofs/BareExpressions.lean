import Lox.Proofs.Indentation
import Lox.Proofs.Refusal

/-! Bare expressions. A text that is an expression and no program is run as the program that prints
it: as if the word `print` stood in front of it and, on a line of its own behind it, a semicolon. -/

namespace Lox

namespace Scan
variable {source : String}

theorem visible_print (source : String) :
    Piece.visible .start ("print " ++ source).toList =
      ⟨.token (.keyword .print), "print".toList, .start⟩ ::
        (Piece.visible .start source.toList).map (Piece.indent 6) := by
  have htext : ("print " ++ source).toList = 'p' :: ("rint".toList ++ ' ' :: source.toList) := by
    rw [String.toList_append]
    rfl
  have hmunch : Token.munch 'p' ("rint".toList ++ ' ' :: source.toList) =
      ⟨.token (.keyword .print), "print".toList, ' ' :: source.toList⟩ := rfl
  rw [htext, Piece.visible_munched _ _ (by decide), hmunch, Piece.visible_blank _ _ (by decide),
    ← Piece.visible_indent 6 (Nat.le_refl 1)]
  rfl

theorem tokens_print (source : String) :
    (ofText ("print " ++ source)).tokens =
      ⟨.keyword .print, "print", .start⟩ :: (ofText source).tokens.map (Token.indent 6) := by
  rw [tokens_of_visible, visible_print, List.filterMap_cons, tokens_of_visible,
    Piece.filterMap_moved (Piece.token?_indent 6)]
  rfl

theorem errors_print (source : String) :
    (ofText ("print " ++ source)).errors = (ofText source).errors := by
  rw [errors_of_visible, visible_print, List.filterMap_cons, errors_of_visible,
    Piece.filterMap_moved (Piece.error?_indent 6), List.map_id']
  rfl

/-- A text without errors still has none as the operand of `print`, and its tokens lie between the
two that are added. -/
theorem ofText_printed (h : (ofText source).errors = []) :
    (ofText ("print " ++ source ++ "\n;")).errors = [] ∧
      ∃ keyword semicolon : Token, keyword.kind = .keyword .print ∧
        semicolon.kind = .semicolon ∧
        (ofText ("print " ++ source ++ "\n;")).tokens =
          keyword :: ((ofText source).tokens.map (Token.indent 6) ++ [semicolon]) := by
  have hend : "\n;" = "\n" ++ ";" := by decide
  have hprint := (errors_print source).trans h
  have hsemicolon : (ofText ";").tokens = [⟨.semicolon, ";", .start⟩] := by decide +kernel
  have hnone : (ofText ";").errors = [] := by decide +kernel
  rw [hend, ← String.append_assoc, errors_join hprint, tokens_join (closed_of_errors hprint),
    tokens_print, hsemicolon, hnone]
  exact ⟨rfl, _, _, rfl, rfl, rfl⟩

end Scan

namespace Parser
open Grammar

theorem parses_soleExpression {n : Nat} {i : List Token} (h : i.length ≤ n) :
    Parses (soleExpression n) i fun ts e => Expression ts e ∧ ∀ o, i = ts ++ o → o = [] := by
  refine (parses_expression n h).bind fun ts e o _ => .next ?_
  cases o with
  | nil =>
    refine .pure fun hi he => ⟨?_, fun o ho => ?_⟩
    · rwa [List.append_nil]
    · simpa [hi] using ho
  | cons t o => exact fun cs => ⟨Nat.le_refl _, Nat.lt_succ_self cs.length⟩

end Parser

namespace Parse
variable {tokens : List Token}

/-- The tokens that are read as an expression, with nothing to complain about, derive it. -/
theorem derives_of_expression (h : (expression tokens).complaints = []) :
    ∃ e, (expression tokens).value = some e ∧ Grammar.Expression tokens e := by
  have hparses := Parser.parses_soleExpression (Nat.le_refl tokens.length) []
  unfold expression EStateM.run at h ⊢
  cases he : Parser.soleExpression tokens.length ⟨tokens, []⟩ with
  | ok e s =>
    rw [he] at hparses h
    have hquiet : s.complaints = [] := List.reverse_eq_nil_iff.1 h
    obtain ⟨ts, hts, hderives, hrest⟩ := hparses.2.2 (by rw [hquiet])
    rw [hrest s.tokens hts, List.append_nil] at hts
    exact ⟨e, rfl, hts ▸ hderives⟩
  | error e s =>
    rw [he] at hparses h
    -- A parser that gives up has complained.
    have hnoise := hparses.2
    rw [List.reverse_eq_nil_iff.1 h] at hnoise
    exact absurd hnoise (Nat.lt_irrefl 0)

end Parse

namespace Grammar

/-- An expression between `print` and a semicolon is a program. -/
theorem Program.print {keyword semicolon : Token} {ts : List Token} {e : RawExpr}
    (spelled : keyword.kind = .keyword .print) (value : Expression ts e)
    (ends : semicolon.kind = .semicolon) :
    Program (keyword :: (ts ++ [semicolon])) [.print keyword.line e] := by
  have hprint : Declaration (keyword :: (ts ++ [semicolon])) (.print keyword.line e) :=
    .statement (.print spelled value ends)
  refine ⟨[(_, _)], fun d hd => ?_, List.append_nil _, rfl⟩
  cases List.mem_singleton.1 hd
  exact hprint

end Grammar

theorem Eval.execute_print {settings : Settings} (h : settings.trace = false)
    (line line' n nesting : Nat) (e : BoundExpr) :
    execute settings nesting (.print line (e.indent n)) =
      execute settings nesting (.print line' e) := by
  cases nesting with
  | zero => rfl
  | succ nesting =>
    simp only [execute, h, executeForm, evaluate_indent, Bool.false_eq_true, if_false]

namespace Session
variable {s : Session} {settings : Settings} {source : String}

/-- Without a trace, it does not matter where an expression to be printed stands. -/
theorem resolveAndRun_print (htrace : settings.trace = false) (line line' n : Nat) (e : RawExpr) :
    s.resolveAndRun settings [.print line (e.indent n)] =
      s.resolveAndRun settings [.print line' e] := by
  have hproblems : Stmt.problemsList .topLevel [.print line (e.indent n)] =
      Stmt.problemsList .topLevel [.print line' e] := by
    simp only [Stmt.problemsList, Stmt.problems, Expr.problems_indent]
  have hbound : Stmt.boundList .topLevel [.print line (e.indent n)] =
      [.print line ((e.bound .topLevel).indent n)] := by
    rw [← Expr.bound_indent]
    rfl
  have hrun : Eval.executeProgram settings (Stmt.boundList .topLevel [.print line (e.indent n)]) =
      Eval.executeProgram settings (Stmt.boundList .topLevel [.print line' e]) := by
    rw [hbound, Eval.executeProgram, Eval.execute_print htrace line line']
    rfl
  unfold resolveAndRun interpret
  simp only [Resolution.ofProgram_eq, hproblems, hrun]

/-- A bare expression does what it does behind the word `print` and in front of a semicolon. -/
theorem runInput_bare (hclean : s.diagnostics.hadError = false) (htrace : settings.trace = false)
    (hscan : (Scan.ofText source).errors = [])
    (hprogram : (Parse.program (Scan.ofText source).tokens).complaints ≠ [])
    (hexpression : (Parse.expression (Scan.ofText source).tokens).complaints = []) :
    s.runInput settings source = s.runProgram settings ("print " ++ source ++ "\n;") := by
  obtain ⟨e, hvalue, hderives⟩ := Parse.derives_of_expression hexpression
  obtain ⟨herrors, keyword, semicolon, hprint, hsemicolon, htokens⟩ := Scan.ofText_printed hscan
  have hparse : Parse.program (Scan.ofText ("print " ++ source ++ "\n;")).tokens =
      ⟨[.print keyword.line (e.indent 6)], []⟩ := by
    rw [htokens]
    exact Parse.program_of_derives (.print hprint (hderives.indent 6) hsemicolon)
  have hbare : s.runInput settings source = s.resolveAndRun settings [.print e.line e] :=
    runInput_of_bare ((bareExpression?_eq hprogram hscan).trans hvalue)
  have hprinted : s.runProgram settings ("print " ++ source ++ "\n;") =
      s.resolveAndRun settings [.print keyword.line (e.indent 6)] := by
    unfold runProgram
    simp only [herrors, hparse, Parse.errors, List.map_nil, List.append_nil]
    show (if s.diagnostics.hadError then s else _) = _
    rw [if_neg (by simp [hclean])]
    rfl
  rw [hbare, hprinted, resolveAndRun_print htrace]

/-- A sum on two lines, with a comment on each. -/
def plural : String := "word + // the end:\n  \"s\" // no more"

theorem plural_bare :
    let s := (initial 0).runProgram {} "var word = \"line\";"
    (s.diagnostics.hadError = false ∧ (Scan.ofText plural).errors = [] ∧
      (Parse.program (Scan.ofText plural).tokens).complaints ≠ [] ∧
      (Parse.expression (Scan.ofText plural).tokens).complaints = []) ∧
    s.runInput {} plural = s.runProgram {} ("print " ++ plural ++ "\n;") ∧
      (s.runInput {} plural).machine.events.output = "lines\n" := by
  intro s
  have hclean : s.diagnostics.hadError = false := by decide +kernel
  have hscan : (Scan.ofText plural).errors = [] := by decide +kernel
  have hprogram : (Parse.program (Scan.ofText plural).tokens).complaints ≠ [] := by
    decide +kernel
  have hexpression : (Parse.expression (Scan.ofText plural).tokens).complaints = [] := by
    decide +kernel
  exact ⟨⟨hclean, hscan, hprogram, hexpression⟩,
    runInput_bare hclean rfl hscan hprogram hexpression, by decide +kernel⟩

end Session
end Lox
