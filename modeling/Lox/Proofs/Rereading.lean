import Lox.Proofs.BareExpressions
import Lox.Proofs.Formatting
import Lox.Proofs.Lockstep
import Lox.Proofs.Relexing
import Lox.Proofs.Resolution

/-! Printed numbers read again. What is printed for a number without an exponent is an expression,
and no program; its value is the number, so that the session prints it once more. -/

namespace Lox

/-! ### Expressions are no programs -/

namespace Grammar
variable {r : Nat} {t : Token} {ts us : List Token} {e : RawExpr}

theorem Separated.forall {P : Token → Prop} {items : List (List Token)} (h : Separated items ts)
    (hitems : ∀ item ∈ items, ∀ t ∈ item, P t) (hcomma : ∀ t : Token, t.kind = .comma → P t) :
    ∀ t ∈ ts, P t := by
  induction h with
  | none => simp
  | one => exact hitems _ List.mem_cons_self
  | more comma_ _ ih =>
    obtain ⟨hitem, hitems⟩ := List.forall_mem_cons.1 hitems
    exact List.forall_mem_append.2
      ⟨hitem, List.forall_mem_cons.2 ⟨hcomma _ comma_, ih hitems⟩⟩

theorem Derives.ne_semicolon (h : Derives r ts e) : ∀ t ∈ ts, t.kind ≠ .semicolon := by
  induction h with
  | literal kind => simp [kind]
  | this spelled => simp [spelled]
  | read named => simp [named]
  | super spelled dotted named => simp [spelled, dotted, named]
  | grouping opens _ closes ih =>
    simp only [List.forall_mem_cons, List.forall_mem_append]
    exact ⟨by simp [opens], ih, by simp [closes]⟩
  | call called opens inside few listed closes ih ihs =>
    have harguments := listed.forall (P := fun t => t.kind ≠ .semicolon) ?_ (by simp +contextual)
    · simp only [List.forall_mem_cons, List.forall_mem_append]
      exact ⟨ih, by simp [opens], harguments, by simp [closes]⟩
    · intro item hitem
      obtain ⟨a, ha, rfl⟩ := List.mem_map.1 hitem
      exact ihs a ha
  | get _ dotted named ih =>
    simp only [List.forall_mem_cons, List.forall_mem_append]
    exact ⟨ih, by simp [dotted], by simp [named]⟩
  | unary sign _ ih =>
    refine List.forall_mem_cons.2 ⟨?_, ih⟩
    rcases sign with h | h <;> simp [h]
  | binary _ _ _ joins _ ih ih' | logical _ _ _ joins _ ih ih' =>
    refine List.forall_mem_append.2 ⟨ih, List.forall_mem_cons.2 ⟨fun h => ?_, ih'⟩⟩
    rw [h] at joins
    simp only [Kind.rank] at joins
    omega
  | assign named sign _ ih =>
    simp only [List.forall_mem_cons]
    exact ⟨by simp [named], by simp [sign], ih⟩
  | set _ dotted named sign _ ih ih' =>
    simp only [List.forall_mem_cons, List.forall_mem_append]
    exact ⟨ih, by simp [dotted], by simp [named], by simp [sign], ih'⟩
  | looser _ ih => exact ih

/-- A declaration that begins like an expression ends with a semicolon. -/
theorem Declaration.semicolon {s : RawStmt} (h : Declaration (t :: ts) s)
    (ht : t.kind.startsExpression = true) : ∃ u ∈ t :: ts, u.kind = .semicolon := by
  generalize hus : t :: ts = us at h
  cases h with
  | class_ spelled | function spelled =>
    cases hus
    rw [spelled] at ht
    cases ht
  | variable_ declared =>
    cases declared with
    | mk spelled =>
      cases hus
      rw [spelled] at ht
      cases ht
  | statement plain =>
    cases plain with
    | evaluation evaluated =>
      cases evaluated with
      | @mk _ semicolon _ _ _ ends => exact ⟨semicolon, by simp, ends⟩
    | block opens =>
      cases hus
      rw [opens] at ht
      cases ht
    | print spelled | return_ spelled | ifThen spelled | ifElse spelled | while_ spelled
    | for_ spelled =>
      cases hus
      rw [spelled] at ht
      cases ht

/-- No expression is a program. -/
theorem Derives.not_program (h : Expression ts e) (ss : List RawStmt) : ¬Program ts ss := by
  rintro ⟨items, hitems, hts, -⟩
  obtain ⟨t, us, rfl, hstart, -⟩ := h.head
  cases items with
  | nil => cases hts
  | cons item items =>
    have hitem := hitems item List.mem_cons_self
    obtain ⟨t', vs, hvs, -⟩ := hitem.head
    rw [List.flatMap_cons, hvs, List.cons_append] at hts
    cases hts
    rw [hvs] at hitem
    obtain ⟨u, hu, hsemicolon⟩ := hitem.semicolon hstart
    refine h.ne_semicolon u ?_ hsemicolon
    rw [← List.cons_append]
    exact List.mem_append_left _ hu

end Grammar

namespace Parse
variable {tokens : List Token} {e : RawExpr}

theorem expression_of_derives (h : Grammar.Expression tokens e) :
    expression tokens = ⟨some e, []⟩ := by
  have hreads := Parser.expression_covers tokens.length e tokens [] h (Nat.le_refl _)
    (by simp [Ends])
  rw [List.append_nil] at hreads
  have hsole : Parser.Reads (Parser.soleExpression tokens.length) tokens e [] :=
    .bind hreads (.bind (.next _) (.pure _ _))
  unfold expression EStateM.run
  rw [hsole []]
  rfl

theorem complaints_of_expression (h : Grammar.Expression tokens e) :
    (program tokens).complaints ≠ [] :=
  fun hquiet => h.not_program _ (derives_of_complaints_eq_nil hquiet)

end Parse

/-- An expression typed in is printed. -/
theorem Session.runInput_of_expression {source : String} {e : RawExpr}
    (hscan : (Scan.ofText source).errors = [])
    (h : Grammar.Expression (Scan.ofText source).tokens e) (s : Session) (settings : Settings) :
    s.runInput settings source = s.resolveAndRun settings [.print e.line e] := by
  apply runInput_of_bare
  rw [bareExpression?_eq (Parse.complaints_of_expression h) hscan, Parse.expression_of_derives h]

/-! ### Numbers -/

namespace Number
variable {x : Float}

/-- What is read as a number is read as the double closest to it. -/
theorem written_of_fixed {s : List Char} {q : ℚ} (h : Numeral.Fixed s q) :
    (Kind.literal (.number (ofMagnitude false (Magnitude.closest q)))).Written s := by
  cases h with
  | whole some_ digits =>
    rw [← Decimal.magnitude_eq_closest]
    exact .whole some_ digits
  | fraction some_ digits someBehind digitsBehind =>
    rw [← Decimal.magnitude_eq_closest]
    exact .fraction some_ digits someBehind digitsBehind

theorem le_infinite_of_printed (hx : (x == 0) = true ∨ Plain x) :
    magnitude x ≤ Magnitude.infinite := by
  rcases hx with hx | hx
  · rw [beq_zero_iff.1 hx]
    exact Nat.zero_le _
  · exact hx.bounds.1.le

/-- The printed digits are read as the number without its sign. -/
theorem printed_written (hx : (x == 0) = true ∨ Plain x) :
    (Kind.literal (.number (ofMagnitude false (magnitude x)))).Written
      (Notation.printed.magnitude (magnitude x)).toList := by
  have hwritten := written_of_fixed (printed_fixed hx)
  rwa [← Decimal.magnitude_eq_closest,
    Magnitude.shortest_magnitude (le_infinite_of_printed hx)] at hwritten

end Number

theorem Scan.ofText_signed {text : String} {digits : List Char} {value : Literal} {negative : Bool}
    (htext : text.toList = (if negative then ['-'] else []) ++ digits)
    (hdigits : (Kind.literal value).Written digits) :
    (ofText text).errors = [] ∧ ∃ minus literal : Token, minus.kind = .minus ∧
      literal.kind = .literal value ∧
      (ofText text).tokens = (if negative then [minus] else []) ++ [literal] := by
  have hvisible : ∀ p, Piece.visible p digits = [⟨.token (.literal value), digits, p⟩] := by
    intro p
    have hpieces := @Piece.visible_written _ _ [] p hdigits (by simp)
    rwa [List.append_nil, Piece.visible_nil] at hpieces
  rw [tokens_of_visible, errors_of_visible, htext]
  cases negative with
  | false =>
    simp only [Bool.false_eq_true, if_false, List.nil_append, hvisible]
    exact ⟨rfl, ⟨.minus, "-", .start⟩, _, rfl, rfl, rfl⟩
  | true =>
    have hmunch : Token.munch '-' digits = ⟨.token .minus, ['-'], digits⟩ := rfl
    have hpieces := Piece.visible_munched .start digits (c := '-') (by decide)
    rw [hmunch, hvisible] at hpieces
    simp only [if_true, List.singleton_append, hpieces]
    exact ⟨rfl, _, _, rfl, rfl, rfl⟩

/-! ### The session -/

/-- The expression stands for the number, wherever it is evaluated. -/
structure Expr.Denotes (e : RawExpr) (x : Float) : Prop where
  problems : e.problems .topLevel = []
  evaluate : ∀ (settings : Settings) (nesting : Nat) (m : Machine), 2 ≤ nesting →
    Eval.evaluate settings nesting (e.bound .topLevel) m = .ok (.number x) m

theorem Expr.denotes_literal (line : Nat) {x y : Float} (h : y = x) :
    (Expr.literal line (.number y) : RawExpr).Denotes x where
  problems := rfl
  evaluate
    | _, _ + 1, _, _ => by rw [← h]; rfl

theorem Expr.denotes_minus {minus : Token} (hminus : minus.kind = .minus) (line : Nat)
    {x y : Float} (h : -y = x) :
    (Expr.unary minus (.literal line (.number y)) : RawExpr).Denotes x where
  problems := rfl
  evaluate
    | settings, nesting + 2, m, _ => by
      show Eval.ofOperator minus.line (Value.unary minus.kind _ (.number y)) m = _
      rw [hminus, ← h]
      rfl

namespace Number
variable {x : Float}

/-- What is printed for a number is an expression that stands for it. -/
theorem printed_denotes (hx : (x == 0) = true ∨ Plain x) :
    (Scan.ofText (Notation.printed.write x)).errors = [] ∧
      ∃ e : RawExpr, Grammar.Expression (Scan.ofText (Notation.printed.write x)).tokens e ∧
        e.Denotes x := by
  have hle := le_infinite_of_printed hx
  obtain ⟨herrors, minus, literal, hminus, hliteral, htokens⟩ :=
    Scan.ofText_signed (toList_write hle) (printed_written hx)
  have hderives := (Grammar.Derives.literal hliteral).looser
  refine ⟨herrors, ?_⟩
  rw [htokens]
  have hsigned := ofMagnitude_magnitude hle
  cases hnegative : isNegative x with
  | false =>
    rw [hnegative] at hsigned
    exact ⟨_, hderives.looser_le (by decide), Expr.denotes_literal _ hsigned⟩
  | true =>
    rw [hnegative] at hsigned
    exact ⟨_, (Grammar.Derives.unary (.inr hminus) hderives).looser_le (by decide),
      Expr.denotes_minus hminus _ ((neg_ofMagnitude hle).trans hsigned)⟩

end Number

theorem Eval.execute_number {settings : Settings} {nesting : Nat} (hnesting : 3 ≤ nesting)
    (line : Nat) {e : RawExpr} {x : Float} (he : e.Denotes x) (m : Machine) :
    execute settings nesting (.print line (e.bound .topLevel)) m =
      .ok .normal { m with
        events := .printed (Value.text (.number x : Value)) ::
          ((if settings.trace then [.traced line "Print"] else []) ++ m.events) } := by
  obtain ⟨n, rfl⟩ : ∃ n, nesting = n + 1 := ⟨nesting - 1, by omega⟩
  have hform : ∀ m : Machine,
      executeForm settings (evaluate settings n) (execute settings n)
        (.print line (e.bound .topLevel)) m =
        .ok .normal { m with events := .printed (Value.text (.number x : Value)) :: m.events } :=
    fun m => bind_ok (he.evaluate settings n m (by omega)) _
  unfold execute
  cases settings.trace with
  | false => exact hform m
  | true => exact (bind_ok rfl _).trans (hform _)

namespace Session
variable {s : Session} {settings : Settings} {e : RawExpr} {x : Float}

theorem run_ok {program : Eval Unit} {m : Machine} (h : program s.machine = .ok () m) :
    s.run program =
      { s with machine := { m with current := Machine.globals, callDepth := 0 } } := by
  unfold run Machine.run
  rw [h]
  rfl

theorem resolveAndRun_number (hclean : s.diagnostics.hadError = false)
    (hnesting : 3 ≤ settings.nesting) (line : Nat) (he : e.Denotes x) :
    s.resolveAndRun settings [.print line e] =
      { s with machine := { s.machine with
          current := Machine.globals, callDepth := 0,
          events := .printed (Value.text (.number x : Value)) ::
            ((if settings.trace then [.traced line "Print"] else []) ++ s.machine.events) } } := by
  have hprogram : Resolution.ofProgram [.print line e] =
      ⟨[.print line (e.bound .topLevel)], []⟩ := by
    rw [Resolution.ofProgram_eq]
    simp [Stmt.boundList, Stmt.bound, Stmt.problemsList, Stmt.problems, he.problems]
  have hrun : Eval.executeProgram settings [.print line (e.bound .topLevel)] s.machine = .ok () _ :=
    Eval.bind_ok (Eval.execute_number hnesting line he s.machine) _
  unfold resolveAndRun
  rw [hprogram]
  show (if s.diagnostics.hadError = true then s else s.run _) = _
  rw [if_neg (by simp [hclean])]
  exact run_ok hrun

/-- The text of a number is read as the number, and printed if it is typed in. -/
theorem runInput_number (hx : (x == 0) = true ∨ Number.Plain x) :
    let text := Value.text (.number x : Value)
    let scan := Scan.ofText text
    (scan.errors = [] ∧ (Parse.expression scan.tokens).complaints = []) ∧
    (∃ e, (Parse.expression scan.tokens).value = some e ∧
      ∀ (settings : Settings) (nesting : Nat) (m : Machine), 2 ≤ nesting →
        ∃ y, Eval.evaluate settings nesting (e.bound .topLevel) m = .ok (.number y) m ∧
          Value.equal (.number y : Value) (.number x) = true) ∧
    ∀ (s : Session) (settings : Settings), s.diagnostics.hadError = false →
      3 ≤ settings.nesting →
      let s' := s.runInput settings text
      s'.machine.events.output = s.machine.events.output ++ (text ++ "\n") ∧
        s'.diagnostics = s.diagnostics ∧ s'.breakdown = s.breakdown := by
  obtain ⟨herrors, e, hderives, hdenotes⟩ := Number.printed_denotes hx
  intro text scan
  have hparse : Parse.expression scan.tokens = ⟨some e, []⟩ := Parse.expression_of_derives hderives
  rw [hparse]
  refine ⟨⟨herrors, rfl⟩, ⟨e, rfl, fun settings nesting m hnesting =>
    ⟨x, hdenotes.evaluate settings nesting m hnesting, (Value.equal_number x x).2 rfl⟩⟩, ?_⟩
  intro s settings hclean hnesting s'
  have hrun : s' = _ := (runInput_of_expression herrors hderives s settings).trans
    (resolveAndRun_number hclean hnesting e.line hdenotes)
  rw [hrun]
  refine ⟨?_, rfl, rfl⟩
  have hquiet : Transcript.output (if settings.trace then [.traced e.line "Print"] else []) =
      "" := by
    split_ifs <;> rfl
  rw [Transcript.output_cons, Transcript.output_append, hquiet, String.append_empty]
  rfl

theorem runInput_minusOneAndAHalf :
    ((-1.5 : Float) == 0 ∨ Number.Plain (-1.5)) ∧ (initial 0).diagnostics.hadError = false ∧
      ((initial 0).runInput {} "-1.5").machine.events.output = "-1.5\n" := by
  have htext : Value.text (.number (-1.5) : Value) = "-1.5" := by decide +kernel
  have hplain : Number.Plain (-1.5) := by decide +kernel
  have hprinted := ((runInput_number (.inr hplain)).2.2 (initial 0) {} rfl (by decide)).1
  rw [htext] at hprinted
  exact ⟨.inr hplain, rfl, hprinted⟩

end Session
end Lox
