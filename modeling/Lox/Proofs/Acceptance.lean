import Lox.Proofs.Precedence

/-! The grammar of statements reads what derives. Together with the derivations that parsers find,
the parser accepts the programs of the grammar, each as itself, and no other tokens. -/

namespace Lox

theorem Kind.startsStatement_eq_false {k : Kind} (h : k.startsExpression = true) :
    Parser.startsPlainStatement k = false ∧ Parser.startsDeclaration k = false := by
  cases k with
  | keyword word => cases word <;> first | exact ⟨rfl, rfl⟩ | exact Bool.noConfusion h
  | _ => first | exact ⟨rfl, rfl⟩ | exact Bool.noConfusion h

namespace Parser
open Grammar
variable {n bound : Nat} {is ts o : List Token} {keyword close : Token} {e : RawExpr}

theorem head_of_statement {isOpen : Bool} {s : RawStmt} (h : Statement isOpen ts s) :
    ∃ t us, ts = t :: us ∧ startsDeclaration t.kind = false := by
  cases h with
  | evaluation evaluated =>
    obtain ⟨t, us, rfl, hstart⟩ := evaluated.head
    exact ⟨t, us, rfl, (Kind.startsStatement_eq_false hstart).2⟩
  | block opens => exact ⟨_, _, rfl, by rw [opens]; rfl⟩
  | print spelled | return_ spelled | ifThen spelled | ifElse spelled | while_ spelled
  | for_ spelled => exact ⟨_, _, rfl, by rw [spelled]; rfl⟩

def StatementCovers (q : Parser RawStmt) (n : Nat) : Prop :=
  ∀ isOpen s ts o, Statement isOpen ts s → ts.length ≤ n → (isOpen = true → Detached o) →
    Reads q (ts ++ o) s o

def DeclarationCovers (q : Parser (Option RawStmt)) (n : Nat) : Prop :=
  ∀ s ts o, Declaration ts s → ts.length ≤ n → Detached o → Reads q (ts ++ o) (some s) o

/-- The rules for nested statements read whatever derives from `n` tokens at most. -/
structure Forms.Covers (nested : Forms) (n : Nat) : Prop where
  bound : n ≤ nested.bound
  statement : StatementCovers nested.statement n
  declaration : DeclarationCovers nested.declaration n

section lists
variable {items : List (List Token × RawStmt)}

theorem stmts_reads {q : Parser (Option RawStmt)} (hq : DeclarationCovers q n)
    {loop : Nat → Parser (List RawStmt)} {stop : Option Token → Bool} (hzero : loop 0 = pure [])
    (hsucc : ∀ n, loop (n + 1) = next? >>= fun t? =>
      if stop t? then pure []
      else q >>= fun first => loop n >>= fun rest => pure (first.toList ++ rest))
    (hgo : ∀ t, t.kind ≠ .rightBrace → stop (some t) = false)
    (hitems : ∀ d ∈ items, Declaration d.1 d.2) (hlen : (items.flatMap Prod.fst).length ≤ n)
    (hbound : (items.flatMap Prod.fst).length ≤ bound) (ho : Detached o)
    (hstop : stop o.head? = true) :
    Reads (loop bound) (items.flatMap Prod.fst ++ o) (items.map Prod.snd) o := by
  have hcount := length_le_length_flatMap fun d hd =>
    List.length_pos_iff.2 (hitems d hd).ne_nil
  refine loop_reads Option.toList (fun d => some d.2) Detached hzero hsucc (fun _ => rfl) ho hstop
    ?_ ?_ (Nat.le_trans hcount hbound)
  · intro d hd us
    obtain ⟨t, vs, ht, hbrace, helse⟩ := (hitems d hd).head
    rw [ht]
    refine ⟨hgo t hbrace, ?_⟩
    rintro u ⟨⟩
    exact helse
  · intro d hd us hus
    exact hq d.2 d.1 us (hitems d hd) (Nat.le_trans (length_le_flatMap hd) hlen) hus

theorem declarations_reads {q : Parser (Option RawStmt)} (hq : DeclarationCovers q n)
    (hitems : ∀ d ∈ items, Declaration d.1 d.2) (hlen : (items.flatMap Prod.fst).length ≤ n)
    (hbound : (items.flatMap Prod.fst).length ≤ bound) (hclose : close.kind = .rightBrace) :
    Reads (declarations q bound) (items.flatMap Prod.fst ++ close :: o) (items.map Prod.snd)
      (close :: o) := by
  refine stmts_reads hq rfl (fun _ => rfl) (fun t ht => ?_) hitems hlen hbound ?_ ?_
  · simp [ht]
  · rintro t ⟨⟩
    rw [hclose]
    decide
  · simp [hclose]

theorem program_reads {q : Parser (Option RawStmt)} (hq : DeclarationCovers q n)
    (hitems : ∀ d ∈ items, Declaration d.1 d.2) (hlen : (items.flatMap Prod.fst).length ≤ n)
    (hbound : (items.flatMap Prod.fst).length ≤ bound) :
    Reads (program q bound) (items.flatMap Prod.fst) (items.map Prod.snd) [] := by
  rw [← List.append_nil (items.flatMap Prod.fst)]
  exact stmts_reads hq rfl (fun _ => rfl) (fun _ _ => rfl) hitems hlen hbound
    (fun t ht => nomatch ht) rfl

end lists

section rules
variable {nested : Forms}

theorem block_reads (hn : nested.Covers n) {items : List (List Token × RawStmt)}
    (hitems : ∀ d ∈ items, Declaration d.1 d.2) (hlen : (items.flatMap Prod.fst).length ≤ n)
    (hclose : close.kind = .rightBrace) :
    Reads (block nested) (items.flatMap Prod.fst ++ close :: o) (items.map Prod.snd) o := by
  have hbound := Nat.le_trans hlen hn.bound
  refine .bind (declarations_reads hn.declaration hitems hlen hbound hclose) ?_
  exact .bind (.expect hclose _) (.pure _ _)

theorem parameters_reads {parameters : List Token}
    (hparameters : ∀ t ∈ parameters, t.kind = .identifier) (hfew : parameters.length ≤ maxArity)
    (hlisted : Separated (parameters.map ([·])) is) (hbound : is.length ≤ bound)
    (hclose : close.kind = .rightParen) :
    Reads (list bound .tooManyParameters (expect .identifier .parameterName)) (is ++ close :: o)
      parameters (close :: o) := by
  have hcount := hlisted.count_le
  rw [List.length_map] at hcount
  let items : List (List Token × Token) := parameters.map fun t => ([t], t)
  have hfst : items.map Prod.fst = parameters.map ([·]) := List.map_map
  have hsnd : items.map Prod.snd = parameters := List.map_map.trans (List.map_id parameters)
  have hlength : items.length = parameters.length := List.length_map _
  rw [← hfst] at hlisted
  rw [← hsnd]
  refine list_reads _ hclose items bound hlisted ?_ ?_ (by omega) (by omega)
  · intro d hd u us _
    obtain ⟨t, ht, rfl⟩ := List.mem_map.1 hd
    exact .expect (hparameters t ht) _
  · intro d hd
    obtain ⟨t, ht, rfl⟩ := List.mem_map.1 hd
    exact ⟨t, [], rfl, by rw [hparameters t ht]; decide⟩

theorem function_reads (hn : nested.Covers n) {f : RawFunction} (hf : Grammar.Function ts f)
    (hlen : ts.length ≤ n) (c : Callable) : Reads (function nested c) (ts ++ o) f o := by
  have hbound := hn.bound
  cases hf with
  | mk named opens inputs few listed closes begins inside ends =>
    simp only [List.length_append, List.length_cons] at hlen
    simp only [List.cons_append, List.append_assoc]
    refine .bind (.expect named _) (.bind (.expect opens _) ?_)
    refine .bind (parameters_reads inputs few listed (by omega) closes) ?_
    refine .bind (.expect closes _) (.bind (.expect begins _) ?_)
    exact .bind (block_reads hn inside (by omega) ends) (.pure _ _)

theorem methods_reads (hn : nested.Covers n) {items : List (List Token × RawFunction)}
    (hitems : ∀ d ∈ items, Grammar.Function d.1 d.2) (hlen : (items.flatMap Prod.fst).length ≤ n)
    (hbound : (items.flatMap Prod.fst).length ≤ bound) (hclose : close.kind = .rightBrace) :
    Reads (methods nested bound) (items.flatMap Prod.fst ++ close :: o) (items.map Prod.snd)
      (close :: o) := by
  have hcount := length_le_length_flatMap fun d hd => List.length_pos_iff.2 (hitems d hd).ne_nil
  refine loop_reads ([·]) Prod.snd (fun _ => True) rfl (fun _ => rfl) (fun _ => rfl) trivial
    (by simp [hclose]) ?_ ?_ (Nat.le_trans hcount hbound)
  · rintro ⟨ts, f⟩ hd us
    cases hitems _ hd with
    | mk named => exact ⟨by simp [named], trivial⟩
  · intro d hd us _
    exact function_reads hn (hitems d hd) (Nat.le_trans (length_le_flatMap hd) hlen) .method

theorem superclassClause_reads {above : Option (Superclass Unit)} {brace : Token}
    (h : Inheritance ts above) (hbrace : brace.kind = .leftBrace) :
    Reads superclassClause (ts ++ brace :: o) above (brace :: o) := by
  cases h with
  | none =>
    refine .bind (.decline ?_) (.pure _ _)
    rintro t ⟨⟩
    rw [hbrace]
    rfl
  | some sign named =>
    refine .bind (.acceptIf (by rw [sign]; rfl)) ?_
    exact .map (.expect named _) _

theorem classDeclaration_reads (hn : nested.Covers n) {name opening : Token}
    {above : Option (Superclass Unit)} {items : List (List Token × RawFunction)}
    (hname : name.kind = .identifier) (habove : Inheritance ts above)
    (hopening : opening.kind = .leftBrace) (hitems : ∀ d ∈ items, Grammar.Function d.1 d.2)
    (hlen : (items.flatMap Prod.fst).length ≤ n) (hclose : close.kind = .rightBrace) :
    Reads (classDeclaration nested keyword)
      (name :: (ts ++ opening :: (items.flatMap Prod.fst ++ close :: o)))
      (.class_ keyword.line name above (items.map Prod.snd)) o := by
  have hbound := Nat.le_trans hlen hn.bound
  refine .bind (.expect hname _) (.bind (superclassClause_reads habove hopening) ?_)
  refine .bind (.expect hopening _) (.bind (methods_reads hn hitems hlen hbound hclose) ?_)
  exact .bind (.expect hclose _) (.pure _ _)

theorem varDeclaration_reads {s : RawStmt} (h : Variable (keyword :: ts) s)
    (hbound : ts.length ≤ bound) : Reads (varDeclaration bound) (ts ++ o) s o := by
  cases h with
  | @mk _ name semicolon us value spelled named initial ends =>
    simp only [List.length_cons, List.length_append] at hbound
    rw [List.cons_append, List.append_assoc]
    refine .bind (.expect named _) (.bind (a := value) (m := semicolon :: o) ?_ ?_)
    · cases initial with
      | none =>
        refine .bind (.decline ?_) (.pure _ _)
        rintro t ⟨⟩
        rw [ends]
        rfl
      | some sign inside =>
        rw [List.length_cons] at hbound
        refine .bind (.acceptIf (by rw [sign]; rfl)) ?_
        exact .map (expression_reads inside (by omega) (by rw [ends]; rfl)) _
    · exact .bind (.expect ends _) (.pure _ _)

theorem optional_reads {value : Option RawExpr} {closing : Kind} (h : Grammar.Optional ts value)
    (hclose : close.kind = closing) (hrank : closing.rank = 9)
    (hstart : closing.startsExpression = false) (hbound : ts.length ≤ bound) :
    Reads (optional bound closing) (ts ++ close :: o) value (close :: o) := by
  cases h with
  | none => exact .bind (.nextIs_self _ hclose) (.pure _ _)
  | some value =>
    have he : Reads (expression bound) (ts ++ close :: o) _ (close :: o) :=
      expression_reads value hbound (by rw [hclose, hrank])
    obtain ⟨t, us, rfl, hs, -⟩ := value.head
    exact .bind (.nextIs _ (Kind.ne_of_startsExpression hs hstart)) (.map he _)

theorem parenthesized_reads {α : Type} {open_ closing : Expected} {rest : RawExpr → Parser α}
    {a : α} (he : Parenthesized ts e) (hbound : ts.length ≤ bound) (h : Reads (rest e) is a o) :
    Reads (do
      let _ ← expect .leftParen open_
      let condition ← expression bound
      let _ ← expect .rightParen closing
      rest condition) (ts ++ is) a o := by
  cases he with
  | mk opens inside closes =>
    simp only [List.length_append, List.length_cons] at hbound
    rw [List.cons_append, List.append_assoc]
    refine .bind (.expect opens _) ?_
    refine .bind (expression_reads inside (by omega) (by rw [closes]; rfl)) ?_
    exact .bind (.expect closes _) h

theorem expressionStatement_reads {s : RawStmt} (h : Evaluation ts s)
    (hbound : ts.length ≤ bound + 1) : Reads (expressionStatement bound) (ts ++ o) s o := by
  cases h with
  | @mk first semicolon us e value ends =>
    simp only [List.length_append, List.length_cons] at hbound
    have hvalue : Reads (expression bound) (first :: us ++ semicolon :: o) e (semicolon :: o) :=
      expression_reads value (by simp; omega) (by rw [ends]; rfl)
    rw [List.cons_append, List.append_assoc]
    exact .bind (.next _) (.bind hvalue (.bind (.expect ends _) (.pure _ _)))

theorem forInitializer_reads {initializer : Option RawStmt} (h : LoopInitializer ts initializer)
    (hbound : ts.length ≤ bound) : Reads (forInitializer bound) (ts ++ o) initializer o := by
  cases h with
  | none ends =>
    refine .bind (.acceptIf (by rw [ends]; rfl)) ?_
    simp only [ends, if_true]
    exact .pure _ _
  | variable_ declared =>
    have hdeclared := declared
    cases declared with
    | mk spelled =>
      refine .bind (.acceptIf (by rw [spelled]; rfl)) ?_
      have hne : ¬Kind.keyword .var = .semicolon := by decide
      simp only [spelled, if_neg hne]
      exact .map (varDeclaration_reads hdeclared (Nat.le_of_succ_le hbound)) _
  | evaluation evaluated =>
    obtain ⟨t, us, rfl, hstart⟩ := evaluated.head
    refine .bind (.decline ?_)
      (.map (expressionStatement_reads evaluated (Nat.le_succ_of_le hbound)) _)
    rintro u ⟨⟩
    have hsemicolon := Kind.ne_of_startsExpression hstart (l := .semicolon) rfl
    have hvar := Kind.ne_of_startsExpression hstart (l := .keyword .var) rfl
    simp [hsemicolon, hvar]

theorem forStatement_reads (hn : nested.Covers n) {isOpen : Bool}
    {opening semicolon closing : Token} {us vs ws : List Token} {initializer : Option RawStmt}
    {condition increment : Option RawExpr} {body : RawStmt} (opens : opening.kind = .leftParen)
    (initial : LoopInitializer ts initializer) (tested : Grammar.Optional us condition)
    (divides : semicolon.kind = .semicolon) (advanced : Grammar.Optional vs increment)
    (closes : closing.kind = .rightParen) (inside : Statement isOpen ws body)
    (hlen : (ts ++ (us ++ semicolon :: (vs ++ closing :: ws))).length ≤ n)
    (ho : isOpen = true → Detached o) :
    Reads (forStatement nested keyword)
      (opening :: (ts ++ (us ++ semicolon :: (vs ++ closing :: (ws ++ o)))))
      (desugarFor keyword.line initializer condition increment body) o := by
  have hbound := hn.bound
  simp only [List.length_append, List.length_cons] at hlen
  refine .bind (.expect opens _) (.bind (forInitializer_reads initial (by omega)) ?_)
  refine .bind (optional_reads tested divides rfl rfl (by omega)) (.bind (.expect divides _) ?_)
  refine .bind (optional_reads advanced closes rfl rfl (by omega)) (.bind (.expect closes _) ?_)
  exact .bind (hn.statement isOpen body ws o inside (by omega) ho) (.pure _ _)

/-- Every statement that is no declaration, in front of rules that read what is nested in it. -/
theorem statement_covers (hn : nested.Covers n) : StatementCovers (statement nested) (n + 1) := by
  intro isOpen s ts o hs hlen ho
  have hbound := hn.bound
  cases hs with
  | evaluation evaluated =>
    obtain ⟨t, us, rfl, hstart⟩ := evaluated.head
    refine .bind (.decline ?_) (expressionStatement_reads evaluated (by omega))
    rintro u ⟨⟩
    exact (Kind.startsStatement_eq_false hstart).1
  | print spelled value ends =>
    simp only [List.length_append, List.length_cons] at hlen
    rw [List.cons_append, List.append_assoc]
    refine .bind (.acceptIf (by rw [spelled]; rfl)) ?_
    simp only [spelled]
    refine .bind (expression_reads value (by omega) (by rw [ends]; rfl)) ?_
    exact .bind (.expect ends _) (.pure _ _)
  | return_ spelled returned ends =>
    simp only [List.length_append, List.length_cons] at hlen
    rw [List.cons_append, List.append_assoc]
    refine .bind (.acceptIf (by rw [spelled]; rfl)) ?_
    simp only [spelled]
    refine .bind (optional_reads returned ends rfl rfl (by omega)) ?_
    exact .bind (.expect ends _) (.pure _ _)
  | block opens inside closes =>
    simp only [List.length_append, List.length_cons] at hlen
    rw [List.cons_append, List.append_assoc]
    refine .bind (.acceptIf (by rw [opens]; rfl)) ?_
    simp only [opens]
    exact .bind (block_reads hn inside (by omega) closes) (.pure _ _)
  | ifThen spelled tested inside =>
    simp only [List.length_append, List.length_cons] at hlen
    rw [List.cons_append, List.append_assoc]
    refine .bind (.acceptIf (by rw [spelled]; rfl)) ?_
    simp only [spelled]
    refine parenthesized_reads tested (by omega) ?_
    refine .bind (hn.statement _ _ _ o inside (by omega) fun _ => ho rfl) ?_
    refine .bind (.decline fun t ht => ?_) (.pure _ _)
    rw [beq_eq_false_iff_ne]
    exact ho rfl t ht
  | ifElse spelled tested inside divides otherwise =>
    simp only [List.length_append, List.length_cons] at hlen
    rw [List.cons_append, List.append_assoc, List.append_assoc, List.cons_append]
    refine .bind (.acceptIf (by rw [spelled]; rfl)) ?_
    simp only [spelled]
    refine parenthesized_reads tested (by omega) ?_
    -- The `else` is left to this statement because the branch before it ends closed.
    refine .bind (hn.statement _ _ _ _ inside (by omega) fun h => Bool.noConfusion h) ?_
    refine .bind (.acceptIf (by rw [divides]; rfl)) ?_
    exact .bind (hn.statement _ _ _ _ otherwise (by omega) ho) (.pure _ _)
  | while_ spelled tested inside =>
    simp only [List.length_append, List.length_cons] at hlen
    rw [List.cons_append, List.append_assoc]
    refine .bind (.acceptIf (by rw [spelled]; rfl)) ?_
    simp only [spelled]
    refine parenthesized_reads tested (by omega) ?_
    exact .bind (hn.statement _ _ _ _ inside (by omega) ho) (.pure _ _)
  | for_ spelled opens initial tested divides advanced closes inside =>
    rw [List.length_cons, List.length_cons] at hlen
    simp only [List.cons_append, List.append_assoc]
    refine .bind (.acceptIf (by rw [spelled]; rfl)) ?_
    simp only [spelled]
    rw [← desugarFor_eq]
    exact forStatement_reads hn opens initial tested divides advanced closes inside (by omega) ho

theorem declaration_reads (hn : nested.Covers n) {s : RawStmt} (hs : Declaration ts s)
    (hlen : ts.length ≤ n + 1) (ho : Detached o) : Reads (declaration nested) (ts ++ o) s o := by
  have hbound := hn.bound
  cases hs with
  | class_ spelled named inherits opens inside closes =>
    simp only [List.length_append, List.length_cons] at hlen
    simp only [List.cons_append, List.append_assoc]
    refine .bind (.acceptIf (by rw [spelled]; rfl)) ?_
    simp only [spelled]
    exact classDeclaration_reads hn named inherits opens inside (by omega) closes
  | function spelled declared =>
    rw [List.length_cons] at hlen
    refine .bind (.acceptIf (by rw [spelled]; rfl)) ?_
    simp only [spelled]
    exact .map (function_reads hn declared (by omega) .function) _
  | variable_ declared =>
    have hdeclared := declared
    cases declared with
    | mk spelled =>
      refine .bind (.acceptIf (by rw [spelled]; rfl)) ?_
      simp only [spelled]
      exact varDeclaration_reads hdeclared (Nat.le_trans (Nat.le_of_succ_le_succ hlen) hbound)
  | statement plain =>
    have hread := statement_covers hn _ s ts o plain hlen fun _ => ho
    obtain ⟨t, us, rfl, hstart⟩ := head_of_statement plain
    refine .bind (.decline ?_) hread
    rintro u ⟨⟩
    exact hstart

end rules

theorem nested_covers (n : Nat) :
    StatementCovers (nestedStatement n) n ∧ DeclarationCovers (nestedDeclaration n) n := by
  induction n with
  | zero =>
    constructor
    · intro isOpen s ts o hs hlen
      exact absurd (List.eq_nil_of_length_eq_zero (Nat.le_zero.1 hlen))
        (Declaration.statement hs).ne_nil
    · intro s ts o hs hlen
      exact absurd (List.eq_nil_of_length_eq_zero (Nat.le_zero.1 hlen)) hs.ne_nil
  | succ n ih =>
    have hn : Forms.Covers ⟨n + 1, nestedStatement n, nestedDeclaration n⟩ n :=
      ⟨Nat.le_succ n, ih.1, ih.2⟩
    refine ⟨statement_covers hn, fun s ts o hs hlen ho => ?_⟩
    exact .recover (declaration_reads hn hs hlen ho)

end Parser

namespace Parse

/-- What derives is parsed, without a complaint. -/
theorem program_of_derives {tokens : List Token} {ss : List RawStmt}
    (h : Grammar.Program tokens ss) : program tokens = ⟨ss, []⟩ := by
  obtain ⟨items, hitems, rfl, rfl⟩ := h
  have hread := Parser.program_reads (Parser.nested_covers _).2 hitems (Nat.le_refl _)
    (Nat.le_refl _) []
  exact program_of_run hread

/-- The parser has nothing to complain about exactly in the programs of the grammar, and what it
makes of such a program is the tree that derives. -/
theorem program_eq_iff (tokens : List Token) (ss : List RawStmt) :
    program tokens = ⟨ss, []⟩ ↔ Grammar.Program tokens ss := by
  constructor
  · intro h
    have hquiet : (program tokens).complaints = [] := by rw [h]
    have hderives := derives_of_complaints_eq_nil hquiet
    rwa [h] at hderives
  · exact program_of_derives

end Parse
end Lox
