import Lox.Proofs.Regular
import Lox.Syntax.StatementParser

/-! The conduct of a parser: what it may do to its state when it goes on, and what it has done when
it gives up. One walk over the grammar shows that every rule keeps any conduct that its steps keep,
and that it builds apt trees, whatever is wrong with the tokens it reads. -/

namespace Lox

/-- Problems that do not make a rule give up. -/
def Problem.isMild : Problem → Bool
  | tooManyParameters | tooManyArguments | invalidAssignmentTarget => true
  | _ => false

/-- What a parser may do to its state when it goes on, and what it has done when it gives up. -/
structure Conduct where
  goes : ParserState → ParserState → Prop
  fails : ParserState → ParserState → Prop
  refl (s : ParserState) : goes s s
  trans {s t u : ParserState} : goes s t → goes t u → goes s u
  fails_of_goes {s t u : ParserState} : goes s t → fails t u → fails s u
  takes (t : Token) (ts : List Token) (cs : List Complaint) : goes ⟨t :: ts, cs⟩ ⟨ts, cs⟩
  protests (s : ParserState) (c : Complaint) (h : c.problem.isMild) :
    goes s { s with complaints := c :: s.complaints }
  stops (s : ParserState) (what : Expected) :
    fails s { s with complaints := ⟨s.tokens.head?, .expected what⟩ :: s.complaints }

namespace Parser
variable {α β : Type} (c : Conduct) (T : Token → Prop)

/-- On tokens that are all good, `p` behaves, leaves good tokens and gives what `Q` asks for. -/
def Conforms (p : Parser α) (Q : α → Prop) : Prop :=
  ∀ s, (∀ t ∈ s.tokens, T t) →
    match p s with
    | .ok a s' => c.goes s s' ∧ (∀ t ∈ s'.tokens, T t) ∧ Q a
    | .error _ s' => c.fails s s' ∧ ∀ t ∈ s'.tokens, T t

variable {c T} {p : Parser α} {Q Q' : α → Prop}

theorem Conforms.mono (h : Conforms c T p Q) (hQ : ∀ a, Q a → Q' a) : Conforms c T p Q' := by
  intro s hs
  have := h s hs
  cases hp : p s with
  | ok a s' => rw [hp] at this; exact ⟨this.1, this.2.1, hQ a this.2.2⟩
  | error e s' => rw [hp] at this; exact this

theorem Conforms.pure {a : α} (h : Q a) : Conforms c T (Pure.pure a) Q :=
  fun s hs => ⟨c.refl s, hs, h⟩

theorem Conforms.bind {f : α → Parser β} {R : β → Prop} (h : Conforms c T p Q)
    (hf : ∀ a, Q a → Conforms c T (f a) R) : Conforms c T (p >>= f) R := by
  intro s hs
  have hp := h s hs
  rw [bind_run]
  cases he : p s with
  | error e s' => rw [he] at hp; exact hp
  | ok a s' =>
    rw [he] at hp
    obtain ⟨hg, ht, hq⟩ := hp
    have hb := hf a hq s' ht
    dsimp only
    cases hfa : f a s' with
    | ok b u => rw [hfa] at hb; exact ⟨c.trans hg hb.1, hb.2⟩
    | error e u => rw [hfa] at hb; exact ⟨c.fails_of_goes hg hb.1, hb.2⟩

theorem Conforms.map {f : α → β} {R : β → Prop} (h : Conforms c T p Q) (hf : ∀ a, Q a → R (f a)) :
    Conforms c T (f <$> p) R := by
  rw [← bind_pure_comp]
  exact h.bind fun a ha => .pure (hf a ha)

theorem Conforms.some (h : Conforms c T p Q) :
    Conforms c T (Option.some <$> p) fun a? => ∀ a ∈ a?, Q a :=
  h.map fun a ha b hb => by cases hb; exact ha

theorem conforms_next? : Conforms c T next? fun t? => ∀ t ∈ t?, T t :=
  fun s hs => ⟨c.refl s, hs, fun t ht => hs t (List.mem_of_mem_head? ht)⟩

theorem conforms_nextIs (kind : Kind) : Conforms c T (nextIs kind) fun _ => True :=
  conforms_next?.bind fun _ _ => .pure trivial

theorem conforms_complainAt (t : Option Token) {problem : Problem} (h : problem.isMild) :
    Conforms c T (complainAt t problem) fun _ => True :=
  fun s hs => ⟨c.protests s ⟨t, problem⟩ h, hs, trivial⟩

theorem conforms_complain {problem : Problem} (h : problem.isMild) :
    Conforms c T (complain problem) fun _ => True :=
  conforms_next?.bind fun t _ => conforms_complainAt t h

theorem conforms_fail (what : Expected) : Conforms c T (fail (.expected what) : Parser α) Q :=
  fun s hs => ⟨c.stops s what, hs⟩

theorem conforms_acceptIf (test : Kind → Bool) :
    Conforms c T (acceptIf test) fun t? => ∀ t ∈ t?, T t ∧ test t.kind := by
  intro ⟨tokens, complaints⟩ hs
  cases tokens with
  | nil => exact ⟨c.refl _, hs, fun t ht => nomatch ht⟩
  | cons t ts =>
    have hT : T t := hs t List.mem_cons_self
    have hts : ∀ t ∈ ts, T t := fun u hu => hs u (List.mem_cons_of_mem t hu)
    by_cases h : test t.kind
    · rw [acceptIf_cons, if_pos h]
      refine ⟨c.takes t ts complaints, hts, fun u hu => ?_⟩
      cases hu
      exact ⟨hT, h⟩
    · rw [acceptIf_cons, if_neg h]
      exact ⟨c.refl _, hs, fun u hu => nomatch hu⟩

theorem conforms_accept (kind : Kind) :
    Conforms c T (accept kind) fun t? => ∀ t ∈ t?, T t ∧ t.kind = kind :=
  (conforms_acceptIf (· == kind)).mono fun _ h t ht => ⟨(h t ht).1, eq_of_beq (h t ht).2⟩

theorem conforms_expect (kind : Kind) (what : Expected) :
    Conforms c T (expect kind what) fun t => T t ∧ t.kind = kind := by
  refine (conforms_accept kind).bind fun t? h => ?_
  cases t? with
  | some t => exact .pure (h t rfl)
  | none => exact conforms_fail what

theorem conforms_name (what : Expected) :
    Conforms c T (expect .identifier what) fun t => t.Names T :=
  (conforms_expect .identifier what).mono fun _ h => ⟨h.1, h.2⟩

theorem conforms_commaSeparated {excess : Problem} (he : excess.isMild) (h : Conforms c T p Q)
    (taken bound : Nat) :
    Conforms c T (commaSeparated excess p taken bound) fun as => ∀ a ∈ as, Q a := by
  induction bound generalizing taken with
  | zero => exact h.bind fun a ha => .pure (by simpa using ha)
  | succ bound ih =>
    have hrest {q : α → Option Token → Parser (List α)} (hlast : ∀ a, q a none = Pure.pure [a])
        (hnext : ∀ a t, q a (some t) = (a :: ·) <$> commaSeparated excess p (taken + 1) bound) :
        Conforms c T (p >>= fun a => accept .comma >>= q a) fun as => ∀ a ∈ as, Q a := by
      refine h.bind fun a ha => (conforms_accept .comma).bind fun t _ => ?_
      cases t with
      | none =>
        rw [hlast]
        exact .pure (by simpa using ha)
      | some t =>
        rw [hnext]
        exact (ih (taken + 1)).map fun as has => by simpa [ha] using has
    unfold commaSeparated
    split
    · exact (conforms_complain he).bind fun _ _ => hrest (fun _ => rfl) fun _ _ => rfl
    · exact hrest (fun _ => rfl) fun _ _ => rfl

theorem conforms_list {excess : Problem} (he : excess.isMild) (h : Conforms c T p Q)
    (bound : Nat) : Conforms c T (list bound excess p) fun as => ∀ a ∈ as, Q a := by
  refine (conforms_nextIs .rightParen).bind fun b _ => ?_
  split
  · exact .pure (by simp)
  · exact conforms_commaSeparated he h 0 bound

variable {nested : Parser RawExpr}

theorem conforms_advance : Conforms c T advance fun _ => True := by
  intro ⟨tokens, complaints⟩ hs
  cases tokens with
  | nil => exact ⟨c.refl _, hs, trivial⟩
  | cons t ts =>
    exact ⟨c.takes t ts complaints, fun u hu => hs u (List.mem_cons_of_mem t hu), trivial⟩

theorem conforms_primary (h : Conforms c T nested (Expr.Apt T)) :
    Conforms c T (primary nested) (Expr.Apt T) := by
  refine conforms_next?.bind fun t? ht => ?_
  cases t? with
  | none => exact conforms_fail _
  | some t =>
    have hT : T t := ht t rfl
    cases hk : t.kind with
    | identifier =>
      simp only [hk]
      exact conforms_advance.bind fun _ _ => .pure ⟨hT, hk⟩
    | leftParen =>
      simp only [hk]
      refine conforms_advance.bind fun _ _ => h.bind fun inner hi => ?_
      exact (conforms_expect _ _).bind fun _ _ => .pure hi
    | literal value =>
      simp only [hk]
      exact conforms_advance.bind fun _ _ => .pure trivial
    | keyword w =>
      cases w with
      | this =>
        simp only [hk]
        exact conforms_advance.bind fun _ _ => .pure ⟨hT, hk⟩
      | super =>
        simp only [hk]
        refine conforms_advance.bind fun _ _ => (conforms_expect _ _).bind fun _ _ => ?_
        exact (conforms_name _).map fun m hm => ⟨⟨hT, hk⟩, hm⟩
      | _ => simp only [hk]; exact conforms_fail _
    | _ => simp only [hk]; exact conforms_fail _

theorem aptList_of_forall {es : List RawExpr} (h : ∀ e ∈ es, e.Apt T) :
    Expr.AptList T es := by
  induction es with
  | nil => trivial
  | cons e es ih => exact ⟨h e List.mem_cons_self, ih fun a ha => h a (List.mem_cons_of_mem e ha)⟩

theorem conforms_suffixes (h : Conforms c T nested (Expr.Apt T)) {callee : RawExpr}
    (hc : callee.Apt T) (bound : Nat) :
    Conforms c T (suffixes nested callee bound) (Expr.Apt T) := by
  induction bound generalizing callee with
  | zero => exact .pure hc
  | succ bound ih =>
    refine (conforms_acceptIf _).bind fun t? _ => ?_
    cases t? with
    | none => exact .pure hc
    | some t =>
      dsimp only
      split
      · refine (conforms_list rfl h bound).bind fun args ha => ?_
        refine (conforms_expect _ _).bind fun paren hp => ih ⟨hc, hp, ?_⟩
        exact aptList_of_forall ha
      · exact (conforms_name _).bind fun name hn => ih ⟨hc, hn⟩

theorem isOperator_of_isUnary {k : Kind} (h : isUnary k) : k.isOperator := by
  rcases Bool.or_eq_true_iff.1 h with h | h <;> rw [eq_of_beq h] <;> rfl

theorem conforms_unary {operand : Parser RawExpr} (h : Conforms c T operand (Expr.Apt T))
    (bound : Nat) : Conforms c T (unary operand bound) (Expr.Apt T) := by
  induction bound with
  | zero => exact h
  | succ bound ih =>
    refine (conforms_acceptIf _).bind fun t? ht => ?_
    cases t? with
    | none => exact h
    | some operator =>
      have hoperator := ht operator rfl
      exact ih.map fun e he => ⟨⟨hoperator.1, isOperator_of_isUnary hoperator.2⟩, he⟩

theorem Level.isOperator_of_test {level : Level} (hl : level ∈ Level.all) {k : Kind}
    (h : level.test k) : k.isOperator := by
  simp only [Level.all, List.mem_cons, List.not_mem_nil, or_false] at hl
  rcases hl with rfl | rfl | rfl | rfl | rfl | rfl <;> cases k with
  | keyword word => cases word <;> first | rfl | exact Bool.noConfusion h
  | _ => first | rfl | exact Bool.noConfusion h

theorem Level.apt_build {level : Level} (hl : level ∈ Level.all) {left right : RawExpr}
    {operator : Token} (h₁ : left.Apt T) (ho : operator.Operates T) (h₂ : right.Apt T) :
    (level.build left operator right).Apt T := by
  simp only [Level.all, List.mem_cons, List.not_mem_nil, or_false] at hl
  rcases hl with rfl | rfl | rfl | rfl | rfl | rfl <;> exact ⟨h₁, ho, h₂⟩

theorem conforms_chain {level : Level} (hl : level ∈ Level.all) {operand : Parser RawExpr}
    (h : Conforms c T operand (Expr.Apt T)) {left : RawExpr} (h₁ : left.Apt T)
    (bound : Nat) : Conforms c T (level.chain operand left bound) (Expr.Apt T) := by
  induction bound generalizing left with
  | zero => exact .pure h₁
  | succ bound ih =>
    refine (conforms_acceptIf _).bind fun t? ht => ?_
    cases t? with
    | none => exact .pure h₁
    | some operator =>
      have hoperator := ht operator rfl
      have hoperates : operator.Operates T :=
        ⟨hoperator.1, Level.isOperator_of_test hl hoperator.2⟩
      exact h.bind fun right h₂ => ih (Level.apt_build hl h₁ hoperates h₂)

theorem conforms_levels {levels : List Level} (hl : ∀ l ∈ levels, l ∈ Level.all)
    {operand : Parser RawExpr} (h : Conforms c T operand (Expr.Apt T)) (bound : Nat) :
    Conforms c T (levels.foldl (fun operand level => level.parser bound operand) operand)
      (Expr.Apt T) := by
  induction levels generalizing operand with
  | nil => exact h
  | cons level levels ih =>
    refine ih (fun l hm => hl l (List.mem_cons_of_mem level hm)) ?_
    exact h.bind fun left h₁ => conforms_chain (hl level List.mem_cons_self) h h₁ bound

theorem conforms_operation (h : Conforms c T nested (Expr.Apt T)) (bound : Nat) :
    Conforms c T (operation bound nested) (Expr.Apt T) := by
  refine conforms_levels (fun l hl => hl) (conforms_unary ?_ bound) bound
  exact (conforms_primary h).bind fun callee hc => conforms_suffixes h hc bound

theorem assignTo_apt {line : Nat} {value target e : RawExpr} (hv : value.Apt T)
    (ht : target.Apt T) (h : assignTo line value target = some e) : e.Apt T := by
  cases target with
  | read name target => cases h; exact ⟨ht, hv⟩
  | get object name => cases h; exact ⟨ht.1, ht.2, hv⟩
  | _ => cases h

theorem conforms_assignment (h : Conforms c T nested (Expr.Apt T)) (bound : Nat) :
    Conforms c T (assignment bound nested) (Expr.Apt T) := by
  refine (conforms_operation h bound).bind fun left hl => ?_
  refine (conforms_accept .equal).bind fun t? _ => ?_
  cases t? with
  | none => exact .pure hl
  | some equals =>
    refine h.bind fun value hv => ?_
    cases ha : assignTo equals.line value left with
    | some assigned => exact .pure (assignTo_apt hv hl ha)
    | none => exact (conforms_complainAt _ rfl).bind fun _ _ => .pure hl

theorem conforms_expression (bound : Nat) :
    Conforms c T (expression bound) (Expr.Apt T) := by
  induction bound with
  | zero => exact conforms_fail _
  | succ bound ih => exact conforms_assignment ih (bound + 1)

theorem conforms_soleExpression (bound : Nat) :
    Conforms c T (soleExpression bound) (Expr.Apt T) := by
  refine (conforms_expression bound).bind fun e he => conforms_next?.bind fun t _ => ?_
  split
  · exact (conforms_fail (Q := fun _ => True) _).bind fun _ _ => .pure he
  · exact .pure he

/-- Reading on at the next statement makes good for giving up. -/
def Recovers (c : Conduct) : Prop :=
  ∀ s t, c.fails s t → c.goes s { t with tokens := synchronize t.tokens }

theorem mem_of_mem_nextStatement {t previous : Token} {ts : List Token}
    (h : t ∈ nextStatement previous ts) : t ∈ ts := by
  induction ts generalizing previous with
  | nil => exact h
  | cons u ts ih =>
    unfold nextStatement at h
    split at h
    · exact h
    · exact List.mem_cons_of_mem u (ih h)

theorem mem_of_mem_synchronize {t : Token} {ts : List Token} (h : t ∈ synchronize ts) :
    t ∈ ts := by
  cases ts with
  | nil => exact h
  | cons u ts => exact List.mem_cons_of_mem u (mem_of_mem_nextStatement h)

theorem conforms_recover (hc : Recovers c) (h : Conforms c T p Q) :
    Conforms c T (recover p) fun a? => ∀ a ∈ a?, Q a := by
  intro s hs
  have hp := h s hs
  rw [recover_run]
  cases he : p s with
  | ok a s' =>
    rw [he] at hp
    exact ⟨hp.1, hp.2.1, fun b hb => by cases hb; exact hp.2.2⟩
  | error e s' =>
    rw [he] at hp
    exact ⟨hc s s' hp.1, fun t ht => hp.2 t (mem_of_mem_synchronize ht), fun b hb => nomatch hb⟩

variable {d : Parser (Option RawStmt)} {forms : Forms}

theorem aptList_append {xs ys : List RawStmt} (hx : Stmt.AptList T xs)
    (hy : Stmt.AptList T ys) : Stmt.AptList T (xs ++ ys) := by
  induction xs with
  | nil => exact hy
  | cons x xs ih => exact ⟨hx.1, ih hx.2⟩

theorem aptList_toList {st? : Option RawStmt} (h : ∀ st ∈ st?, st.Apt T) :
    Stmt.AptList T st?.toList := by
  cases st? with
  | none => trivial
  | some st => exact ⟨h st rfl, trivial⟩

theorem conforms_declarations (h : Conforms c T d fun st? => ∀ st ∈ st?, st.Apt T)
    (bound : Nat) : Conforms c T (declarations d bound) (Stmt.AptList T) := by
  induction bound with
  | zero => exact .pure trivial
  | succ bound ih =>
    refine conforms_next?.bind fun t _ => ?_
    split
    · exact .pure trivial
    · refine h.bind fun first hf => ih.map fun ss hss => ?_
      exact aptList_append (aptList_toList hf) hss

structure Forms.Conforms (c : Conduct) (T : Token → Prop) (forms : Forms) : Prop where
  statement : Parser.Conforms c T forms.statement fun st => st.Apt T ∧ st.isPlain
  declaration : Parser.Conforms c T forms.declaration fun st? => ∀ st ∈ st?, st.Apt T

theorem conforms_block (h : forms.Conforms c T) :
    Conforms c T (block forms) (Stmt.AptList T) :=
  (conforms_declarations h.declaration forms.bound).bind fun _ hb =>
    (conforms_expect _ _).bind fun _ _ => .pure hb

theorem conforms_function (h : forms.Conforms c T) (k : Callable) :
    Conforms c T (function forms k) (Stmt.FunctionApt T) := by
  refine (conforms_name _).bind fun name hn => (conforms_expect _ _).bind fun _ _ => ?_
  refine (conforms_list rfl (conforms_name _) _).bind fun parameters hp => ?_
  refine (conforms_expect _ _).bind fun _ _ => (conforms_expect _ _).bind fun _ _ => ?_
  exact (conforms_block h).map fun body hb => ⟨hn, hp, hb⟩

theorem conforms_methods (h : forms.Conforms c T) (bound : Nat) :
    Conforms c T (methods forms bound) (Stmt.MethodsApt T) := by
  induction bound with
  | zero => exact .pure trivial
  | succ bound ih =>
    refine conforms_next?.bind fun t _ => ?_
    split
    · exact .pure trivial
    · exact (conforms_function h .method).bind fun f hf => ih.map fun fs hfs => ⟨hf, hfs⟩

theorem conforms_superclassClause :
    Conforms c T superclassClause fun k? => ∀ k ∈ k?, k.name.Names T := by
  refine (conforms_accept .less).bind fun t? _ => ?_
  cases t? with
  | none => exact .pure fun k hk => nomatch hk
  | some t => exact (conforms_name _).map fun name hn k hk => by cases hk; exact hn

theorem conforms_classDeclaration (h : forms.Conforms c T) (keyword : Token) :
    Conforms c T (classDeclaration forms keyword) (Stmt.Apt T) := by
  refine (conforms_name _).bind fun name hn => conforms_superclassClause.bind fun k? hk => ?_
  refine (conforms_expect _ _).bind fun _ _ => (conforms_methods h _).bind fun ms hm => ?_
  exact (conforms_expect _ _).bind fun _ _ => .pure ⟨hn, hk, hm⟩

theorem conforms_initializerClause (bound : Nat) :
    Conforms c T (initializerClause bound) (Expr.Apt? T) := by
  refine (conforms_accept .equal).bind fun t? _ => ?_
  cases t? with
  | none => exact .pure fun e he => nomatch he
  | some t => exact (conforms_expression bound).some

theorem conforms_varDeclaration (bound : Nat) :
    Conforms c T (varDeclaration bound) (Stmt.Apt T) :=
  (conforms_name _).bind fun _ hn => (conforms_initializerClause bound).bind fun _ hi =>
    (conforms_expect _ _).bind fun _ _ => .pure ⟨hn, hi⟩

theorem conforms_expressionStatement (bound : Nat) :
    Conforms c T (expressionStatement bound) fun st => st.Apt T ∧ st.isPlain :=
  conforms_next?.bind fun _ _ => (conforms_expression bound).bind fun _ he =>
    (conforms_expect _ _).bind fun _ _ => .pure ⟨he, rfl⟩

theorem conforms_optional (bound : Nat) (closing : Kind) :
    Conforms c T (optional bound closing) (Expr.Apt? T) := by
  refine (conforms_nextIs closing).bind fun b _ => ?_
  split
  · exact .pure fun e he => nomatch he
  · exact (conforms_expression bound).some

theorem desugarFor_apt (line : Nat) {initializer : Option RawStmt}
    (hi : ∀ st ∈ initializer, st.Apt T) {condition increment : Option RawExpr}
    (hc : Expr.Apt? T condition) (hn : Expr.Apt? T increment) {body : RawStmt}
    (hb : body.Apt T ∧ body.isPlain) :
    (desugarFor line initializer condition increment body).Apt T := by
  refine aptList_append (aptList_toList hi) ⟨⟨?_, ?_⟩, trivial⟩
  · cases condition with
    | none => trivial
    | some e => exact hc e rfl
  · cases increment with
    | none => exact hb
    | some e => exact ⟨⟨hb.1, hn e rfl, trivial⟩, rfl⟩

theorem conforms_forInitializer (bound : Nat) :
    Conforms c T (forInitializer bound) fun st? => ∀ st ∈ st?, st.Apt T := by
  refine (conforms_acceptIf _).bind fun t? _ => ?_
  cases t? with
  | none => exact ((conforms_expressionStatement bound).mono fun _ hs => hs.1).some
  | some t =>
    dsimp only
    split
    · exact .pure fun st hs => nomatch hs
    · exact (conforms_varDeclaration bound).some

theorem conforms_forStatement (h : forms.Conforms c T) (keyword : Token) :
    Conforms c T (forStatement forms keyword) fun st => st.Apt T ∧ st.isPlain := by
  refine (conforms_expect _ _).bind fun _ _ => (conforms_forInitializer _).bind fun i? hi => ?_
  refine (conforms_optional _ _).bind fun condition hc => (conforms_expect _ _).bind fun _ _ => ?_
  refine (conforms_optional _ _).bind fun increment hn => (conforms_expect _ _).bind fun _ _ => ?_
  exact h.statement.map fun body hb => ⟨desugarFor_apt _ hi hc hn hb, rfl⟩

theorem conforms_ifStatement (h : forms.Conforms c T) (keyword : Token) :
    Conforms c T (ifStatement forms keyword) fun st => st.Apt T ∧ st.isPlain := by
  refine (conforms_expect _ _).bind fun _ _ => (conforms_expression _).bind fun condition hc => ?_
  refine (conforms_expect _ _).bind fun _ _ => h.statement.bind fun thenBranch ht => ?_
  refine (conforms_accept _).bind fun t? _ => ?_
  cases t? with
  | none => exact .pure ⟨⟨hc, ht⟩, rfl⟩
  | some t => exact h.statement.map fun elseBranch he => ⟨⟨hc, ht, he⟩, rfl⟩

theorem conforms_printStatement (bound : Nat) (keyword : Token) :
    Conforms c T (printStatement bound keyword) fun st => st.Apt T ∧ st.isPlain :=
  (conforms_expression bound).bind fun _ he =>
    (conforms_expect _ _).bind fun _ _ => .pure ⟨he, rfl⟩

theorem conforms_returnStatement (bound : Nat) {keyword : Token}
    (hk : T keyword ∧ keyword.kind = .keyword .return_) :
    Conforms c T (returnStatement bound keyword) fun st => st.Apt T ∧ st.isPlain :=
  (conforms_optional bound _).bind fun _ he =>
    (conforms_expect _ _).bind fun _ _ => .pure ⟨⟨hk, he⟩, rfl⟩

theorem conforms_whileStatement (h : forms.Conforms c T) (keyword : Token) :
    Conforms c T (whileStatement forms keyword) fun st => st.Apt T ∧ st.isPlain := by
  refine (conforms_expect _ _).bind fun _ _ => (conforms_expression _).bind fun condition hc => ?_
  refine (conforms_expect _ _).bind fun _ _ => h.statement.map fun body hb => ⟨⟨hc, hb⟩, rfl⟩

theorem conforms_statement (h : forms.Conforms c T) :
    Conforms c T (statement forms) fun st => st.Apt T ∧ st.isPlain := by
  refine (conforms_acceptIf _).bind fun t? ht => ?_
  cases t? with
  | none => exact conforms_expressionStatement _
  | some t =>
    dsimp only
    split
    · exact conforms_forStatement h t
    · exact conforms_ifStatement h t
    · exact conforms_printStatement _ t
    · next hk => exact conforms_returnStatement _ ⟨(ht t rfl).1, hk⟩
    · exact conforms_whileStatement h t
    · exact (conforms_block h).map fun body hb => ⟨hb, rfl⟩

theorem conforms_declaration (h : forms.Conforms c T) :
    Conforms c T (declaration forms) (Stmt.Apt T) := by
  refine (conforms_acceptIf _).bind fun t? _ => ?_
  cases t? with
  | none => exact (conforms_statement h).mono fun _ hs => hs.1
  | some t =>
    dsimp only
    split
    · exact conforms_classDeclaration h t
    · exact (conforms_function h .function).map fun _ hf => hf
    · exact conforms_varDeclaration _

theorem conforms_nested (hc : Recovers c) (bound : Nat) :
    (Forms.mk bound (nestedStatement bound) (nestedDeclaration bound)).Conforms c T := by
  induction bound with
  | zero => exact ⟨conforms_fail _, conforms_recover hc (conforms_fail _)⟩
  | succ bound ih =>
    have h :
        (Forms.mk (bound + 1) (nestedStatement bound) (nestedDeclaration bound)).Conforms c T :=
      ⟨ih.statement, ih.declaration⟩
    exact ⟨conforms_statement h, conforms_recover hc (conforms_declaration h)⟩

theorem conforms_program (h : Conforms c T d fun st? => ∀ st ∈ st?, st.Apt T)
    (bound : Nat) : Conforms c T (program d bound) (Stmt.AptList T) := by
  induction bound with
  | zero => exact .pure trivial
  | succ bound ih =>
    refine conforms_next?.bind fun t _ => ?_
    split
    · exact .pure trivial
    · refine h.bind fun first hf => ih.map fun ss hss => ?_
      exact aptList_append (aptList_toList hf) hss

end Parser
end Lox
