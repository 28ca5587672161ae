import Lox.Proofs.Parsing

/-! Parsers that do not complain have found a derivation: of what they took off the front of the
tokens, and of what they made of it. -/

namespace Lox
namespace Parser
open Grammar
variable {α : Type}

section expressions
variable {nested operand : Parser RawExpr} {n r bound : Nat} {i : List Token}

theorem parses_primary (hn : ∀ o, o.length ≤ n → Parses nested o Expression)
    (h : i.length ≤ n + 1) : Parses (primary nested) i (Derives 0) := by
  refine .next ?_
  cases i with
  | nil => exact .fail _
  | cons t i =>
    rw [List.length_cons] at h
    dsimp only [List.head?_cons]
    split
    · next hk => exact .advance (.pure (.literal hk))
    · next hk => exact .advance (.pure (.this hk))
    · next hk => exact .advance (.pure (.read hk))
    · next hk =>
      refine .advance (.expect fun dot o _ hdot => .expect fun method o _ hmethod => .pure ?_)
      exact .super hk hdot hmethod
    · next hk =>
      refine .advance ((hn i (by omega)).bind fun ts inner o _ => .expect fun paren o _ hp => ?_)
      exact .pure fun _ hi => .grouping hk hi hp
    · exact .fail _

theorem parses_suffixes (hn : ∀ o, o.length ≤ n → Parses nested o Expression)
    (hi : i.length ≤ n + 1) (callee : RawExpr) (h : i.length ≤ bound) :
    Parses (suffixes nested callee bound) i fun us e =>
      ∀ ts, Derives 0 ts callee → Derives 0 (ts ++ us) e := by
  induction bound generalizing callee i with
  | zero => exact .pure fun ts hts => by rwa [List.append_nil]
  | succ bound ih =>
    refine .acceptIf (fun _ => .pure fun ts hts => by rwa [List.append_nil]) fun t o ho ht => ?_
    subst ho
    rw [List.length_cons] at hi h
    dsimp only
    split
    · next hopen =>
      have harguments : ∀ u : List Token, u.length ≤ o.length → Parses nested u Expression :=
        fun u hu => hn u (by omega)
      refine (parses_list harguments (fun a ha => ha.ne_nil rfl) (by omega)).bind
        fun us arguments o' ho' => .expect fun paren o'' hp hparen => ?_
      subst hp
      rw [List.length_cons] at ho'
      refine (ih (i := o'') (by omega) _ (by omega)).mono fun vs e hrest _ hus ts hts => ?_
      obtain ⟨items, hitems, hfew, hlisted, rfl⟩ := hus
      simpa using hrest _ (.call hts hopen hitems hfew hlisted hparen)
    · next hopen =>
      have hdot : t.kind = .dot := by simpa [hopen] using ht
      refine .expect fun name o' ho' hname => ?_
      subst ho'
      rw [List.length_cons] at hi h
      refine (ih (i := o') (by omega) _ (by omega)).mono fun vs e hrest ts hts => ?_
      simpa using hrest _ (.get hts hdot hname)

theorem parses_call (hn : ∀ o, o.length ≤ n → Parses nested o Expression) (h : i.length ≤ n + 1) :
    Parses (call (n + 1) nested) i (Derives 0) := by
  refine (parses_primary hn h).bind fun ts callee o ho => ?_
  refine (parses_suffixes hn (by omega) callee (by omega)).mono fun us e hrest _ hts => ?_
  exact hrest ts hts

theorem parses_unary (ho : ∀ o, o.length ≤ i.length → Parses operand o (Derives 0)) :
    Parses (unary operand bound) i (Derives 1) := by
  induction bound generalizing i with
  | zero => exact (ho i (Nat.le_refl _)).mono fun ts e he => .looser he
  | succ bound ih =>
    refine .acceptIf (fun _ => ?_) fun t o hi ht => ?_
    · exact (ho i (Nat.le_refl _)).mono fun ts e he => .looser he
    subst hi
    have hsign : t.kind = .bang ∨ t.kind = .minus := by simpa [isUnary] using ht
    refine .map ((ih fun u hu => ho u (Nat.le_succ_of_le hu)).mono fun us e he => ?_)
    exact .unary hsign he

namespace Level
variable {level : Level} {ts us : List Token} {left right : RawExpr} {operator : Token}

/-- The level is that of the binary operators of rank `r`. -/
structure Has (level : Level) (r : Nat) : Prop where
  low : 2 ≤ r
  high : r ≤ 7
  test_eq (k : Kind) : level.test k = (k.rank == r)
  binary : r ≤ 5 → level.build = .binary
  logical : 6 ≤ r → level.build = .logical

theorem Has.derives (hl : level.Has (r + 1)) (before : Derives (r + 1) ts left)
    (joins : operator.kind.rank = r + 1) (behind : Derives r us right) :
    Derives (r + 1) (ts ++ operator :: us) (level.build left operator right) := by
  have hlow := hl.low
  have hhigh := hl.high
  rcases Nat.lt_or_ge 4 r with h | h
  · rw [hl.logical (by omega)]
    exact .logical (by omega) (by omega) before joins behind
  · rw [hl.binary (by omega)]
    exact .binary (by omega) (by omega) before joins behind

/-- The levels are those of the ranks from `r + 1` on, one after another. -/
def Stacked : List Level → Nat → Prop
  | [], _ => True
  | level :: levels, r => level.Has (r + 1) ∧ Stacked levels (r + 1)

theorem test_eq (k : Kind) :
    factor.test k = (k.rank == 2) ∧ term.test k = (k.rank == 3) ∧
      comparison.test k = (k.rank == 4) ∧ equality.test k = (k.rank == 5) ∧
        conjunction.test k = (k.rank == 6) ∧ disjunction.test k = (k.rank == 7) := by
  cases k with
  | keyword word => cases word <;> exact ⟨rfl, rfl, rfl, rfl, rfl, rfl⟩
  | _ => exact ⟨rfl, rfl, rfl, rfl, rfl, rfl⟩

theorem all_stacked : Stacked all 1 :=
  ⟨⟨by omega, by omega, fun k => (test_eq k).1, fun _ => rfl, by omega⟩,
    ⟨by omega, by omega, fun k => (test_eq k).2.1, fun _ => rfl, by omega⟩,
    ⟨by omega, by omega, fun k => (test_eq k).2.2.1, fun _ => rfl, by omega⟩,
    ⟨by omega, by omega, fun k => (test_eq k).2.2.2.1, fun _ => rfl, by omega⟩,
    ⟨by omega, by omega, fun k => (test_eq k).2.2.2.2.1, by omega, fun _ => rfl⟩,
    ⟨by omega, by omega, fun k => (test_eq k).2.2.2.2.2, by omega, fun _ => rfl⟩, trivial⟩

theorem parses_chain (hl : level.Has (r + 1))
    (ho : ∀ o, o.length ≤ i.length → Parses operand o (Derives r)) (left : RawExpr) :
    Parses (level.chain operand left bound) i fun us e =>
      ∀ ts, Derives (r + 1) ts left → Derives (r + 1) (ts ++ us) e := by
  induction bound generalizing left i with
  | zero => exact .pure fun ts hts => by rwa [List.append_nil]
  | succ bound ih =>
    refine .acceptIf (fun _ => .pure fun ts hts => by rwa [List.append_nil]) fun t o hi ht => ?_
    subst hi
    have hrank : t.kind.rank = r + 1 := by simpa [hl.test_eq] using ht
    refine (ho o (Nat.le_succ _)).bind fun us right o' ho' => ?_
    have hrest := ih (i := o') (fun u hu => ho u (by rw [List.length_cons]; omega))
      (level.build left t right)
    refine hrest.mono fun vs e hvs _ hright ts hts => ?_
    simpa using hvs _ (hl.derives hts hrank hright)

theorem parses_level (hl : level.Has (r + 1))
    (ho : ∀ o, o.length ≤ i.length → Parses operand o (Derives r)) :
    Parses (level.parser bound operand) i (Derives (r + 1)) := by
  refine (ho i (Nat.le_refl _)).bind fun ts left o hshort => ?_
  refine (parses_chain hl (fun u hu => ho u (Nat.le_trans hu hshort)) left).mono ?_
  exact fun us e hrest _ hleft => hrest ts (.looser hleft)

theorem parses_foldl {levels : List Level} (hl : Stacked levels r)
    (ho : ∀ o, o.length ≤ i.length → Parses operand o (Derives r)) :
    Parses (levels.foldl (fun operand level => level.parser bound operand) operand) i
      (Derives (r + levels.length)) := by
  induction levels generalizing r operand with
  | nil => exact ho i (Nat.le_refl _)
  | cons level levels ih =>
    have hrank : r + (level :: levels).length = r + 1 + levels.length := by
      rw [List.length_cons]
      omega
    rw [List.foldl_cons, hrank]
    exact ih hl.2 fun o hshort =>
      parses_level hl.1 fun u hu => ho u (Nat.le_trans hu hshort)

end Level

theorem derives_of_assignTo {target value assigned : RawExpr} {equals : Token} {ts us : List Token}
    (ht : Derives 7 ts target) (hequals : equals.kind = .equal) (hv : Expression us value)
    (h : assignTo equals.line value target = some assigned) :
    Expression (ts ++ equals :: us) assigned := by
  cases target with
  | read name target =>
    cases h
    obtain ⟨rfl, hname⟩ := ht.of_read
    exact .assign hname hequals hv
  | get object name =>
    cases h
    obtain ⟨us', dot, rfl, howner, hdot, hname⟩ := ht.of_get
    simpa using Derives.set howner hdot hname hequals hv
  | _ => cases h

theorem parses_assignment (hn : ∀ o, o.length ≤ n → Parses nested o Expression)
    (h : i.length ≤ n + 1) : Parses (assignment (n + 1) nested) i Expression := by
  have hoperation : Parses (operation (n + 1) nested) i (Derives 7) :=
    Level.parses_foldl Level.all_stacked fun o ho =>
      parses_unary fun u hu => parses_call hn (by omega)
  refine hoperation.bind fun ts left o ho =>
    .acceptIf (fun _ => ?_) fun equals o' ho' ht => ?_
  · refine .pure fun _ hleft => ?_
    rw [List.append_nil]
    exact .looser hleft
  · subst ho'
    rw [List.length_cons] at ho
    refine (hn o' (by omega)).bind fun us value o'' _ => ?_
    cases ha : assignTo equals.line value left with
    | some assigned =>
      refine .pure fun _ hvalue _ hleft => ?_
      rw [List.append_nil]
      exact derives_of_assignTo hleft (eq_of_beq ht) hvalue ha
    | none => exact .complain (.pure (Q := fun _ _ => True) trivial)

theorem parses_expression (n : Nat) (h : i.length ≤ n) : Parses (expression n) i Expression := by
  induction n generalizing i with
  | zero => exact .fail _
  | succ n ih => exact parses_assignment (fun o ho => ih ho) h

end expressions

section clauses
variable {i : List Token} {bound : Nat}

theorem parses_superclassClause : Parses superclassClause i Inheritance := by
  refine .acceptIf (fun _ => .pure .none) fun less o _ hless => ?_
  refine .expectLast fun name hname => ?_
  exact .some (eq_of_beq hless) hname

theorem parses_initializerClause (h : i.length ≤ bound) :
    Parses (initializerClause bound) i Initializer := by
  refine .acceptIf (fun _ => .pure .none) fun equals o ho hequals => .map ?_
  subst ho
  refine (parses_expression bound (Nat.le_of_succ_le h)).mono fun ts e he => ?_
  exact .some (eq_of_beq hequals) he

theorem parses_optional {closing : Kind} (h : i.length ≤ bound) :
    Parses (optional bound closing) i Optional := by
  refine .nextIs ?_
  split
  · exact .pure .none
  · exact .map ((parses_expression bound h).mono fun ts e he => .some he)

theorem parses_varDeclaration (h : i.length ≤ bound) {keyword : Token}
    (hkeyword : keyword.kind = .keyword .var) :
    Parses (varDeclaration bound) i fun ts s => Variable (keyword :: ts) s := by
  refine .expect fun name o ho hname => ?_
  subst ho
  refine (parses_initializerClause (Nat.le_of_succ_le h)).bind fun ts value o' _ => ?_
  refine .expect fun semicolon o'' _ hends => .pure fun _ hvalue => ?_
  exact .mk hkeyword hname hvalue hends

theorem parses_expressionStatement (h : i.length ≤ bound) :
    Parses (expressionStatement bound) i Evaluation := by
  refine .next ((parses_expression bound h).bind fun ts e o _ => ?_)
  refine .expect fun semicolon o' _ hends => .pure fun hi he => ?_
  obtain ⟨first, ts, rfl⟩ := List.exists_cons_of_ne_nil he.ne_nil
  rw [hi]
  exact .mk he hends

theorem parses_parenthesized {open_ closing : Expected} {rest : RawExpr → Parser α}
    {R : List Token → α → Prop} (h : i.length ≤ bound)
    (hrest : ∀ ts e o, o.length ≤ i.length → Parses (rest e) o fun us a =>
      i = ts ++ o → Parenthesized ts e → R (ts ++ us) a) :
    Parses (do
      let _ ← expect .leftParen open_
      let condition ← expression bound
      let _ ← expect .rightParen closing
      rest condition) i R := by
  refine .expect fun opening o ho hopens => ?_
  subst ho
  refine (parses_expression bound (Nat.le_of_succ_le h)).bind fun ts e o' ho' => ?_
  refine .expect fun closing o'' ho'' hcloses => ?_
  subst ho''
  rw [List.length_cons] at ho'
  refine (hrest (opening :: (ts ++ [closing])) e o'' ?_).mono fun us a hR hi he => ?_
  · rw [List.length_cons]
    omega
  · simpa using hR (by simp [hi]) (.mk hopens he hcloses)

end clauses

/-- The tokens read are those of a statement, and an `else` that is left does not belong to it. -/
def Settled (i ts : List Token) (s : RawStmt) : Prop :=
  ∃ isOpen, Statement isOpen ts s ∧ (isOpen = true → ∀ o, i = ts ++ o → Detached o)

/-- The rules for nested statements find derivations in up to `n` tokens. -/
structure Forms.Sound (nested : Forms) (n : Nat) : Prop where
  bound : n ≤ nested.bound
  statement : ∀ i, i.length ≤ n → Parses nested.statement i (Settled i)
  declaration : ∀ i, i.length ≤ n → Parses nested.declaration i fun ts s? =>
    ∃ s, s?.toList = [s] ∧ Declaration ts s

section statements
variable {nested : Forms} {n : Nat} {i : List Token}

theorem parses_block (hn : nested.Sound n) (h : i.length ≤ n) :
    Parses (block nested) i fun ts body => ∃ us closing, ts = us ++ [closing] ∧
      closing.kind = .rightBrace ∧ Sequence Declaration us body := by
  have hloop : Parses (declarations nested.declaration nested.bound) i _ :=
    parses_loop Option.toList rfl (fun _ => rfl) rfl (fun _ hs => hs.ne_nil rfl)
      fun o ho => hn.declaration o (Nat.le_trans ho h)
  refine hloop.bind fun us body o _ => .expect fun closing o' _ hcloses => .pure ?_
  exact fun _ hbody => ⟨us, closing, rfl, hcloses, hbody.1⟩

theorem parses_function (hn : nested.Sound n) (h : i.length ≤ n) (c : Callable) :
    Parses (function nested c) i Grammar.Function := by
  have hbound := hn.bound
  refine .expect fun name o₁ h₁ hnamed => .expect fun opening o₂ h₂ hopens => ?_
  subst h₁ h₂
  simp only [List.length_cons] at h
  have hinputs (o : List Token) : Parses (expect .identifier .parameterName) o fun ts t =>
      ts = [t] ∧ t.kind = .identifier := by
    rw [← id_map (expect .identifier .parameterName)]
    exact .expectLast fun t ht => ⟨rfl, ht⟩
  refine (parses_list (fun o _ => hinputs o) (by simp) (by omega)).bind
    fun ts parameters o₃ ho₃ => .expect fun closing o₄ h₄ hcloses => ?_
  refine .expect fun begins o₅ h₅ hbegins => ?_
  subst h₄ h₅
  simp only [List.length_cons] at ho₃
  refine (parses_block hn (by omega)).bind fun us body o₆ _ => .pure ?_
  rintro - ⟨vs, ends, rfl, hends, items, hitems, rfl, rfl⟩ - ⟨inputs, hnames, hfew, hlisted, rfl⟩
  have hlists : inputs.map Prod.fst = (inputs.map Prod.snd).map ([·]) := by
    rw [List.map_map]
    exact List.map_congr_left fun t ht => (hnames t ht).1
  have hkinds : ∀ t ∈ inputs.map Prod.snd, t.kind = .identifier := by
    intro t ht
    obtain ⟨u, hu, rfl⟩ := List.mem_map.1 ht
    exact (hnames u hu).2
  rw [hlists] at hlisted
  simpa using Grammar.Function.mk hnamed hopens hkinds (by simpa using hfew) hlisted hcloses
    hbegins hitems hends

theorem parses_methods (hn : nested.Sound n) (h : i.length ≤ n) :
    Parses (methods nested nested.bound) i (Sequence Grammar.Function) := by
  have hloop : Parses (methods nested nested.bound) i _ :=
    parses_loop (fun f => [f]) rfl (fun _ => rfl) rfl (fun _ hf => hf.ne_nil rfl) fun o ho =>
      (parses_function hn (Nat.le_trans ho h) .method).mono fun ts f hf => ⟨f, rfl, hf⟩
  exact hloop.mono fun ts fs hfs => hfs.1

theorem parses_classDeclaration (hn : nested.Sound n) (h : i.length ≤ n) {keyword : Token}
    (hkeyword : keyword.kind = .keyword .class_) :
    Parses (classDeclaration nested keyword) i fun ts s => Declaration (keyword :: ts) s := by
  refine .expect fun name o₁ h₁ hnamed => ?_
  subst h₁
  rw [List.length_cons] at h
  refine parses_superclassClause.bind fun ts above o₂ ho₂ => .expect fun opening o₃ h₃ hopens => ?_
  subst h₃
  rw [List.length_cons] at ho₂
  refine (parses_methods hn (by omega)).bind fun us fs o₄ _ => ?_
  refine .expect fun closing o₅ _ hcloses => .pure ?_
  rintro - ⟨items, hitems, rfl, rfl⟩ - habove
  exact .class_ hkeyword hnamed habove hopens hitems hcloses

/-- A statement that a nested one ends. -/
theorem Settled.behind {i us o : List Token} {s t : RawStmt} (ts : List Token) (h : Settled o us s)
    (hi : i = ts ++ o)
    (hrule : ∀ isOpen, Statement isOpen us s → Statement isOpen (ts ++ us) t) :
    Settled i (ts ++ us) t := by
  obtain ⟨isOpen, hs, hdetached⟩ := h
  refine ⟨isOpen, hrule isOpen hs, fun hopen v hv => hdetached hopen v ?_⟩
  rw [hi, List.append_assoc] at hv
  exact List.append_cancel_left hv

theorem Settled.closed {i ts : List Token} {s : RawStmt} (h : Statement false ts s) :
    Settled i ts s :=
  ⟨false, h, fun hopen => Bool.noConfusion hopen⟩

theorem parses_whileStatement (hn : nested.Sound n) (h : i.length ≤ n) {keyword : Token}
    (hkeyword : keyword.kind = .keyword .while_) :
    Parses (whileStatement nested keyword) i fun ts s =>
      Settled (keyword :: i) (keyword :: ts) s := by
  have hbound := hn.bound
  refine parses_parenthesized (by omega) fun ts condition o ho => ?_
  refine (hn.statement o (by omega)).bind fun us body o' _ => .pure fun _ hbody hi htested => ?_
  rw [List.append_nil]
  exact hbody.behind (keyword :: ts) (by rw [hi]; rfl) fun isOpen hb =>
    .while_ hkeyword htested hb

theorem parses_ifStatement (hn : nested.Sound n) (h : i.length ≤ n) {keyword : Token}
    (hkeyword : keyword.kind = .keyword .if_) :
    Parses (ifStatement nested keyword) i fun ts s => Settled (keyword :: i) (keyword :: ts) s := by
  have hbound := hn.bound
  refine parses_parenthesized (by omega) fun ts condition o ho => ?_
  refine (hn.statement o (by omega)).bind fun us thenBranch o₁ ho₁ =>
    .acceptIf (fun hnext => .pure ?_) fun else_ o₂ h₂ helse => ?_
  · rintro hus ⟨isOpen, hthen, -⟩ hi htested
    rw [List.append_nil]
    refine ⟨true, .ifThen hkeyword htested hthen, fun _ v hv t ht => ?_⟩
    rw [hi, hus] at hv
    obtain rfl : o₁ = v := by simpa using hv
    simpa using hnext t ht
  · subst h₂
    rw [List.length_cons] at ho₁
    refine (hn.statement o₂ (by omega)).bind fun vs elseBranch o₃ _ => .pure ?_
    rintro - helseBranch hus ⟨isOpen, hthen, hdetached⟩ hi htested
    -- The branch has left the `else`, so that it could not have been its own.
    cases isOpen with
    | true => exact absurd (eq_of_beq helse) (hdetached rfl _ hus else_ rfl)
    | false =>
      have hall := helseBranch.behind (i := keyword :: i) (keyword :: (ts ++ (us ++ [else_])))
        (by simp [hi, hus]) fun isOpen hb => by
          simpa using Statement.ifElse hkeyword htested hthen (eq_of_beq helse) hb
      simpa using hall

theorem parses_forInitializer {bound : Nat} (h : i.length ≤ bound) :
    Parses (forInitializer bound) i LoopInitializer := by
  refine .acceptIf (fun _ => ?_) fun t o ho ht => ?_
  · exact .map ((parses_expressionStatement h).mono fun ts s hs => .evaluation hs)
  · subst ho
    dsimp only
    split
    · next hk => exact .pure (.none hk)
    · next hk =>
      have hvar : t.kind = .keyword .var := by simpa [hk] using ht
      refine .map ((parses_varDeclaration (Nat.le_of_succ_le h) hvar).mono fun ts s hs => ?_)
      exact .variable_ hs

theorem desugarFor_eq (line : Nat) (initializer : Option RawStmt)
    (condition increment : Option RawExpr) (body : RawStmt) :
    desugarFor line initializer condition increment body =
      .block line (initializer.toList ++
        [.while_ line (condition.getD (.literal line (.bool true)))
          (increment.elim body fun e => .block line [body, .expression line e])]) := by
  cases increment <;> rfl

theorem parses_forStatement (hn : nested.Sound n) (h : i.length ≤ n) {keyword : Token}
    (hkeyword : keyword.kind = .keyword .for_) :
    Parses (forStatement nested keyword) i fun ts s =>
      Settled (keyword :: i) (keyword :: ts) s := by
  have hbound := hn.bound
  refine .expect fun opening o₁ h₁ hopens => ?_
  subst h₁
  rw [List.length_cons] at h
  refine (parses_forInitializer (by omega)).bind fun ts initializer o₂ ho₂ => ?_
  refine (parses_optional (by omega)).bind fun us condition o₃ ho₃ =>
    .expect fun semicolon o₄ h₄ hdivides => ?_
  subst h₄
  rw [List.length_cons] at ho₃
  refine (parses_optional (by omega)).bind fun vs increment o₅ ho₅ =>
    .expect fun closing o₆ h₆ hcloses => ?_
  subst h₆
  rw [List.length_cons] at ho₅
  refine (hn.statement o₆ (by omega)).bind fun ws body o₇ _ => .pure ?_
  rintro - hbody hvs hincrement hus hcondition hts hinitializer
  rw [desugarFor_eq]
  have hall := hbody.behind (i := keyword :: opening :: o₁)
    (keyword :: opening :: (ts ++ (us ++ semicolon :: (vs ++ [closing]))))
    (by simp [hts, hus, hvs]) fun isOpen hb => by
      simpa using Statement.for_ hkeyword hopens hinitializer hcondition hdivides hincrement
        hcloses hb
  simpa using hall

theorem parses_printStatement {bound : Nat} (h : i.length ≤ bound) {keyword : Token}
    (hkeyword : keyword.kind = .keyword .print) :
    Parses (printStatement bound keyword) i fun ts s => Statement false (keyword :: ts) s := by
  refine (parses_expression bound h).bind fun ts e o _ => .expect fun semicolon o' _ hends => ?_
  exact .pure fun _ he => .print hkeyword he hends

theorem parses_returnStatement {bound : Nat} (h : i.length ≤ bound) {keyword : Token}
    (hkeyword : keyword.kind = .keyword .return_) :
    Parses (returnStatement bound keyword) i fun ts s => Statement false (keyword :: ts) s := by
  refine (parses_optional h).bind fun ts value o _ => .expect fun semicolon o' _ hends => ?_
  exact .pure fun _ hvalue => .return_ hkeyword hvalue hends

theorem parses_statement (hn : nested.Sound n) (h : i.length ≤ n + 1) (hb : n + 1 ≤ nested.bound) :
    Parses (statement nested) i (Settled i) := by
  refine .acceptIf (fun _ => ?_) fun t o ho ht => ?_
  · refine (parses_expressionStatement (by omega)).mono fun ts s hs => ?_
    exact .closed (.evaluation hs)
  · subst ho
    have hshort : o.length ≤ n := Nat.le_of_succ_le_succ h
    dsimp only
    split
    · next hk => exact parses_forStatement hn hshort hk
    · next hk => exact parses_ifStatement hn hshort hk
    · next hk =>
      exact (parses_printStatement (by omega) hk).mono fun ts s hs => .closed hs
    · next hk =>
      exact (parses_returnStatement (by omega) hk).mono fun ts s hs => .closed hs
    · next hk => exact parses_whileStatement hn hshort hk
    · next hfor hif hprint hreturn hwhile =>
      have hopens : t.kind = .leftBrace := by
        grind [startsPlainStatement]
      refine (parses_block hn hshort).bind fun ts body o' _ => .pure ?_
      rintro - ⟨us, closing, rfl, hcloses, items, hitems, rfl, rfl⟩
      rw [List.append_nil]
      exact .closed (.block hopens hitems hcloses)

theorem parses_declaration (hn : nested.Sound n) (h : i.length ≤ n + 1)
    (hb : n + 1 ≤ nested.bound) : Parses (declaration nested) i Declaration := by
  refine .acceptIf (fun _ => ?_) fun t o ho ht => ?_
  · refine (parses_statement hn h hb).mono fun ts s hs => ?_
    obtain ⟨isOpen, hs, -⟩ := hs
    exact .statement hs
  · subst ho
    have hshort : o.length ≤ n := Nat.le_of_succ_le_succ h
    dsimp only
    split
    · next hk => exact parses_classDeclaration hn hshort hk
    · next hk =>
      exact .map ((parses_function hn hshort .function).mono fun ts f hf => .function hk hf)
    · next hclass hfun =>
      have hvar : t.kind = .keyword .var := by
        grind [startsDeclaration]
      refine (parses_varDeclaration (by omega) hvar).mono fun ts s hs => ?_
      exact .variable_ hs

theorem length_nextStatement_le (previous : Token) (ts : List Token) :
    (nextStatement previous ts).length ≤ ts.length := by
  induction ts generalizing previous with
  | nil => exact Nat.le_refl 0
  | cons t ts ih =>
    unfold nextStatement
    split
    · exact Nat.le_refl _
    · exact Nat.le_succ_of_le (ih t)

theorem length_synchronize_le (ts : List Token) : (synchronize ts).length ≤ ts.length := by
  cases ts with
  | nil => exact Nat.le_refl 0
  | cons t ts => exact Nat.le_succ_of_le (length_nextStatement_le t ts)

theorem Parses.recover {p : Parser α} {Q : List Token → α → Prop} (h : Parses p i Q) :
    Parses (recover p) i fun ts a? => ∃ a, a?.toList = [a] ∧ Q ts a := by
  intro cs
  have hp := h cs
  rw [recover_run]
  cases he : p ⟨i, cs⟩ with
  | ok a s =>
    rw [he] at hp
    obtain ⟨hshort, hmore, hquiet⟩ := hp
    refine ⟨hshort, hmore, fun hq => ?_⟩
    obtain ⟨ts, hi, ha⟩ := hquiet hq
    exact ⟨ts, hi, a, rfl, ha⟩
  | error e s =>
    rw [he] at hp
    have hshort := Nat.le_trans (length_synchronize_le s.tokens) hp.1
    exact ⟨hshort, Nat.le_of_lt hp.2, fun hq => absurd hq (Nat.ne_of_gt hp.2)⟩

theorem nested_sound (n : Nat) : Forms.Sound ⟨n, nestedStatement n, nestedDeclaration n⟩ n := by
  induction n with
  | zero => exact ⟨Nat.le_refl 0, fun i _ => .fail _, fun i _ => .recover (.fail _)⟩
  | succ n ih =>
    have hn : Forms.Sound ⟨n + 1, nestedStatement n, nestedDeclaration n⟩ n :=
      ⟨Nat.le_succ n, ih.statement, ih.declaration⟩
    exact ⟨Nat.le_refl _, fun i hi => parses_statement hn hi (Nat.le_refl _),
      fun i hi => .recover (parses_declaration hn hi (Nat.le_refl _))⟩

theorem parses_program (h : i.length ≤ n) :
    Parses (program (nestedDeclaration n) n) i fun ts ss =>
      Sequence Declaration ts ss ∧ ∀ o, i = ts ++ o → o = [] := by
  have hloop : Parses (program (nestedDeclaration n) n) i _ :=
    parses_loop Option.toList rfl (fun _ => rfl) rfl (fun _ hs => hs.ne_nil rfl)
      fun o ho => (nested_sound n).declaration o (Nat.le_trans ho h)
  refine hloop.mono fun ts ss hss => ⟨hss.1, fun o ho => ?_⟩
  simpa using hss.2 h o ho

end statements
end Parser

namespace Parse

theorem program_of_run {tokens : List Token} {ss : List RawStmt} {s : ParserState}
    (h : Parser.program (Parser.nestedDeclaration tokens.length) tokens.length ⟨tokens, []⟩ =
      .ok ss s) : program tokens = ⟨ss, s.complaints.reverse⟩ := by
  unfold program EStateM.run
  simp only [h]

/-- The tokens that the parser has nothing to complain about derive the program that it builds. -/
theorem derives_of_complaints_eq_nil {tokens : List Token}
    (h : (program tokens).complaints = []) : Grammar.Program tokens (program tokens).value := by
  have hparses := Parser.parses_program (Nat.le_refl tokens.length) []
  cases he : Parser.program (Parser.nestedDeclaration tokens.length) tokens.length ⟨tokens, []⟩ with
  | ok ss s =>
    rw [he] at hparses
    rw [program_of_run he] at h ⊢
    have hquiet : s.complaints = [] := List.reverse_eq_nil_iff.1 h
    obtain ⟨ts, hts, hderives, hrest⟩ := hparses.2.2 (by rw [hquiet])
    rw [hrest s.tokens hts, List.append_nil] at hts
    rwa [hts]
  | error e s =>
    rw [he] at hparses
    have hcomplaints : (program tokens).complaints = s.complaints.reverse := by
      unfold program EStateM.run
      simp only [he]
    rw [hcomplaints, List.reverse_eq_nil_iff] at h
    have hnoise := hparses.2
    rw [h] at hnoise
    exact absurd hnoise (Nat.lt_irrefl 0)

end Parse
end Lox
