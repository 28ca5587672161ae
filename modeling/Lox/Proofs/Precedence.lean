import Lox.Proofs.Derivation
import Lox.Proofs.Reading

/-! The grammar of expressions reads what derives. For each rank there is a parser that reads the
forms up to this rank, provided that no form of them could go on with what follows. -/

namespace Lox

/-- No form of a rank up to `r` goes on with these tokens. -/
def Ends (r : Nat) (ts : List Token) : Prop := ∀ t ∈ ts.head?, r < t.kind.rank

theorem Ends.mono {r r' : Nat} {ts : List Token} (h : Ends r ts) (hr : r' ≤ r) : Ends r' ts :=
  fun t ht => Nat.lt_of_le_of_lt hr (h t ht)

theorem Ends.cons {r : Nat} {t : Token} (h : r < t.kind.rank) (ts : List Token) :
    Ends r (t :: ts) := by
  rintro u ⟨⟩
  exact h

namespace Parser
open Grammar
variable {nested operand : Parser RawExpr} {n r bound : Nat} {e : RawExpr}
  {is ts o : List Token} {a : RawExpr}

/-- The parser reads every form of rank `r` that derives from `n` tokens at most. -/
def Covers (q : Parser RawExpr) (r n : Nat) : Prop :=
  ∀ e ts o, Derives r ts e → ts.length ≤ n → Ends r o → Reads q (ts ++ o) e o

section primary

theorem primary_literal {t : Token} {value : Literal} (h : t.kind = .literal value) :
    Reads (primary nested) (t :: ts) (.literal t.line value) ts := by
  refine .bind (.next _) ?_
  simp only [List.head?_cons, h]
  exact .bind (.advance t ts) (.pure _ _)

theorem primary_read {t : Token} (h : t.kind = .identifier) :
    Reads (primary nested) (t :: ts) (.read t ()) ts := by
  refine .bind (.next _) ?_
  simp only [List.head?_cons, h]
  exact .bind (.advance t ts) (.pure _ _)

theorem primary_this {t : Token} (h : t.kind = .keyword .this) :
    Reads (primary nested) (t :: ts) (.this t ()) ts := by
  refine .bind (.next _) ?_
  simp only [List.head?_cons, h]
  exact .bind (.advance t ts) (.pure _ _)

theorem primary_super {t dot method : Token} (h : t.kind = .keyword .super)
    (hdot : dot.kind = .dot) (hmethod : method.kind = .identifier) :
    Reads (primary nested) (t :: dot :: method :: ts) (.super t () method) ts := by
  refine .bind (.next _) ?_
  simp only [List.head?_cons, h]
  refine .bind (.advance t _) (.bind (.expect hdot _) ?_)
  exact .bind (.expect hmethod _) (.pure _ _)

theorem primary_grouping {t paren : Token} (h : t.kind = .leftParen)
    (hparen : paren.kind = .rightParen) (hinner : Reads nested ts a (paren :: o)) :
    Reads (primary nested) (t :: ts) (.grouping t.line a) o := by
  refine .bind (.next _) ?_
  simp only [List.head?_cons, h]
  refine .bind (.advance t _) (.bind hinner ?_)
  exact .bind (.expect hparen _) (.pure _ _)

end primary

section suffixes
variable {callee : RawExpr}

theorem suffixes_done (h : Ends 0 ts) : Reads (suffixes nested callee bound) ts callee ts := by
  cases bound with
  | zero => exact .pure _ _
  | succ bound =>
    refine .bind (.decline fun t ht => ?_) (.pure _ _)
    have hr := h t ht
    cases hk : t.kind <;> rw [hk] at hr <;> first | rfl | exact absurd hr (by decide)

theorem suffixes_call {open_ close : Token} {arguments : List RawExpr} {is : List Token}
    (hopen : open_.kind = .leftParen) (hclose : close.kind = .rightParen)
    (harguments : Reads (list bound .tooManyArguments nested) is arguments (close :: ts))
    (h : Reads (suffixes nested (.call callee close arguments) bound) ts a o) :
    Reads (suffixes nested callee (bound + 1)) (open_ :: is) a o := by
  refine .bind (.acceptIf (by rw [hopen]; rfl)) ?_
  simp only [hopen, if_true]
  exact .bind harguments (.bind (.expect hclose _) h)

theorem suffixes_get {dot name : Token} (hdot : dot.kind = .dot) (hname : name.kind = .identifier)
    (h : Reads (suffixes nested (.get callee name) bound) ts a o) :
    Reads (suffixes nested callee (bound + 1)) (dot :: name :: ts) a o := by
  refine .bind (.acceptIf (by rw [hdot]; rfl)) ?_
  have hne : ¬dot.kind = .leftParen := by
    rw [hdot]
    decide
  simp only [if_neg hne]
  exact .bind (.expect hname _) h

end suffixes

section call

theorem arguments_reads (hn : Covers nested 8 n) {items : List (List Token × RawExpr)}
    {close : Token} (hitems : ∀ d ∈ items, Expression d.1 d.2) (hfew : items.length ≤ maxArity)
    (hlisted : Separated (items.map Prod.fst) is) (hlen : is.length ≤ n)
    (hbound : is.length ≤ bound) (hclose : close.kind = .rightParen) :
    Reads (list bound .tooManyArguments nested) (is ++ close :: ts) (items.map Prod.snd)
      (close :: ts) := by
  have hcount := hlisted.count_le
  rw [List.length_map] at hcount
  refine list_reads _ hclose items bound hlisted ?_ ?_ hfew (by omega)
  · intro d hd u us hu
    have hd' := hlisted.length_le _ (List.mem_map_of_mem hd)
    refine hn d.2 d.1 _ (hitems d hd) (Nat.le_trans hd' hlen) (.cons ?_ _)
    rcases hu with hu | hu <;> rw [hu] <;> decide
  · intro d hd
    obtain ⟨t, us, ht, hs, -⟩ := (hitems d hd).head
    exact ⟨t, us, ht, Kind.ne_of_startsExpression hs rfl⟩

/-- Reading a callee with all that follows it is going on behind the callee, with the turns left
that it did not take. -/
theorem call_spine (hn : Covers nested 8 n) (he : Derives r ts e) (hr : r = 0)
    (hlen : ts.length ≤ n + 1) (hbound : n + 1 ≤ bound)
    (h : ∀ k, bound < k + ts.length → Reads (suffixes nested e k) is a o) :
    Reads (call bound nested) (ts ++ is) a o := by
  induction he generalizing is with
  | literal kind => exact .bind (primary_literal kind) (h bound (Nat.lt_succ_self _))
  | this spelled => exact .bind (primary_this spelled) (h bound (Nat.lt_succ_self _))
  | read named => exact .bind (primary_read named) (h bound (Nat.lt_succ_self _))
  | super spelled dotted named =>
    refine .bind (primary_super spelled dotted named) (h bound ?_)
    exact Nat.lt_add_of_pos_right (Nat.succ_pos _)
  | @grouping opening closing ts inner opens inside closes =>
    simp only [List.length_cons, List.length_append] at hlen h
    have hinner := hn inner ts (closing :: is) inside (by omega) (.cons (by rw [closes]; decide) _)
    rw [List.cons_append, List.append_assoc]
    exact .bind (primary_grouping opens closes hinner) (h bound (by omega))
  | call called opens inside few listed closes ih =>
    simp only [List.length_append, List.length_cons, List.length_nil] at hlen h
    rw [List.append_assoc, List.cons_append, List.append_assoc]
    -- Turns are counted by tokens, so the callee has left one for its argument list.
    refine ih hr (by omega) fun k hk => ?_
    obtain ⟨k, rfl⟩ : ∃ k', k = k' + 1 := ⟨k - 1, by omega⟩
    exact suffixes_call opens closes
      (arguments_reads hn inside few listed (by omega) (by omega) closes) (h k (by omega))
  | get owner dotted named ih =>
    simp only [List.length_append, List.length_cons, List.length_nil] at hlen h
    rw [List.append_assoc]
    refine ih hr (by omega) fun k hk => ?_
    obtain ⟨k, rfl⟩ : ∃ k', k = k' + 1 := ⟨k - 1, by omega⟩
    exact suffixes_get dotted named (h k (by omega))
  | _ => omega

theorem call_covers (hn : Covers nested 8 n) : Covers (call (n + 1) nested) 0 (n + 1) :=
  fun _ _ _ he hlen ho =>
    call_spine hn he rfl hlen (Nat.le_refl _) fun _ _ => suffixes_done ho

end call

section unary

theorem unary_covers (ho : Covers operand 0 n) (hbound : n ≤ bound) :
    Covers (unary operand bound) 1 n := by
  intro e ts us he hlen hus
  have hturns : ts.length ≤ bound := Nat.le_trans hlen hbound
  clear hbound
  induction bound generalizing e ts with
  | zero => exact absurd (List.eq_nil_of_length_eq_zero (Nat.le_zero.1 hturns)) he.ne_nil
  | succ bound ih =>
    cases he with
    | @unary operator ts right sign inside =>
      have hs : isUnary operator.kind = true := by
        rcases sign with h | h <;> rw [h] <;> rfl
      rw [List.length_cons] at hlen hturns
      refine .bind (.acceptIf hs) ?_
      exact .bind (ih right ts inside (by omega) (by omega)) (.pure _ _)
    | looser closely =>
      obtain ⟨t, vs, rfl, -, hsign⟩ := closely.head
      have hnone : ∀ u ∈ (t :: vs ++ us).head?, isUnary u.kind = false := by
        rintro u ⟨⟩
        simpa [isUnary] using hsign rfl
      exact .bind (.decline hnone) (ho e _ us closely hlen (hus.mono (Nat.zero_le _)))
    | binary lowest => omega
    | logical lowest => omega

end unary

namespace Level
variable {level : Level} {left : RawExpr}

theorem chain_done (hl : level.Has r) (h : Ends r ts) :
    Reads (level.chain operand left bound) ts left ts := by
  cases bound with
  | zero => exact .pure _ _
  | succ bound =>
    refine .bind (.decline fun t ht => ?_) (.pure _ _)
    have hr := h t ht
    rw [hl.test_eq, beq_eq_false_iff_ne]
    omega

theorem chain_turn {operator : Token} {right : RawExpr} (hl : level.Has r)
    (hoperator : operator.kind.rank = r) (hright : Reads operand is right ts)
    (h : Reads (level.chain operand (level.build left operator right) bound) ts a o) :
    Reads (level.chain operand left (bound + 1)) (operator :: is) a o := by
  have ht : level.test operator.kind = true := by rw [hl.test_eq, hoperator, beq_self_eq_true]
  exact .bind (.acceptIf ht) (.bind hright h)

/-- Induction over the left operands of the level's operators. -/
theorem Has.induct (hl : level.Has (r + 1)) {motive : List Token → RawExpr → Prop}
    (operand : ∀ ts e, Derives r ts e → motive ts e)
    (join : ∀ ts left operator us right, operator.kind.rank = r + 1 → Derives r us right →
      motive ts left → motive (ts ++ operator :: us) (level.build left operator right))
    (he : Derives (r + 1) ts e) : motive ts e := by
  have hlow := hl.low
  have hhigh := hl.high
  generalize hr : r + 1 = r' at he
  induction he with
  | binary _ highest before joins behind ih =>
    cases hr
    rw [← hl.binary (by omega)]
    exact join _ _ _ _ _ joins behind (ih rfl)
  | logical lowest _ before joins behind ih =>
    cases hr
    rw [← hl.logical (by omega)]
    exact join _ _ _ _ _ joins behind (ih rfl)
  | looser closely =>
    cases hr
    exact operand _ _ closely
  | _ => omega

/-- Reading an operand with all that follows it on the level is going on behind the operand. -/
theorem parser_spine (hl : level.Has (r + 1)) (hq : Covers operand r n)
    (he : Derives (r + 1) ts e) (hlen : ts.length ≤ n) (hbound : n ≤ bound) (his : Ends r is)
    (h : ∀ k, bound < k + ts.length → Reads (level.chain operand e k) is a o) :
    Reads (level.parser bound operand) (ts ++ is) a o := by
  refine hl.induct
    (motive := fun ts e => ∀ is, ts.length ≤ n → Ends r is →
      (∀ k, bound < k + ts.length → Reads (level.chain operand e k) is a o) →
      Reads (level.parser bound operand) (ts ++ is) a o) ?_ ?_ he is hlen his h
  · intro ts e he is hlen his h
    have hpos := List.length_pos_iff.2 he.ne_nil
    exact .bind (hq e ts is he hlen his) (h bound (by omega))
  · intro ts left operator us right hoperator hright ih is hlen his h
    rw [List.length_append, List.length_cons] at hlen h
    rw [List.append_assoc, List.cons_append]
    have hnext := hq right us is hright (by omega) his
    refine ih _ (by omega) (.cons (by omega) _) fun k hk => ?_
    obtain ⟨k, rfl⟩ : ∃ k', k = k' + 1 := ⟨k - 1, by omega⟩
    exact chain_turn hl hoperator hnext (h k (by omega))

theorem parser_covers (hl : level.Has (r + 1)) (hq : Covers operand r n) (hbound : n ≤ bound) :
    Covers (level.parser bound operand) (r + 1) n :=
  fun _ _ _ he hlen ho => parser_spine hl hq he hlen hbound (ho.mono (Nat.le_succ r)) fun _ _ =>
    chain_done hl ho

theorem foldl_covers {levels : List Level} (hl : Stacked levels r) (hq : Covers operand r n)
    (hbound : n ≤ bound) :
    Covers (levels.foldl (fun operand level => level.parser bound operand) operand)
      (r + levels.length) n := by
  induction levels generalizing r operand with
  | nil => exact hq
  | cons level levels ih =>
    have hrank : r + (level :: levels).length = r + 1 + levels.length := by
      rw [List.length_cons]
      omega
    rw [List.foldl_cons, hrank]
    exact ih hl.2 (parser_covers hl.1 hq hbound)

end Level

section assignment

theorem operation_covers (hn : Covers nested 8 n) :
    Covers (operation (n + 1) nested) 7 (n + 1) :=
  Level.foldl_covers Level.all_stacked
    (unary_covers (call_covers hn) (Nat.le_refl _)) (Nat.le_refl _)

theorem assignment_plain {left : RawExpr} {is : List Token}
    (hleft : Reads (operation bound nested) is left ts) (hts : Ends 8 ts) :
    Reads (assignment bound nested) is left ts := by
  refine .bind hleft (.bind (.decline fun t ht => ?_) (.pure _ _))
  have hr := hts t ht
  rw [beq_eq_false_iff_ne]
  intro hk
  rw [hk] at hr
  exact absurd hr (by decide)

theorem assignment_assign {left value assigned : RawExpr} {equals : Token} {is vs : List Token}
    (hequals : equals.kind = .equal) (hleft : Reads (operation bound nested) is left (equals :: vs))
    (hvalue : Reads nested vs value ts) (h : assignTo equals.line value left = some assigned) :
    Reads (assignment bound nested) is assigned ts := by
  refine .bind hleft (.bind (.acceptIf (by rw [hequals]; rfl)) (.bind hvalue ?_))
  rw [h]
  exact .pure _ _

theorem assignment_covers (hn : Covers nested 8 n) :
    Covers (assignment (n + 1) nested) 8 (n + 1) := by
  have ho := operation_covers hn
  intro e ts us he hlen hus
  -- The target is read as an expression first, and then built anew with the value.
  cases he with
  | looser closely => exact assignment_plain (ho e ts us closely hlen (hus.mono (by decide))) hus
  | @assign name equals ts value named sign assigned =>
    simp only [List.length_cons] at hlen
    have hname : Derives 7 [name] _ := (Derives.read named).looser_le (Nat.zero_le 7)
    have hleft := ho _ [name] (equals :: (ts ++ us)) hname
      (Nat.succ_pos _) (.cons (by rw [sign]; decide) _)
    exact assignment_assign sign hleft (hn value ts us assigned (by omega) hus) rfl
  | @set dot name equals os ts object value owner dotted named sign assigned =>
    simp only [List.length_append, List.length_cons] at hlen
    have hleft := ho _ (os ++ [dot, name]) (equals :: (ts ++ us))
      ((owner.get dotted named).looser_le (Nat.zero_le 7))
      (by simp only [List.length_append, List.length_cons, List.length_nil]; omega)
      (.cons (by rw [sign]; decide) _)
    rw [List.append_assoc] at hleft ⊢
    exact assignment_assign sign hleft (hn value ts us assigned (by omega) hus) rfl
  | binary _ highest => omega
  | logical _ highest => omega

theorem expression_covers (n : Nat) : Covers (expression n) 8 n := by
  induction n with
  | zero =>
    intro e ts o he hlen
    exact absurd (List.eq_nil_of_length_eq_zero (Nat.le_zero.1 hlen)) he.ne_nil
  | succ n ih => exact assignment_covers ih

/-- An expression is read in front of any token that no expression goes on with. -/
theorem expression_reads {t : Token} (he : Expression ts e) (hbound : ts.length ≤ bound)
    (ht : t.kind.rank = 9) : Reads (expression bound) (ts ++ t :: o) e (t :: o) :=
  expression_covers bound e ts _ he hbound (.cons (by omega) o)

end assignment

end Parser
end Lox
