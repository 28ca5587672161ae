import Lox.Syntax
import Lox.Problem

/-! The grammar: which tokens are written for which trees. What stands side by side in a rule stands
side by side in the tokens, so the tokens of a derivation are those of its leaves in their order. -/

namespace Lox

/-- How loosely the forms bind that go on with a token of this kind behind an operand. Kinds that
no form goes on with come last. -/
def Kind.rank : Kind → Nat
  | leftParen | dot => 0
  | slash | star => 2
  | minus | plus => 3
  | greater | greaterEqual | less | lessEqual => 4
  | notEqual | equalEqual => 5
  | keyword .and_ => 6
  | keyword .or_ => 7
  | equal => 8
  | _ => 9

def Kind.startsExpression : Kind → Bool
  | literal _ | identifier | keyword .this | keyword .super | leftParen | bang | minus => true
  | _ => false

theorem Kind.ne_of_startsExpression {k l : Kind} (hk : k.startsExpression = true)
    (hl : l.startsExpression = false) : k ≠ l := by
  rintro rfl
  rw [hk] at hl
  exact Bool.noConfusion hl

namespace Grammar

/-- Items one after another, each with what derives from its tokens. -/
def Sequence {α : Type} (Q : List Token → α → Prop) (ts : List Token) (as : List α) : Prop :=
  ∃ items : List (List Token × α), (∀ d ∈ items, Q d.1 d.2) ∧ items.flatMap Prod.fst = ts ∧
    items.map Prod.snd = as

namespace Sequence
variable {α : Type} {Q : List Token → α → Prop} {ts us : List Token} {a : α} {as bs : List α}

theorem nil : Sequence Q [] [] := ⟨[], by simp, rfl, rfl⟩

theorem cons (ha : Q ts a) (has : Sequence Q us as) : Sequence Q (ts ++ us) (a :: as) := by
  obtain ⟨items, hitems, rfl, rfl⟩ := has
  exact ⟨(ts, a) :: items, by simpa [ha] using hitems, rfl, rfl⟩

theorem append (has : Sequence Q ts as) (hbs : Sequence Q us bs) :
    Sequence Q (ts ++ us) (as ++ bs) := by
  obtain ⟨items, hitems, rfl, rfl⟩ := has
  obtain ⟨others, hothers, rfl, rfl⟩ := hbs
  refine ⟨items ++ others, fun d hd => ?_, by simp, by simp⟩
  exact (List.mem_append.1 hd).elim (hitems d) (hothers d)

end Sequence

/-- The items one after another, with a comma between any two of them. -/
inductive Separated : List (List Token) → List Token → Prop
  | none : Separated [] []
  | one {item : List Token} : Separated [item] item
  | more {item next ts : List Token} {items : List (List Token)} {comma : Token}
    (comma_ : comma.kind = .comma) (rest : Separated (next :: items) ts) :
    Separated (item :: next :: items) (item ++ comma :: ts)

namespace Separated
variable {items : List (List Token)} {ts : List Token}

theorem count_le (h : Separated items ts) : items.length ≤ ts.length + 1 := by
  induction h with
  | none => exact Nat.zero_le _
  | one => exact Nat.le_add_left 1 _
  | more _ _ ih =>
    simp only [List.length_cons, List.length_append] at ih ⊢
    omega

theorem head {t : Token} {item : List Token} (h : Separated ((t :: item) :: items) ts) :
    ∃ us, ts = t :: us := by
  cases h with
  | one => exact ⟨item, rfl⟩
  | more => exact ⟨_, rfl⟩

theorem length_le (h : Separated items ts) : ∀ item ∈ items, item.length ≤ ts.length := by
  induction h with
  | none => exact fun item hi => nomatch hi
  | one =>
    intro item hi
    obtain rfl := List.mem_singleton.1 hi
    exact Nat.le_refl _
  | more _ _ ih =>
    intro item hi
    rw [List.length_append, List.length_cons]
    rcases List.mem_cons.1 hi with rfl | hi
    · omega
    · have := ih item hi
      omega

end Separated

/-- Expressions of a rank and the forms that bind closer: calls, fields and what stands alone (0),
signs in front (1), the binary operators from products to `or` (2 to 7) and assignments (8). -/
inductive Derives : Nat → List Token → RawExpr → Prop
  | literal {t : Token} {value : Literal} (kind : t.kind = .literal value) :
    Derives 0 [t] (.literal t.line value)
  | this {t : Token} (spelled : t.kind = .keyword .this) : Derives 0 [t] (.this t ())
  | read {name : Token} (named : name.kind = .identifier) : Derives 0 [name] (.read name ())
  | super {keyword dot method : Token} (spelled : keyword.kind = .keyword .super)
    (dotted : dot.kind = .dot) (named : method.kind = .identifier) :
    Derives 0 [keyword, dot, method] (.super keyword () method)
  | grouping {opening closing : Token} {ts : List Token} {inner : RawExpr}
    (opens : opening.kind = .leftParen) (inside : Derives 8 ts inner)
    (closes : closing.kind = .rightParen) :
    Derives 0 (opening :: (ts ++ [closing])) (.grouping opening.line inner)
  | call {opening paren : Token} {ts us : List Token} {callee : RawExpr}
    {arguments : List (List Token × RawExpr)} (called : Derives 0 ts callee)
    (opens : opening.kind = .leftParen) (inside : ∀ a ∈ arguments, Derives 8 a.1 a.2)
    (few : arguments.length ≤ maxArity) (listed : Separated (arguments.map Prod.fst) us)
    (closes : paren.kind = .rightParen) :
    Derives 0 (ts ++ opening :: (us ++ [paren])) (.call callee paren (arguments.map Prod.snd))
  | get {dot name : Token} {ts : List Token} {object : RawExpr} (owner : Derives 0 ts object)
    (dotted : dot.kind = .dot) (named : name.kind = .identifier) :
    Derives 0 (ts ++ [dot, name]) (.get object name)
  | unary {operator : Token} {ts : List Token} {right : RawExpr}
    (sign : operator.kind = .bang ∨ operator.kind = .minus) (operand : Derives 1 ts right) :
    Derives 1 (operator :: ts) (.unary operator right)
  | binary {r : Nat} {operator : Token} {ts us : List Token} {left right : RawExpr}
    (lowest : 1 ≤ r) (highest : r ≤ 4) (before : Derives (r + 1) ts left)
    (joins : operator.kind.rank = r + 1) (behind : Derives r us right) :
    Derives (r + 1) (ts ++ operator :: us) (.binary left operator right)
  | logical {r : Nat} {operator : Token} {ts us : List Token} {left right : RawExpr}
    (lowest : 5 ≤ r) (highest : r ≤ 6) (before : Derives (r + 1) ts left)
    (joins : operator.kind.rank = r + 1) (behind : Derives r us right) :
    Derives (r + 1) (ts ++ operator :: us) (.logical left operator right)
  | assign {name equals : Token} {ts : List Token} {value : RawExpr}
    (named : name.kind = .identifier) (sign : equals.kind = .equal)
    (assigned : Derives 8 ts value) :
    Derives 8 (name :: equals :: ts) (.assign equals.line name () value)
  | set {dot name equals : Token} {ts us : List Token} {object value : RawExpr}
    (owner : Derives 0 ts object) (dotted : dot.kind = .dot) (named : name.kind = .identifier)
    (sign : equals.kind = .equal) (assigned : Derives 8 us value) :
    Derives 8 (ts ++ dot :: name :: equals :: us) (.set equals.line object name value)
  | looser {r : Nat} {ts : List Token} {e : RawExpr} (closely : Derives r ts e) :
    Derives (r + 1) ts e

namespace Derives
variable {r : Nat} {ts : List Token} {e : RawExpr}

theorem head (h : Derives r ts e) :
    ∃ t us, ts = t :: us ∧ t.kind.startsExpression = true ∧
      (r = 0 → t.kind ≠ .bang ∧ t.kind ≠ .minus) := by
  induction h with
  | literal kind => exact ⟨_, _, rfl, by rw [kind]; rfl, fun _ => by rw [kind]; simp⟩
  | this spelled | super spelled =>
    exact ⟨_, _, rfl, by rw [spelled]; rfl, fun _ => by rw [spelled]; simp⟩
  | read named => exact ⟨_, _, rfl, by rw [named]; rfl, fun _ => by rw [named]; simp⟩
  | grouping opens => exact ⟨_, _, rfl, by rw [opens]; rfl, fun _ => by rw [opens]; simp⟩
  | call _ _ _ _ _ _ ih | get _ _ _ ih =>
    obtain ⟨t, us, rfl, hstart, hsign⟩ := ih
    exact ⟨t, _, rfl, hstart, hsign⟩
  | unary sign =>
    refine ⟨_, _, rfl, ?_, fun hr => absurd hr (by decide)⟩
    rcases sign with h | h <;> rw [h] <;> rfl
  | binary _ _ _ _ _ ih | logical _ _ _ _ _ ih | looser _ ih =>
    obtain ⟨t, us, rfl, hstart, -⟩ := ih
    exact ⟨t, _, rfl, hstart, fun hr => absurd hr (Nat.succ_ne_zero _)⟩
  | assign named => exact ⟨_, _, rfl, by rw [named]; rfl, fun hr => absurd hr (by decide)⟩
  | set _ _ _ _ _ ih =>
    obtain ⟨t, us, rfl, hstart, -⟩ := ih
    exact ⟨t, _, rfl, hstart, fun hr => absurd hr (by decide)⟩

theorem ne_nil (h : Derives r ts e) : ts ≠ [] := by
  obtain ⟨t, us, rfl, -⟩ := h.head
  exact List.cons_ne_nil t us

theorem looser_le {r' : Nat} (h : Derives r ts e) (hr : r ≤ r') : Derives r' ts e := by
  induction hr with
  | refl => exact h
  | step _ ih => exact .looser ih

theorem of_read {name : Token} {target : Unit} (h : Derives r ts (.read name target)) :
    ts = [name] ∧ name.kind = .identifier := by
  generalize he : Expr.read name target = e at h
  induction h with
  | read named =>
    cases he
    exact ⟨rfl, named⟩
  | looser _ ih => exact ih he
  | _ => cases he

theorem of_get {object : RawExpr} {name : Token} (h : Derives r ts (.get object name)) :
    ∃ us dot, ts = us ++ [dot, name] ∧ Derives 0 us object ∧ dot.kind = .dot ∧
      name.kind = .identifier := by
  generalize he : Expr.get object name = e at h
  induction h with
  | get owner dotted named =>
    cases he
    exact ⟨_, _, rfl, owner, dotted, named⟩
  | looser _ ih => exact ih he
  | _ => cases he

end Derives

abbrev Expression : List Token → RawExpr → Prop := Derives 8

inductive Optional : List Token → Option RawExpr → Prop
  | none : Optional [] none
  | some {ts : List Token} {e : RawExpr} (value : Expression ts e) : Optional ts (some e)

inductive Parenthesized : List Token → RawExpr → Prop
  | mk {opening closing : Token} {ts : List Token} {e : RawExpr}
    (opens : opening.kind = .leftParen) (inside : Expression ts e)
    (closes : closing.kind = .rightParen) : Parenthesized (opening :: (ts ++ [closing])) e

inductive Initializer : List Token → Option RawExpr → Prop
  | none : Initializer [] none
  | some {equals : Token} {ts : List Token} {e : RawExpr} (sign : equals.kind = .equal)
    (value : Expression ts e) : Initializer (equals :: ts) (some e)

inductive Variable : List Token → RawStmt → Prop
  | mk {keyword name semicolon : Token} {ts : List Token} {value : Option RawExpr}
    (spelled : keyword.kind = .keyword .var) (named : name.kind = .identifier)
    (initial : Initializer ts value) (ends : semicolon.kind = .semicolon) :
    Variable (keyword :: name :: (ts ++ [semicolon])) (.var name value)

/-- An expression as a statement, on the line that it begins on. -/
inductive Evaluation : List Token → RawStmt → Prop
  | mk {first semicolon : Token} {ts : List Token} {e : RawExpr}
    (value : Expression (first :: ts) e) (ends : semicolon.kind = .semicolon) :
    Evaluation (first :: (ts ++ [semicolon])) (.expression first.line e)

inductive LoopInitializer : List Token → Option RawStmt → Prop
  | none {semicolon : Token} (ends : semicolon.kind = .semicolon) : LoopInitializer [semicolon] none
  | variable_ {ts : List Token} {s : RawStmt} (declared : Variable ts s) :
    LoopInitializer ts (some s)
  | evaluation {ts : List Token} {s : RawStmt} (evaluated : Evaluation ts s) :
    LoopInitializer ts (some s)

inductive Inheritance : List Token → Option (Superclass Unit) → Prop
  | none : Inheritance [] none
  | some {less name : Token} (sign : less.kind = .less) (named : name.kind = .identifier) :
    Inheritance [less, name] (some ⟨name, ()⟩)

mutual

inductive Declaration : List Token → RawStmt → Prop
  | class_ {keyword name opening closing : Token} {ts : List Token}
    {above : Option (Superclass Unit)} {methods : List (List Token × RawFunction)}
    (spelled : keyword.kind = .keyword .class_) (named : name.kind = .identifier)
    (inherits : Inheritance ts above) (opens : opening.kind = .leftBrace)
    (inside : ∀ m ∈ methods, Function m.1 m.2) (closes : closing.kind = .rightBrace) :
    Declaration (keyword :: name :: (ts ++ opening :: (methods.flatMap Prod.fst ++ [closing])))
      (.class_ keyword.line name above (methods.map Prod.snd))
  | function {keyword : Token} {ts : List Token} {f : RawFunction}
    (spelled : keyword.kind = .keyword .fun_) (declared : Function ts f) :
    Declaration (keyword :: ts) (.function f)
  | variable_ {ts : List Token} {s : RawStmt} (declared : Variable ts s) : Declaration ts s
  | statement {isOpen : Bool} {ts : List Token} {s : RawStmt} (plain : Statement isOpen ts s) :
    Declaration ts s

/-- Statements, and whether an `else` behind them would be theirs. -/
inductive Statement : Bool → List Token → RawStmt → Prop
  | evaluation {ts : List Token} {s : RawStmt} (evaluated : Evaluation ts s) : Statement false ts s
  | print {keyword semicolon : Token} {ts : List Token} {e : RawExpr}
    (spelled : keyword.kind = .keyword .print) (value : Expression ts e)
    (ends : semicolon.kind = .semicolon) :
    Statement false (keyword :: (ts ++ [semicolon])) (.print keyword.line e)
  | return_ {keyword semicolon : Token} {ts : List Token} {value : Option RawExpr}
    (spelled : keyword.kind = .keyword .return_) (returned : Optional ts value)
    (ends : semicolon.kind = .semicolon) :
    Statement false (keyword :: (ts ++ [semicolon])) (.return_ keyword value)
  | block {opening closing : Token} {body : List (List Token × RawStmt)}
    (opens : opening.kind = .leftBrace) (inside : ∀ s ∈ body, Declaration s.1 s.2)
    (closes : closing.kind = .rightBrace) :
    Statement false (opening :: (body.flatMap Prod.fst ++ [closing]))
      (.block opening.line (body.map Prod.snd))
  | ifThen {isOpen : Bool} {keyword : Token} {ts us : List Token} {condition : RawExpr}
    {thenBranch : RawStmt} (spelled : keyword.kind = .keyword .if_)
    (tested : Parenthesized ts condition) (inside : Statement isOpen us thenBranch) :
    Statement true (keyword :: (ts ++ us)) (.ifThen keyword.line condition thenBranch)
  | ifElse {isOpen : Bool} {keyword else_ : Token} {ts us vs : List Token} {condition : RawExpr}
    {thenBranch elseBranch : RawStmt} (spelled : keyword.kind = .keyword .if_)
    (tested : Parenthesized ts condition) (inside : Statement false us thenBranch)
    (divides : else_.kind = .keyword .else_) (otherwise : Statement isOpen vs elseBranch) :
    Statement isOpen (keyword :: (ts ++ (us ++ else_ :: vs)))
      (.ifElse keyword.line condition thenBranch elseBranch)
  | while_ {isOpen : Bool} {keyword : Token} {ts us : List Token} {condition : RawExpr}
    {body : RawStmt} (spelled : keyword.kind = .keyword .while_)
    (tested : Parenthesized ts condition) (inside : Statement isOpen us body) :
    Statement isOpen (keyword :: (ts ++ us)) (.while_ keyword.line condition body)
  | for_ {isOpen : Bool} {keyword opening semicolon closing : Token} {ts us vs ws : List Token}
    {initializer : Option RawStmt} {condition increment : Option RawExpr} {body : RawStmt}
    (spelled : keyword.kind = .keyword .for_) (opens : opening.kind = .leftParen)
    (initial : LoopInitializer ts initializer) (tested : Optional us condition)
    (divides : semicolon.kind = .semicolon) (advanced : Optional vs increment)
    (closes : closing.kind = .rightParen) (inside : Statement isOpen ws body) :
    Statement isOpen (keyword :: opening :: (ts ++ (us ++ semicolon :: (vs ++ closing :: ws))))
      (.block keyword.line (initializer.toList ++
        [.while_ keyword.line (condition.getD (.literal keyword.line (.bool true)))
          (increment.elim body fun e =>
            .block keyword.line [body, .expression keyword.line e])]))

inductive Function : List Token → RawFunction → Prop
  | mk {name opening closing begins ends : Token} {parameters ts : List Token}
    {body : List (List Token × RawStmt)} (named : name.kind = .identifier)
    (opens : opening.kind = .leftParen) (inputs : ∀ t ∈ parameters, t.kind = .identifier)
    (few : parameters.length ≤ maxArity) (listed : Separated (parameters.map ([·])) ts)
    (closes : closing.kind = .rightParen) (begins_ : begins.kind = .leftBrace)
    (inside : ∀ s ∈ body, Declaration s.1 s.2) (ends_ : ends.kind = .rightBrace) :
    Function (name :: opening :: (ts ++ closing :: begins :: (body.flatMap Prod.fst ++ [ends])))
      (.mk name parameters (body.map Prod.snd))

end

theorem Evaluation.head {ts : List Token} {s : RawStmt} (h : Evaluation ts s) :
    ∃ t us, ts = t :: us ∧ t.kind.startsExpression = true := by
  cases h with
  | mk value =>
    obtain ⟨t, us, ht, hstart, -⟩ := value.head
    cases ht
    exact ⟨_, _, rfl, hstart⟩

theorem Statement.head {isOpen : Bool} {ts : List Token} {s : RawStmt}
    (h : Statement isOpen ts s) :
    ∃ t us, ts = t :: us ∧ t.kind ≠ .rightBrace ∧ t.kind ≠ .keyword .else_ := by
  cases h with
  | evaluation evaluated =>
    obtain ⟨t, us, rfl, hstart⟩ := evaluated.head
    have hbrace := Kind.ne_of_startsExpression hstart (l := .rightBrace) rfl
    have helse := Kind.ne_of_startsExpression hstart (l := .keyword .else_) rfl
    exact ⟨t, us, rfl, hbrace, helse⟩
  | block opens => exact ⟨_, _, rfl, by rw [opens]; decide, by rw [opens]; decide⟩
  | _ => exact ⟨_, _, rfl, by simp [*], by simp [*]⟩

theorem Declaration.head {ts : List Token} {s : RawStmt} (h : Declaration ts s) :
    ∃ t us, ts = t :: us ∧ t.kind ≠ .rightBrace ∧ t.kind ≠ .keyword .else_ := by
  cases h with
  | class_ spelled | function spelled =>
    exact ⟨_, _, rfl, by rw [spelled]; decide, by rw [spelled]; decide⟩
  | variable_ declared =>
    cases declared with
    | mk spelled => exact ⟨_, _, rfl, by rw [spelled]; decide, by rw [spelled]; decide⟩
  | statement plain => exact plain.head

theorem Declaration.ne_nil {ts : List Token} {s : RawStmt} (h : Declaration ts s) : ts ≠ [] := by
  obtain ⟨t, us, rfl, -⟩ := h.head
  exact List.cons_ne_nil t us

theorem Function.ne_nil {ts : List Token} {f : RawFunction} (h : Function ts f) : ts ≠ [] := by
  cases h
  exact List.cons_ne_nil _ _

def Detached (ts : List Token) : Prop := ∀ t ∈ ts.head?, t.kind ≠ .keyword .else_

abbrev Program : List Token → List RawStmt → Prop := Sequence Declaration

end Grammar
end Lox
