import Lox.Proofs.Joining
import Lox.Proofs.Relocation

/-! Texts further to the right. What stands in front of a text on its first line moves the tokens of
that line to other columns and changes nothing else; and no column is read when the text is parsed,
resolved or evaluated. -/

namespace Lox
variable {ρ : Type} (n : Nat)

namespace Position
variable {p : Position}

/-- The same place in a text that begins so many columns further to the right. -/
def indent (p : Position) : Position :=
  ⟨p.line, if p.line = 1 then p.column + n else p.column⟩

theorem one_le_line_next (h : 1 ≤ p.line) (c : Char) : 1 ≤ (p.next c).line := by
  unfold next
  split
  · exact Nat.le_add_left 1 p.line
  · exact h

theorem next_indent (h : 1 ≤ p.line) (c : Char) : (p.indent n).next c = (p.next c).indent n := by
  by_cases hc : c = '\n'
  · have hline : p.line + 1 ≠ 1 := by omega
    simp only [next, indent, if_pos hc, if_neg hline]
  · by_cases hline : p.line = 1
    · simp only [next, indent, if_neg hc, if_pos hline, Nat.add_right_comm]
    · simp only [next, indent, if_neg hc, if_neg hline]

theorem after_indent (h : 1 ≤ p.line) (text : List Char) :
    1 ≤ (p.after text).line ∧ (p.indent n).after text = (p.after text).indent n := by
  induction text generalizing p with
  | nil => exact ⟨h, rfl⟩
  | cons c text ih =>
    rw [after_cons, after_cons, next_indent n h]
    exact ih (one_le_line_next h c)

end Position

namespace Token

def indent (t : Token) : Token := { t with position := t.position.indent n }

@[simp] theorem kind_indent (t : Token) : (t.indent n).kind = t.kind := rfl

@[simp] theorem lexeme_indent (t : Token) : (t.indent n).lexeme = t.lexeme := rfl

@[simp] theorem line_indent (t : Token) : (t.indent n).line = t.line := rfl

end Token

namespace Piece

def indent (q : Piece) : Piece := { q with position := q.position.indent n }

theorem ofText_indent {p : Position} (h : 1 ≤ p.line) (text : List Char) :
    ofText (p.indent n) text = (ofText p text).map (indent n) := by
  fun_induction ofText p text with
  | case1 => rw [ofText_nil, List.map_nil]
  | case2 p c text m ih =>
    obtain ⟨hline, hafter⟩ := Position.after_indent n h m.text
    rw [ofText_cons, List.map_cons, hafter]
    exact congrArg _ (ih hline)

theorem visible_indent {p : Position} (h : 1 ≤ p.line) (text : List Char) :
    visible (p.indent n) text = (visible p text).map (indent n) := by
  rw [visible, ofText_indent n h, List.filter_map]
  rfl

theorem token?_indent (q : Piece) : (q.indent n).token? = q.token?.map (Token.indent n) := by
  unfold token? indent
  cases q.role <;> rfl

theorem error?_indent (q : Piece) : (q.indent n).error? = q.error?.map fun e => e := by
  unfold error? indent
  cases q.role <;> rfl

end Piece

namespace Expr

mutual

def indent : Expr ρ → Expr ρ
  | literal line value => literal line value
  | grouping line inner => grouping line (indent inner)
  | unary operator right => unary (operator.indent n) (indent right)
  | binary left operator right => binary (indent left) (operator.indent n) (indent right)
  | logical left operator right => logical (indent left) (operator.indent n) (indent right)
  | read name target => read (name.indent n) target
  | assign line name target value => assign line (name.indent n) target (indent value)
  | call callee paren arguments => call (indent callee) (paren.indent n) (indentList arguments)
  | get object name => get (indent object) (name.indent n)
  | set line object name value => set line (indent object) (name.indent n) (indent value)
  | this keyword target => this (keyword.indent n) target
  | super keyword target method => super (keyword.indent n) target (method.indent n)

def indentList : List (Expr ρ) → List (Expr ρ)
  | [] => []
  | e :: es => indent e :: indentList es

end

theorem indentList_eq_map (es : List (Expr ρ)) : indentList n es = es.map (indent n) := by
  induction es with
  | nil => rfl
  | cons e es ih => rw [indentList, ih, List.map_cons]

mutual

theorem bound_indent (s : Surroundings) (e : RawExpr) :
    (e.indent n).bound s = (e.bound s).indent n := by
  cases e with
  | grouping line inner => simp [indent, bound, bound_indent s inner]
  | unary operator right => simp [indent, bound, bound_indent s right]
  | binary left operator right =>
    simp [indent, bound, bound_indent s left, bound_indent s right]
  | logical left operator right =>
    simp [indent, bound, bound_indent s left, bound_indent s right]
  | assign line name _ value => simp [indent, bound, bound_indent s value]
  | call callee paren arguments =>
    simp [indent, bound, bound_indent s callee, boundList_indent s arguments]
  | get object name => simp [indent, bound, bound_indent s object]
  | set line object name value =>
    simp [indent, bound, bound_indent s object, bound_indent s value]
  | _ => simp [indent, bound]

theorem boundList_indent (s : Surroundings) (es : List RawExpr) :
    boundList s (indentList n es) = indentList n (boundList s es) := by
  cases es with
  | nil => rfl
  | cons e es => simp [indentList, boundList, bound_indent s e, boundList_indent s es]

end

mutual

theorem problems_indent (s : Surroundings) (e : RawExpr) :
    (e.indent n).problems s = e.problems s := by
  cases e with
  | grouping line inner => simp [indent, problems, problems_indent s inner]
  | unary operator right => simp [indent, problems, problems_indent s right]
  | binary left operator right =>
    simp [indent, problems, problems_indent s left, problems_indent s right]
  | logical left operator right =>
    simp [indent, problems, problems_indent s left, problems_indent s right]
  | assign line name _ value => simp [indent, problems, problems_indent s value]
  | call callee paren arguments =>
    simp [indent, problems, problems_indent s callee, problemsList_indent s arguments]
  | get object name => simp [indent, problems, problems_indent s object]
  | set line object name value =>
    simp [indent, problems, problems_indent s object, problems_indent s value]
  | _ => rfl

theorem problemsList_indent (s : Surroundings) (es : List RawExpr) :
    problemsList s (indentList n es) = problemsList s es := by
  cases es with
  | nil => rfl
  | cons e es => simp [indentList, problemsList, problems_indent s e, problemsList_indent s es]

end
end Expr

namespace Eval
variable {ev : BoundExpr → Eval Value} {n}

theorem evaluateAll_indent (hev : ∀ e, ev (e.indent n) = ev e) (es : List BoundExpr) :
    evaluateAll ev (Expr.indentList n es) = evaluateAll ev es := by
  induction es with
  | nil => rfl
  | cons e es ih => simp only [Expr.indentList, evaluateAll, hev, ih]

theorem evaluateForm_indent (settings : Settings) (hev : ∀ e, ev (e.indent n) = ev e)
    (enter : Closure → List Value → Eval Value) (e : BoundExpr) :
    evaluateForm settings ev enter (e.indent n) = evaluateForm settings ev enter e := by
  cases e with
  | literal | read | this | super => rfl
  | call callee paren arguments =>
    simp only [Expr.indent, evaluateForm, hev, evaluateAll_indent hev, Token.line_indent]
  | assign | get | set =>
    simp only [Expr.indent, evaluateForm, hev]
    rfl
  | _ =>
    simp only [Expr.indent, evaluateForm, hev, Token.kind_indent, Token.lexeme_indent,
      Token.line_indent]

theorem evaluate_indent (settings : Settings) (nesting : Nat) (e : BoundExpr) :
    evaluate settings nesting (e.indent n) = evaluate settings nesting e := by
  induction nesting generalizing e with
  | zero => rfl
  | succ nesting ih => exact evaluateForm_indent settings ih _ e

end Eval

namespace Grammar

/-- What derives still does further to the right. -/
theorem Derives.indent {r : Nat} {ts : List Token} {e : RawExpr} (h : Derives r ts e) :
    Derives r (ts.map (Token.indent n)) (e.indent n) := by
  induction h with
  | literal kind => exact .literal kind
  | this spelled => exact .this spelled
  | read named => exact .read named
  | super spelled dotted named => exact .super spelled dotted named
  | grouping opens _ closes ih =>
    rw [List.map_cons, List.map_append]
    exact .grouping opens ih closes
  | @call _ _ _ _ _ arguments _ opens _ few listed closes ih ihs =>
    obtain ⟨others, hinside, htokens, htrees, -⟩ := items_map (Token.indent n) ihs
    have hcount : others.length = arguments.length := by
      simpa using congrArg List.length htrees
    rw [Expr.indent, Expr.indentList_eq_map, ← htrees]
    simp only [List.map_append, List.map_cons]
    refine .call ih opens hinside (hcount ▸ few) ?_ closes
    rw [htokens]
    exact listed.map (Token.kind_indent n)
  | get _ dotted named ih =>
    rw [List.map_append]
    exact .get ih dotted named
  | unary sign _ ih => exact .unary sign ih
  | binary lowest highest _ joins _ ih ih' =>
    rw [List.map_append]
    exact .binary lowest highest ih joins ih'
  | logical lowest highest _ joins _ ih ih' =>
    rw [List.map_append]
    exact .logical lowest highest ih joins ih'
  | assign named sign _ ih => exact .assign named sign ih
  | set _ dotted named sign _ ih ih' =>
    rw [List.map_append]
    exact .set ih dotted named sign ih'
  | looser _ ih => exact .looser ih

end Grammar
end Lox
