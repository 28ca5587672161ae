import Lox.Proofs.Acceptance
import Lox.Proofs.Printing

/-! Parsing undoes printing. A printed program derives the program, up to the lines of its nodes,
and what derives is read without a complaint. -/

namespace Lox

theorem Expr.WellFormed.rank_le {e : RawExpr} (h : e.WellFormed) : e.rank ≤ 8 := by
  cases h with
  | binary _ highest => exact Nat.le_trans highest (by decide)
  | logical _ highest => exact Nat.le_trans highest (by decide)
  | _ => simp [Expr.rank]

namespace Printer
open Grammar
variable (p : Printer)

theorem separated_separated (line : Nat) (items : List (List Token)) :
    Separated items (p.separated line items) := by
  unfold separated
  induction items with
  | nil => exact .none
  | cons first items ih =>
    cases items with
    | nil =>
      rw [List.intercalate_singleton]
      exact .one
    | cons second items =>
      rw [List.intercalate_cons_cons, List.append_assoc]
      exact .more (p.kind_token _ _) ih

theorem expr_derives {e : RawExpr} (h : e.WellFormed) : Derives e.rank (p.expr e) (p.placed e) := by
  induction h with
  | literal => exact .literal (p.kind_token _ _)
  | grouping inside ih =>
    exact .grouping (p.kind_token _ _) (ih.looser_le inside.rank_le) (p.kind_token _ _)
  | unary sign _ closely ih => exact .unary sign (ih.looser_le closely)
  | @binary left right operator lowest highest _ loosely _ closely ihl ihr =>
    obtain ⟨r, hr⟩ : ∃ r, operator.kind.rank = r + 1 := ⟨operator.kind.rank - 1, by omega⟩
    rw [Expr.rank]
    rw [hr] at lowest highest loosely closely ⊢
    exact .binary (by omega) (by omega) (ihl.looser_le loosely) hr (ihr.looser_le (by omega))
  | @logical left right operator lowest highest _ loosely _ closely ihl ihr =>
    obtain ⟨r, hr⟩ : ∃ r, operator.kind.rank = r + 1 := ⟨operator.kind.rank - 1, by omega⟩
    rw [Expr.rank]
    rw [hr] at lowest highest loosely closely ⊢
    exact .logical (by omega) (by omega) (ihl.looser_le loosely) hr (ihr.looser_le (by omega))
  | read named => exact .read named
  | assign named assigned ih =>
    exact .assign named (p.kind_token _ _) (ih.looser_le assigned.rank_le)
  | @call callee paren arguments _ closely closed few inside ihc ih =>
    rw [closely] at ihc
    let items : List (List Token × RawExpr) := arguments.map fun e => (p.expr e, p.placed e)
    have hfst : items.map Prod.fst = p.exprList arguments :=
      List.map_map.trans (p.exprList_eq_map arguments).symm
    have hsnd : items.map Prod.snd = Expr.relinedList p.exprLine arguments :=
      List.map_map.trans (Expr.relinedList_eq_map _ arguments).symm
    have hlisted := p.separated_separated paren.line (p.exprList arguments)
    rw [← hfst] at hlisted
    rw [placed, expr, Expr.relined, ← hsnd, ← hfst]
    refine .call ihc (p.kind_token _ _) (fun d hd => ?_) (by simpa [items] using few) hlisted closed
    obtain ⟨e, he, rfl⟩ := List.mem_map.1 hd
    exact (ih e he).looser_le (inside e he).rank_le
  | get _ closely named ih => exact .get (closely ▸ ih) (p.kind_token _ _) named
  | set _ closely named assigned iho ihv =>
    exact .set (closely ▸ iho) (p.kind_token _ _) named (p.kind_token _ _)
      (ihv.looser_le assigned.rank_le)
  | this spelled => exact .this spelled
  | super spelled named => exact .super spelled (p.kind_token _ _) named

theorem expression_derives {e : RawExpr} (h : e.WellFormed) : Expression (p.expr e) (p.placed e) :=
  (p.expr_derives h).looser_le h.rank_le

theorem parenthesized_derives (line : Nat) {e : RawExpr} (h : e.WellFormed) :
    Parenthesized (p.condition line e) (p.placed e) :=
  .mk (p.kind_token _ _) (p.expression_derives h) (p.kind_token _ _)

theorem initializer_derives (line : Nat) {value : Option RawExpr}
    (h : ∀ e ∈ value, e.WellFormed) :
    Initializer (p.initializer line value) (value.map (Expr.relined p.exprLine)) := by
  cases value with
  | none => exact .none
  | some e => exact .some (p.kind_token _ _) (p.expression_derives (h e rfl))

theorem returned_derives {value : Option RawExpr} (h : ∀ e ∈ value, e.WellFormed) :
    Grammar.Optional (p.returned value) (value.map (Expr.relined p.exprLine)) := by
  cases value with
  | none => exact .none
  | some e => exact .some (p.expression_derives (h e rfl))

theorem superclass_derives {above : Option (Superclass Unit)}
    (h : ∀ c ∈ above, c.name.kind = .identifier) : Inheritance (p.superclass above) above := by
  cases above with
  | none => exact .none
  | some c => exact .some (p.kind_token _ _) (h c rfl)

theorem evaluation_derives (line : Nat) {e : RawExpr} (h : e.WellFormed) :
    Evaluation (p.stmt (.expression line e)) (p.placedStmt (.expression line e)) := by
  have he := p.expression_derives h
  obtain ⟨first, ts, hfirst, -⟩ := he.head
  rw [hfirst] at he
  have hline : p.stmtLine (.expression line e) = first.line := by
    rw [stmtLine, startLine, stmt, hfirst]
    rfl
  rw [placedStmt, Stmt.relined, hline, stmt, hfirst]
  exact .mk he (p.kind_token _ _)

mutual

/-- What is printed for a statement derives it; for one that is no declaration, as a statement that
ends open only if the tree does. -/
theorem stmt_derives (s : RawStmt) (h : s.WellFormed) :
    Declaration (p.stmt s) (p.placedStmt s) ∧ (¬s.IsDeclaration →
      ∃ isOpen, Statement isOpen (p.stmt s) (p.placedStmt s) ∧ (isOpen = true → s.EndsOpen)) := by
  have hplain {isOpen : Bool} (hs : Statement isOpen (p.stmt s) (p.placedStmt s))
      (hopen : isOpen = true → s.EndsOpen) :
      Declaration (p.stmt s) (p.placedStmt s) ∧ (¬s.IsDeclaration → ∃ isOpen,
        Statement isOpen (p.stmt s) (p.placedStmt s) ∧ (isOpen = true → s.EndsOpen)) :=
    ⟨.statement hs, fun _ => ⟨isOpen, hs, hopen⟩⟩
  cases s with
  | expression line value =>
    cases h with
    | expression inside =>
      exact hplain (.evaluation (p.evaluation_derives line inside)) Bool.noConfusion
  | print line value =>
    cases h with
    | print inside =>
      exact hplain (.print (p.kind_token _ _) (p.expression_derives inside) (p.kind_token _ _))
        Bool.noConfusion
  | var name initializer =>
    cases h with
    | var named inside =>
      exact ⟨.variable_ (.mk (p.kind_token _ _) named (p.initializer_derives _ inside)
        (p.kind_token _ _)), fun h => absurd trivial h⟩
  | block line body =>
    cases h with
    | block inside =>
      obtain ⟨items, hitems, htokens, htrees⟩ := stmts_derives body inside
      have hblock := Statement.block (p.kind_token .leftBrace line) hitems
        (p.kind_token .rightBrace line)
      rw [htokens, htrees] at hblock
      exact hplain hblock Bool.noConfusion
  | ifThen line condition thenBranch =>
    cases h with
    | ifThen tested inside plain =>
      obtain ⟨isOpen, hthen, -⟩ := (stmt_derives thenBranch inside).2 plain
      exact hplain (.ifThen (p.kind_token _ _) (p.parenthesized_derives line tested) hthen)
        fun _ => trivial
  | ifElse line condition thenBranch elseBranch =>
    cases h with
    | ifElse tested inside plain closed otherwise otherwisePlain =>
      obtain ⟨isOpen, hthen, hopen⟩ := (stmt_derives thenBranch inside).2 plain
      obtain ⟨isOpen', helse, hopen'⟩ := (stmt_derives elseBranch otherwise).2 otherwisePlain
      obtain rfl : isOpen = false := Bool.eq_false_iff.2 fun h => closed (hopen h)
      have hboth := Statement.ifElse (p.kind_token (.keyword .if_) line)
        (p.parenthesized_derives line tested) hthen (p.kind_token (.keyword .else_) line) helse
      refine hplain ?_ hopen'
      rw [stmt, List.append_assoc]
      exact hboth
  | while_ line condition body =>
    cases h with
    | while_ tested inside plain =>
      obtain ⟨isOpen, hbody, hopen⟩ := (stmt_derives body inside).2 plain
      exact hplain (.while_ (p.kind_token _ _) (p.parenthesized_derives line tested) hbody) hopen
  | function f =>
    cases h with
    | function inside =>
      exact ⟨.function (p.kind_token _ _) (function_derives f inside), fun h => absurd trivial h⟩
  | return_ keyword value =>
    cases h with
    | return_ spelled inside =>
      exact hplain (.return_ spelled (p.returned_derives inside) (p.kind_token _ _))
        Bool.noConfusion
  | class_ line name above methods =>
    cases h with
    | class_ named above inside =>
      obtain ⟨items, hitems, htokens, htrees⟩ := functions_derives methods inside
      have hclass := Declaration.class_ (p.kind_token (.keyword .class_) line) named
        (p.superclass_derives above) (p.kind_token .leftBrace line) hitems
        (p.kind_token .rightBrace line)
      rw [htokens, htrees] at hclass
      exact ⟨hclass, fun h => absurd trivial h⟩

theorem stmts_derives (ss : List RawStmt) (h : ∀ s ∈ ss, s.WellFormed) :
    Program (p.stmts ss) (p.placedStmts ss) := by
  cases ss with
  | nil => exact .nil
  | cons s ss =>
    exact .cons (stmt_derives s (h s List.mem_cons_self)).1
      (stmts_derives ss fun t ht => h t (List.mem_cons_of_mem s ht))

theorem function_derives (f : RawFunction) (h : Stmt.WellFormedFunction f) :
    Grammar.Function (p.function f) (Stmt.relinedFunction p.exprLine p.stmtLine f) := by
  cases f with
  | mk name parameters body =>
    cases h with
    | mk named few inputs inside =>
      obtain ⟨items, hitems, htokens, htrees⟩ := stmts_derives body inside
      have hfunction := Grammar.Function.mk named (p.kind_token .leftParen name.line) inputs few
        (p.separated_separated name.line _) (p.kind_token .rightParen name.line)
        (p.kind_token .leftBrace name.line) hitems (p.kind_token .rightBrace name.line)
      rw [htokens, htrees] at hfunction
      exact hfunction

theorem functions_derives (fs : List RawFunction) (h : ∀ f ∈ fs, Stmt.WellFormedFunction f) :
    Sequence Grammar.Function (p.functions fs)
      (Stmt.relinedFunctions p.exprLine p.stmtLine fs) := by
  cases fs with
  | nil => exact .nil
  | cons f fs =>
    exact .cons (function_derives f (h f List.mem_cons_self))
      (functions_derives fs fun g hg => h g (List.mem_cons_of_mem f hg))

end
end Printer

namespace Parse

theorem program_stmts (p : Printer) {ss : List RawStmt} (h : ∀ s ∈ ss, s.WellFormed) :
    program (p.stmts ss) = ⟨p.placedStmts ss, []⟩ :=
  program_of_derives (p.stmts_derives ss h)

/-- Printed programs are parsed without a complaint and up to lines to themselves. -/
theorem program_roundTrip (p : Printer) (ss : List RawStmt) (h : ∀ s ∈ ss, s.WellFormed) :
    (program (p.stmts ss)).complaints = [] ∧
      Stmt.unlined (program (p.stmts ss)).value = Stmt.unlined ss := by
  rw [program_stmts p h]
  exact ⟨rfl, Stmt.unlined_relinedList _ _ ss⟩

def blank : Printer := ⟨fun kind line => ⟨kind, "", ⟨line, 1⟩⟩, fun _ _ => rfl⟩

def mention : RawExpr := .read ⟨.identifier, "a", ⟨1, 1⟩⟩ ()

/-- The statement `if (a) { if (a) a - a * a - a; } else a.b = !a or a(a);` and a class without
methods that inherits. -/
def mixed : List RawStmt :=
  let sign kind : Token := ⟨kind, "", ⟨1, 1⟩⟩
  let product : RawExpr := .binary mention (sign .star) mention
  let difference : RawExpr :=
    .binary (.binary mention (sign .minus) product) (sign .minus) mention
  let choice : RawExpr :=
    .logical (.unary (sign .bang) mention) (sign (.keyword .or_))
      (.call mention (sign .rightParen) [mention])
  [.ifElse 1 mention (.block 1 [.ifThen 1 mention (.expression 1 difference)])
      (.expression 1 (.set 1 mention (sign .identifier) choice)),
    .class_ 2 (sign .identifier) (some ⟨sign .identifier, ()⟩) []]

theorem mixed_roundTrip :
    (∀ s ∈ mixed, s.WellFormed) ∧ (program (blank.stmts mixed)).complaints = [] ∧
      Stmt.unlined (program (blank.stmts mixed)).value = Stmt.unlined mixed := by
  have hm : mention.WellFormed := .read rfl
  have hall : ∀ s ∈ mixed, s.WellFormed := by
    intro s hs
    simp only [mixed, List.mem_cons, List.not_mem_nil, or_false] at hs
    rcases hs with rfl | rfl
    · refine .ifElse hm (.block fun s hs => ?_) id id (.expression (.set hm rfl rfl ?_)) id
      · rw [List.mem_singleton.1 hs]
        refine .ifThen hm (.expression (.binary (by decide) (by decide) ?_ ?_ hm ?_)) id
        · exact .binary (by decide) (by decide) hm (by decide)
            (.binary (by decide) (by decide) hm (by decide) hm (by decide)) (by decide)
        · decide
        · decide
      · refine .logical (by decide) (by decide) (.unary (.inl rfl) hm (by decide)) (by decide)
          (.call hm rfl rfl (by decide) fun e he => ?_) (by decide)
        rw [List.mem_singleton.1 he]
        exact hm
    · exact .class_ rfl (fun c hc => by cases hc; rfl) fun f hf => nomatch hf
  exact ⟨hall, program_roundTrip blank mixed hall⟩

end Parse
end Lox
