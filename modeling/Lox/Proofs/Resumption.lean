import Lox.Proofs.Progress
import Lox.Proofs.Acceptance
/-!
Parsing on behind a program. What derives is read in front of any tokens that do not continue it,
and from there the parser is where it would have begun with those tokens alone, but for its bounds,
which do not matter.
-/
namespace Lox
open Grammar

namespace Parser
variable {n bound : Nat}

/-- Any bound will do that is not below the number of tokens. -/
theorem program_bound {inner inner' bound' : Nat} {ts : List Token} (hinner : ts.length ≤ inner)
    (hinner' : ts.length ≤ inner') (hbound : ts.length ≤ bound) (hbound' : ts.length ≤ bound')
    (cs : List Complaint) :
    program (nestedDeclaration inner) bound ⟨ts, cs⟩ =
      program (nestedDeclaration inner') bound' ⟨ts, cs⟩ := by
  let c : Cursor ts := ⟨0, cs⟩
  have hleft : c.left ≤ ts.length := Nat.sub_le _ _
  exact (Cursor.follows_program hinner hbound).unique (Cursor.follows_program hinner' hbound') c
    (Nat.zero_le _) hleft hleft

variable {q : Parser (Option RawStmt)} {items : List (List Token × RawStmt)} {us : List Token}

theorem detached_append (hitems : ∀ d ∈ items, Declaration d.1 d.2) (hus : Detached us) :
    Detached (items.flatMap Prod.fst ++ us) := by
  cases items with
  | nil => exact hus
  | cons d items =>
    obtain ⟨t, ts, ht, -, helse⟩ := (hitems d List.mem_cons_self).head
    rw [List.flatMap_cons, ht]
    rintro u ⟨⟩
    exact helse

/-- The loop over the statements of a text, when it has come past some of them. -/
theorem program_run_append (hq : DeclarationCovers q n) (hus : Detached us)
    (hitems : ∀ d ∈ items, Declaration d.1 d.2) (hlen : (items.flatMap Prod.fst).length ≤ n)
    (hbound : items.length ≤ bound) (cs : List Complaint) :
    program q bound ⟨items.flatMap Prod.fst ++ us, cs⟩ =
      ((items.map Prod.snd ++ ·) <$> program q (bound - items.length)) ⟨us, cs⟩ := by
  induction items generalizing bound with
  | nil => exact (congrFun (id_map (program q bound)) ⟨us, cs⟩).symm
  | cons d items ih =>
    obtain ⟨bound, rfl⟩ : ∃ k, bound = k + 1 := ⟨bound - 1, by simp at hbound; omega⟩
    rw [List.flatMap_cons, List.length_append] at hlen
    have hd := hitems d List.mem_cons_self
    have hitems' : ∀ d ∈ items, Declaration d.1 d.2 :=
      fun e he => hitems e (List.mem_cons_of_mem d he)
    have hread := hq d.2 d.1 _ hd (by omega) (detached_append hitems' hus) cs
    have hrest := ih hitems' (by omega) (Nat.le_of_succ_le_succ hbound)
    obtain ⟨t, ts, ht, -⟩ := hd.head
    have hgo : ¬(t :: (ts ++ (items.flatMap Prod.fst ++ us))).head?.isNone = true :=
      Bool.false_ne_true
    rw [ht, List.cons_append] at hread
    rw [List.flatMap_cons, List.append_assoc, ht, List.cons_append, program,
      bind_ok (Reads.next _ cs), if_neg hgo, bind_ok hread, bind_run, hrest, List.length_cons,
      Nat.add_sub_add_right, ← bind_pure_comp, ← bind_pure_comp, bind_run, bind_run]
    cases program q (bound - items.length) ⟨us, cs⟩ with
    | ok ss s => rfl
    | error e s => rfl

end Parser

namespace Parse

/-- A program is parsed no differently in front of other tokens, and these no differently behind
it, however malformed they are, unless they go on with an `else`. -/
theorem program_append {ts us : List Token} (hts : (program ts).complaints = [])
    (hus : Detached us) :
    program (ts ++ us) = ⟨(program ts).value ++ (program us).value, (program us).complaints⟩ := by
  obtain ⟨items, hitems, rfl, hvalue⟩ := derives_of_complaints_eq_nil hts
  obtain ⟨ss, d, -, -, hrun⟩ := Cursor.program_ok us
  have hcount : items.length ≤ (items.flatMap Prod.fst).length :=
    Parser.length_le_length_flatMap fun d hd => List.length_pos_iff.2 (hitems d hd).ne_nil
  have hlength : (items.flatMap Prod.fst ++ us).length = _ := List.length_append
  generalize hn : (items.flatMap Prod.fst ++ us).length = n at hlength
  have hwhole : Parser.program (Parser.nestedDeclaration n) n ⟨items.flatMap Prod.fst ++ us, []⟩ =
      _ := Parser.program_run_append (Parser.nested_covers n).2 hus hitems (by omega) (by omega) []
  have hrest : Parser.program (Parser.nestedDeclaration n) (n - items.length) ⟨us, []⟩ =
      Parser.program (Parser.nestedDeclaration us.length) us.length ⟨us, []⟩ :=
    Parser.program_bound (by omega) (Nat.le_refl us.length) (by omega) (Nat.le_refl us.length) []
  rw [Parser.map_ok (hrest.trans hrun), ← hn] at hwhole
  rw [program_of_run hwhole, program_of_run hrun, ← hvalue]

theorem branch_append :
    let token (kind : Kind) : Token := ⟨kind, "", ⟨1, 1⟩⟩
    let branch := [token (.keyword .if_), token .leftParen, token .identifier, token .rightParen,
      token .identifier, token .semicolon]
    let strays := [token .rightParen, token .semicolon, token (.keyword .class_)]
    (program branch).complaints = [] ∧ Detached strays ∧
      program (branch ++ strays) =
        ⟨(program branch).value ++ (program strays).value, (program strays).complaints⟩ := by
  intro token branch strays
  have hstrays : Detached strays := by
    rintro t ⟨⟩
    decide
  exact ⟨rfl, hstrays, program_append rfl hstrays⟩

end Parse
end Lox
