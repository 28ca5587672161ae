import Lox.Proofs.Pairing
import Lox.Syntax.StatementParser

/-! Iteration. A for statement opens one scope, runs its initializer there, and turns as long as its
condition holds: the body first, then the increment. The parser takes it apart into blocks and a
`while`. A run is checked against the rule when, at each statement, every for statement that it may
stem from is run both ways. -/

namespace Lox

/-- Whatever is read is as `Q` says. -/
def Parser.Gives {α : Type} (p : Parser α) (Q : α → Prop) : Prop := ∀ s a s', p s = .ok a s' → Q a

/-- A for statement; each of its clauses may be absent. -/
structure ForLoop where
  line : Nat
  initializer : Option RawStmt
  condition : Option RawExpr
  increment : Option RawExpr
  body : RawStmt

/-- What may stand in the first clause. -/
def Stmt.opensLoop {ρ : Type} : Stmt ρ → Bool
  | var .. | expression .. => true
  | _ => false

namespace ForLoop
open Eval

/-- What the parser takes it apart into. -/
def statement (l : ForLoop) : RawStmt :=
  Parser.desugarFor l.line l.initializer l.condition l.increment l.body

structure WellFormed (l : ForLoop) : Prop where
  initializer : ∀ st ∈ l.initializer, st.opensLoop
  body : l.body.isPlain

/-- The clauses, each of which may be left out, and the body. -/
def parser (nested : Parser.Forms) (keyword : Token) : Parser ForLoop := do
  let _ ← Parser.expect .leftParen .forClauses
  let initializer ← Parser.forInitializer nested.bound
  let condition ← Parser.optional nested.bound .semicolon
  let _ ← Parser.expect .semicolon .loopConditionEnd
  let increment ← Parser.optional nested.bound .rightParen
  let _ ← Parser.expect .rightParen .forClausesEnd
  return ⟨keyword.line, initializer, condition, increment, ← nested.statement⟩

/-- In the scope of the loop, once the initializer has run. -/
def inside (l : ForLoop) (s : Surroundings) : Surroundings :=
  Stmt.afterList (s.push []) l.initializer.toList

variable (settings : Settings) (l : ForLoop) (s : Surroundings)

def start (nesting : Nat) : Eval Unit := do
  match l.initializer with
  | some st =>
    let _ ← Eval.execute settings nesting (st.bound (s.push []))
  | none => return ()

/-- A condition that is absent always holds. -/
def test (nesting : Nat) : Eval Value := do
  match l.condition with
  | some e => Eval.evaluate settings nesting (e.bound (l.inside s))
  | none => return .bool true

def advance (nesting : Nat) : Eval Unit := do
  match l.increment with
  | some e =>
    let _ ← Eval.evaluate settings nesting (e.bound (l.inside s))
  | none => return ()

/-- The body, and then the increment unless the body has returned. With an increment, the two lie
deeper. -/
def turn (nesting : Nat) : Eval Completion := do
  match ← Eval.execute settings (if l.increment.isSome then nesting - 1 else nesting)
      (l.body.bound (l.inside s)) with
  | .normal =>
    l.advance settings s (nesting - 2)
    return .normal
  | .returned value => return .returned value

/-- The turns, with so much nesting left. -/
def turns : (nesting : Nat) → Eval Completion
  | 0 => throw .exhausted
  | nesting + 1 => loop (l.test settings s nesting) (l.turn settings s nesting) settings.turns

/-- The rule for a for statement in the surroundings `s`. All turns share one scope, and the scope
around it is current again afterwards. -/
def execute : (nesting : Nat) → Eval Completion
  | 0 => throw .exhausted
  | nesting + 1 => do
    let scope ← newEnvironment (← get).current []
    inEnvironment scope do
      l.start settings s nesting
      l.turns settings s nesting

end ForLoop

/-- Both machines of the pair have gone on from `m`, and are back in its current environment, with
the same ones around it. The environments of `m` keep their places. -/
structure Pair.Since (m : Machine) (t : Pair) : Prop where
  place : ∀ e < m.environments.frames.size, t.place e = e
  left : t.left.current = m.current
  right : t.right.current = m.current
  stands : t.Stands none

/-- Two runs from `m` end the same: with the same failure, or with the same signal; and the machines
hold the same afterwards, and have written the same. -/
def SameResult (m : Machine) :
    EStateM.Result Failure Machine Completion → EStateM.Result Failure Machine Completion → Prop
  | .ok c left, .ok d right =>
    ∃ t : Pair, t.left = left ∧ t.right = right ∧ t.Since m ∧ Parallel.Ends (P := pairs) t c d
  | .error f left, .error g right =>
    f = g ∧ ∃ t : Pair, t.left = left ∧ t.right = right ∧ t.Since m
  | _, _ => False

namespace ForLoop
open Eval
variable (alarm : Failure) (settings : Settings)

open Classical in
/-- Sounds the alarm unless each for statement that the statement may stem from, wherever it was
resolved, runs from here as its rule says. -/
noncomputable def check (nesting : Nat) (st : BoundStmt) : Eval Unit := do
  let m ← get
  if ∀ (l : ForLoop) (s : Surroundings), l.WellFormed → st = l.statement.bound s →
      SameResult m (l.execute settings s nesting m) (Eval.execute settings nesting st m)
  then return ()
  else throw alarm

mutual

noncomputable def checkedEvaluate : (nesting : Nat) → BoundExpr → Eval Value
  | 0, _ => throw .exhausted
  | nesting + 1, e =>
    evaluateForm settings (checkedEvaluate nesting) (apply (checkedExecute nesting)) e

noncomputable def checkedExecute : (nesting : Nat) → BoundStmt → Eval Completion
  | 0, _ => throw .exhausted
  | nesting + 1, st => do
    check alarm settings (nesting + 1) st
    if settings.trace then emit (.traced st.line st.kind)
    executeForm settings (checkedEvaluate nesting) (checkedExecute nesting) st

end

noncomputable def checkedProgram : List BoundStmt → Eval Unit
  | [] => return ()
  | st :: ss => do
    let _ ← checkedExecute alarm settings settings.nesting st
    checkedProgram ss

end ForLoop
end Lox
