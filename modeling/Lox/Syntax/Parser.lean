import Lox.Syntax
import Lox.Problem
/-!
The state of a parser and the steps that every rule of the grammar is made of. A step looks at the
next token only; tokens leave the state from the front and never come back. Rules that repeat or
nest take a `bound`: any number not below that of the tokens left will do, since each turn and
each level of nesting takes a token.
-/
namespace Lox

/-- A problem at a token, or at the end of the tokens when there is none. -/
structure Complaint where
  token : Option Token
  problem : Problem

/-- The complaint in a text that ends on line `finish`. -/
def Complaint.toStaticError (finish : Nat) (c : Complaint) : StaticError :=
  match c.token with
  | some t => .atToken t c.problem
  | none => ⟨finish, .finish, c.problem⟩

structure ParserState where
  /-- The tokens not taken yet. -/
  tokens : List Token
  /-- Newest first. -/
  complaints : List Complaint

/-- A parser that fails has complained before; its error therefore says nothing more. -/
abbrev Parser := EStateM Unit ParserState

namespace Parser

def next? : Parser (Option Token) := return (← get).tokens.head?

def complainAt (t : Option Token) (problem : Problem) : Parser Unit :=
  modify fun s => { s with complaints := ⟨t, problem⟩ :: s.complaints }

def complain (problem : Problem) : Parser Unit := do complainAt (← next?) problem

/-- Complains about the next token and gives the rule up. -/
def fail {α : Type} (problem : Problem) : Parser α := do
  complain problem
  throw ()

def advance : Parser Unit := modify fun s => { s with tokens := s.tokens.tail }

def nextIs (kind : Kind) : Parser Bool := return (← next?).any (·.kind == kind)

def acceptIf (test : Kind → Bool) : Parser (Option Token) := do
  match ← next? with
  | some t => if test t.kind then advance; return some t else return none
  | none => return none

def accept (kind : Kind) : Parser (Option Token) := acceptIf (· == kind)

def expect (kind : Kind) (what : Expected) : Parser Token := do
  match ← accept kind with
  | some t => return t
  | none => fail (.expected what)

/-- One or more items with commas between them. Items from `maxArity` on are complained about,
each where it begins, but taken all the same; `taken` is the number of items before these. -/
def commaSeparated {α : Type} (excess : Problem) (item : Parser α) (taken : Nat) :
    (bound : Nat) → Parser (List α)
  | 0 => return [← item]
  | bound + 1 => do
    if maxArity ≤ taken then complain excess
    let first ← item
    match ← accept .comma with
    | some _ => return first :: (← commaSeparated excess item (taken + 1) bound)
    | none => return [first]

/-- Items with commas between them up to a closing parenthesis, which stays. -/
def list {α : Type} (bound : Nat) (excess : Problem) (item : Parser α) : Parser (List α) := do
  if ← nextIs .rightParen then return [] else commaSeparated excess item 0 bound

def startsStatement : Kind → Bool
  | .keyword .class_ | .keyword .fun_ | .keyword .var | .keyword .for_ | .keyword .if_
  | .keyword .while_ | .keyword .print | .keyword .return_ => true
  | _ => false

/-- The tokens from the next statement on: those behind a semicolon, or from a token that starts a
statement. `previous` is the token that stood before these. -/
def nextStatement (previous : Token) : List Token → List Token
  | [] => []
  | t :: tokens =>
    if previous.kind = .semicolon ∨ startsStatement t.kind then t :: tokens
    else nextStatement t tokens

/-- Leaves the token that could not be read, and what follows it up to the next statement. -/
def synchronize : List Token → List Token
  | [] => []
  | t :: tokens => nextStatement t tokens

/-- Reads on at the next statement where a rule was given up. -/
def recover {α : Type} (p : Parser α) : Parser (Option α) :=
  tryCatch (some <$> p) fun _ => do
    modify fun s => { s with tokens := synchronize s.tokens }
    return none

section
variable {α β : Type}

@[simp] theorem pure_run (a : α) (s : ParserState) : (pure a : Parser α) s = .ok a s := rfl

theorem bind_run (p : Parser α) (f : α → Parser β) (s : ParserState) :
    (p >>= f) s =
      match p s with
      | .ok a s => f a s
      | .error e s => .error e s := by
  show EStateM.bind p f s = _
  unfold EStateM.bind
  cases p s <;> rfl

theorem bind_ok {p : Parser α} {s t : ParserState} {a : α} (h : p s = .ok a t)
    (f : α → Parser β) : (p >>= f) s = f a t := by
  rw [bind_run, h]

theorem map_ok {p : Parser α} {s t : ParserState} {a : α} (h : p s = .ok a t) (f : α → β) :
    (f <$> p) s = .ok (f a) t := by
  rw [← bind_pure_comp, bind_ok h, pure_run]

end

theorem acceptIf_nil (test : Kind → Bool) (cs : List Complaint) :
    acceptIf test ⟨[], cs⟩ = .ok none ⟨[], cs⟩ := rfl

theorem acceptIf_cons (test : Kind → Bool) (t : Token) (ts : List Token) (cs : List Complaint) :
    acceptIf test ⟨t :: ts, cs⟩ =
      if test t.kind then .ok (some t) ⟨ts, cs⟩ else .ok none ⟨t :: ts, cs⟩ := by
  show (if test t.kind then _ else _ : Parser _) _ = _
  split <;> rfl

theorem recover_run {α : Type} (p : Parser α) (s : ParserState) :
    recover p s =
      match p s with
      | .ok a s => .ok (some a) s
      | .error _ s => .ok none { s with tokens := synchronize s.tokens } := by
  show EStateM.tryCatch (EStateM.map some p) _ s = _
  unfold EStateM.tryCatch EStateM.map
  cases p s <;> rfl

end Parser
end Lox
