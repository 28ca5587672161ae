import Lox.Session.Dialogue
import Mathlib.Algebra.Ring.Int.Defs

/-! Dialogues in exchanges. In each exchange a blank line is passed over or the lines of one input
are taken in and run; one after the other, the exchanges account for all lines up to a word for
quitting or the end, where the lines of an input may be left that braces keep open. -/

namespace Lox
namespace Dialogue

/-- The braces that the lines leave open. -/
def balance (lines : List String) : Int := (lines.map (braceBalance ·.toList)).sum

/-- An input may begin with these lines. -/
def Begins (lines : List String) : Prop :=
  ∀ line ∈ lines.head?, Text.trimmed line ∉ Draft.quitWords ∧ Text.trimmed line ≠ ""

/-- Lines that wait for more: behind each of them some brace is open. -/
structure Waiting (lines : List String) : Prop where
  begins : Begins lines
  opened : ∀ p, p <+: lines → p ≠ [] → 0 < balance p

/-- Lines that make an input: behind the last of them, and behind no other, no brace is open. -/
structure Complete (lines : List String) : Prop where
  begins : Begins lines
  ne_nil : lines ≠ []
  closed : balance lines ≤ 0
  opened : ∀ p, p <+: lines → p ≠ [] → p ≠ lines → 0 < balance p

section Waiting
variable {held : List String} {line : String}

theorem Waiting.complete (h : Waiting held) (hbegins : Begins (held ++ [line]))
    (hbalance : balance (held ++ [line]) ≤ 0) : Complete (held ++ [line]) where
  begins := hbegins
  ne_nil := by simp
  closed := hbalance
  opened p hp hne hproper := by
    rcases List.prefix_concat_iff.1 hp with rfl | hp
    · exact absurd rfl hproper
    · exact h.opened p hp hne

end Waiting

/-- The session once `n` lines of an input have been asked for. -/
def asked (s : Session) : Nat → Session
  | 0 => s
  | n + 1 => (asked s n).record (.prompted (if n = 0 then "> " else "... "))

inductive Exchange
  | blank (line : String)
  | input (lines : List String)

namespace Exchange

def lines : Exchange → List String
  | blank line => [line]
  | input lines => lines

/-- The session on which the lines, once they are all there, take effect. -/
def before (s : Session) (e : Exchange) : Session := asked s e.lines.length

def perform (settings : Settings) (s : Session) (e : Exchange) : Session :=
  match e with
  | blank _ => e.before s
  | input lines => submit settings (e.before s) ("\n".intercalate lines ++ "\n")

def Proper : Exchange → Prop
  | blank line => Text.trimmed line = ""
  | input lines => Complete lines

end Exchange

/-- How a dialogue goes: the exchanges, the lines of an input that is left unfinished and those
that are not read. -/
structure Course where
  exchanges : List Exchange
  draft : List String
  unread : List String

namespace Course

def lines (c : Course) : List String := c.exchanges.flatMap Exchange.lines ++ c.draft ++ c.unread

structure Proper (c : Course) : Prop where
  exchanges : ∀ e ∈ c.exchanges, e.Proper
  draft : Waiting c.draft
  /-- The lines end, or one of them is a word for quitting where an input may begin. -/
  ends : c.unread = [] ∨
    c.draft = [] ∧ ∃ word more, c.unread = word :: more ∧ Text.trimmed word ∈ Draft.quitWords

def perform (settings : Settings) (c : Course) (s : Session) : Session :=
  let s := asked (c.exchanges.foldl (Exchange.perform settings) s) (c.draft.length + 1)
  if c.unread = [] then s.record (.printed "") else s

def cons (e : Exchange) (c : Course) : Course := { c with exchanges := e :: c.exchanges }

theorem Proper.cons {c : Course} {e : Exchange} (he : e.Proper) (hc : c.Proper) :
    (c.cons e).Proper where
  exchanges := List.forall_mem_cons.2 ⟨he, hc.exchanges⟩
  draft := hc.draft
  ends := hc.ends

end Course

/-- The dialogue in which `held` waits for more lines. -/
def holding (s : Session) (held : List String) : Dialogue :=
  ⟨asked s held.length, ⟨held.reverse, balance held⟩, false⟩

/-- What becomes of the dialogue in which `held` waits, once it has asked for the line. -/
inductive Answers (settings : Settings) (s : Session) (held : List String) (line : String) :
    Dialogue → Prop
  | quit (first : held = []) (word : Text.trimmed line ∈ Draft.quitWords) :
    Answers settings s held line ⟨asked s 1, .empty, true⟩
  | ignored (first : held = []) (blank : Text.trimmed line = "") :
    Answers settings s held line (holding ((Exchange.blank line).perform settings s) [])
  | continued (waiting : Waiting (held ++ [line])) :
    Answers settings s held line (holding s (held ++ [line]))
  | completed (complete : Complete (held ++ [line])) :
    Answers settings s held line
      (holding ((Exchange.input (held ++ [line])).perform settings s) [])

section
variable (settings : Settings) (s : Session) {held : List String}

end

/-- Neither flag is up. -/
def Clear (s : Session) : Prop :=
  s.diagnostics.hadError = false ∧ s.diagnostics.hadRuntimeError = false

theorem asked_diagnostics (s : Session) (n : Nat) : (asked s n).diagnostics = s.diagnostics := by
  induction n with
  | zero => rfl
  | succ n ih => exact ih

theorem Clear.before {s : Session} (h : Clear s) (e : Exchange) : Clear (e.before s) := by
  unfold Clear Exchange.before
  rw [asked_diagnostics]
  exact h

theorem Clear.perform {s : Session} (h : Clear s) (settings : Settings) (e : Exchange) :
    Clear (e.perform settings s) := by
  cases e with
  | blank line => exact h.before (.blank line)
  | input lines => exact ⟨rfl, rfl⟩

theorem Clear.foldl {s : Session} (h : Clear s) (settings : Settings) (exchanges : List Exchange) :
    Clear (exchanges.foldl (Exchange.perform settings) s) := by
  induction exchanges generalizing s with
  | nil => exact h
  | cons e exchanges ih => exact ih (h.perform settings e)

end Dialogue
end Lox
