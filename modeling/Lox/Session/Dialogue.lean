import Lox.Session
import Lox.Text.Blank
/-!
Dialogues. Lines are typed in one by one and collected until their braces balance; each complete
input then runs on the session by itself.
-/
namespace Lox

mutual

/-- The opening less the closing braces of a line, strings and comments left out. -/
def braceBalance : List Char → Int
  | [] => 0
  | '/' :: '/' :: _ => 0
  | '"' :: line => stringBraceBalance line
  | '{' :: line => braceBalance line + 1
  | '}' :: line => braceBalance line - 1
  | _ :: line => braceBalance line

/-- The same for the part of a line that begins within a string. -/
def stringBraceBalance : List Char → Int
  | [] => 0
  | '"' :: line => braceBalance line
  | '\\' :: _ :: line => stringBraceBalance line
  | _ :: line => stringBraceBalance line

end

structure Draft where
  /-- Newest first. -/
  lines : List String
  balance : Int

inductive Reaction
  | quit
  | ignored
  | continued (draft : Draft)
  | completed (source : String)

namespace Draft

def empty : Draft := ⟨[], 0⟩

def quitWords : List String := [":q", ":quit", "quit", "exit"]

/-- The text of lines given newest first, each with a line feed behind it. -/
def source (lines : List String) : String := "\n".intercalate lines.reverse ++ "\n"

/-- Takes in a line. Words for quitting and blank lines only count where an input may begin; an
input is complete when it opens no more braces than it closes. -/
def take (d : Draft) (line : String) : Reaction :=
  let trimmed := Text.trimmed line
  if d.lines.isEmpty ∧ trimmed ∈ quitWords then .quit
  else if d.lines.isEmpty ∧ trimmed = "" then .ignored
  else
    let lines := line :: d.lines
    let balance := d.balance + braceBalance line.toList
    if 0 < balance then .continued ⟨lines, balance⟩ else .completed (source lines)

end Draft

structure Dialogue where
  session : Session
  draft : Draft
  isOver : Bool

namespace Dialogue

def start (session : Session) : Dialogue :=
  ⟨session.record (.printed "Lox REPL. Type :q to quit."), .empty, false⟩

def prompt (d : Dialogue) : String := if d.draft.lines.isEmpty then "> " else "... "

def ask (d : Dialogue) : Dialogue := { d with session := d.session.record (.prompted d.prompt) }

/-- Runs one complete input; the next one starts with a clean record. -/
def submit (settings : Settings) (s : Session) (source : String) : Session :=
  (s.runInput settings source).reportBreakdown.reset

def answer (settings : Settings) (d : Dialogue) (line : String) : Dialogue :=
  match d.draft.take line with
  | .quit => { d with isOver := true }
  | .ignored => d
  | .continued draft => { d with draft }
  | .completed source => { d with session := submit settings d.session source, draft := .empty }

def close (d : Dialogue) : Dialogue :=
  { d with session := d.session.record (.printed ""), isOver := true }

def run (settings : Settings) : List String → Dialogue → Dialogue
  | [], d => d.ask.close
  | line :: lines, d =>
    let d := d.ask.answer settings line
    if d.isOver then d else run settings lines d

end Dialogue
end Lox
