import Lox.Problem
/-!
The messages of a run and what they mean for it. Messages stay for good; the two flags say whether
any was added since the last reset, and of which sort.
-/
namespace Lox

structure Diagnostics where
  /-- Newest first. -/
  log : List String
  hadError : Bool
  hadRuntimeError : Bool

namespace Diagnostics

def empty : Diagnostics := ⟨[], false, false⟩

/-- Oldest first. -/
def messages (d : Diagnostics) : List String := d.log.reverse

def lineText : Option Int → String
  | none => "None"
  | some line => toString line

def staticText (line : Option Int) (place : String) (message : String) : String :=
  "[line " ++ lineText line ++ "] Error" ++ place ++ ": " ++ message

/-- The message of a runtime error; the line goes below it when there is one. -/
def runtimeText (message : String) : Option Int → String
  | none => message
  | some line => message ++ "\n[line " ++ toString line ++ "]"

def addStatic (d : Diagnostics) (text : String) : Diagnostics :=
  { d with log := text :: d.log, hadError := true }

def addRuntime (d : Diagnostics) (text : String) : Diagnostics :=
  { d with log := text :: d.log, hadRuntimeError := true }

def reset (d : Diagnostics) : Diagnostics := { d with hadError := false, hadRuntimeError := false }

end Diagnostics

def StaticError.text (e : StaticError) : String :=
  Diagnostics.staticText (some e.line) e.place.text e.problem.text

end Lox
