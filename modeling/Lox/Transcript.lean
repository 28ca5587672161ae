/-!
What a run writes. The two output streams are read off one list of events, so that their common
order is never lost.
-/
namespace Lox

inductive Event
  /-- A line of output. -/
  | printed (text : String)
  /-- Output that does not end its line. -/
  | prompted (text : String)
  | traced (line : Nat) (kind : String)
  | reported (text : String)
deriving DecidableEq

namespace Event

def output : Event → String
  | printed text => text ++ "\n"
  | prompted text => text
  | _ => ""

def messages : Event → String
  | traced line kind => "TRACE line=" ++ toString line ++ " " ++ kind ++ "\n"
  | reported text => text ++ "\n"
  | _ => ""

end Event

/-- Events, newest first. -/
abbrev Transcript := List Event

namespace Transcript

def join (texts : List String) : String := texts.foldl (· ++ ·) ""

def output (t : Transcript) : String := join (t.reverse.map Event.output)

def messages (t : Transcript) : String := join (t.reverse.map Event.messages)

theorem output_cons (e : Event) (t : Transcript) : output (e :: t) = t.output ++ e.output := by
  simp [output, join]

theorem output_append (newer older : Transcript) :
    output (newer ++ older) = older.output ++ newer.output := by
  induction newer with
  | nil => simp [output, join]
  | cons e newer ih => rw [List.cons_append, output_cons, output_cons, ih, String.append_assoc]

end Transcript
end Lox
