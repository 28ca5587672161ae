import Lox.Session.Dialogue
import Lox.Syntax.Outline
/-!
The command line: what its arguments ask for, what each command writes and how it exits.
-/
namespace Lox

inductive Command
  | run (path : String)
  | parse (path : String)
  | tokens (path : String)
  | dialogue

structure Invocation where
  command : Command
  trace : Bool

inductive UsageError
  | malformed
  | unknownCommand (name : String)

namespace UsageError

def usage : List String := [
  "Usage:",
  "  python cli.py run <file.lox>",
  "  python cli.py parse <file.lox>",
  "  python cli.py tokens <file.lox>",
  "  python cli.py repl",
  "  (optional) --debug to show Python traceback",
  "  (optional) --trace to print each executed statement"]

def lines : UsageError → List String
  | malformed => usage
  | unknownCommand name => ("Unknown command: " ++ name) :: usage

end UsageError

def Command.ofWords : List String → Except UsageError Command
  | ["repl"] => .ok .dialogue
  | ["run", path] => .ok (.run path)
  | ["parse", path] => .ok (.parse path)
  | ["tokens", path] => .ok (.tokens path)
  | [] | "repl" :: _ | "run" :: _ | "parse" :: _ | "tokens" :: _ => .error .malformed
  | [path] => .ok (.run path)
  | name :: _ => .error (.unknownCommand name)

/-- Options may stand anywhere among the other arguments. -/
def Invocation.ofArguments (arguments : List String) : Except UsageError Invocation :=
  match Command.ofWords (arguments.filter fun a => a ≠ "--debug" ∧ a ≠ "--trace") with
  | .ok command => .ok ⟨command, arguments.contains "--trace"⟩
  | .error e => .error e

def Command.path? : Command → Option String
  | run path | parse path | tokens path => some path
  | dialogue => none

structure Report where
  exitCode : Nat
  transcript : Transcript

namespace Report

def usageCode : Nat := 64
def dataErrorCode : Nat := 65
def noInputCode : Nat := 66
def softwareCode : Nat := 70

def ofUsageError (e : UsageError) : Report := ⟨usageCode, e.lines.reverse.map .reported⟩

def unreadable (path reason : String) : Report :=
  ⟨noInputCode, [.reported ("Cannot read " ++ path ++ ": " ++ reason)]⟩

def ofErrors (errors : List StaticError) (output : List String) : Report :=
  ⟨if errors.isEmpty then 0 else dataErrorCode,
    (errors.map (fun e => Event.reported e.text) ++ output.map Event.printed).reverse⟩

end Report

namespace Token

/-- A literal as it stands behind the kind of its token. -/
def literalText : Literal → String
  | .string value => Text.quoted value
  | value => value.listed

def text (t : Token) : String :=
  match t.kind with
  | .literal .nil => t.kind.name
  | .literal value => t.kind.name ++ "(" ++ literalText value ++ ")"
  | .identifier => t.kind.name ++ "(" ++ t.lexeme ++ ")"
  | kind => kind.name

end Token

namespace Scan

def padding (width : Nat) (text : String) : String :=
  String.ofList (List.replicate (width - text.length) ' ')

/-- A line of the listing of tokens: place and text. -/
def row (p : Position) (text : String) : String :=
  let line := toString p.line
  let column := toString p.column
  "  " ++ padding 4 line ++ line ++ ":" ++ column ++ padding 3 column ++ " " ++ text

def listing (s : Scan) : List String :=
  s.tokens.map (fun t => row t.position t.text) ++ [row s.finish "EOF"]

end Scan

namespace Command

def tokensReport (source : String) : Report :=
  let scan := Scan.ofText source
  .ofErrors scan.errors scan.listing

def parseReport (source : String) : Report :=
  let scan := Scan.ofText source
  let parse := Parse.program scan.tokens
  .ofErrors (scan.errors ++ parse.errors scan.finish.line) [Stmt.listing parse.value]

def runReport (settings : Settings) (clock : Float) (source : String) : Report :=
  let s := (Session.initial clock).runProgram settings source
  let code :=
    if s.breakdown.isSome then Report.softwareCode
    else if s.diagnostics.hadError then Report.dataErrorCode
    else if s.diagnostics.hadRuntimeError then Report.softwareCode
    else 0
  ⟨code, s.reportBreakdown.machine.events⟩

def dialogueReport (settings : Settings) (clock : Float) (input : String) : Report :=
  let d := Dialogue.run settings (Text.lines input) (.start (.initial clock))
  ⟨0, d.session.machine.events⟩

end Command

inductive FileError
  | notFound
  | isDirectory
  | notDirectory
  | other (reason : String)

def FileError.text : FileError → String
  | notFound => "No such file or directory"
  | isDirectory => "Is a directory"
  | notDirectory => "Not a directory"
  | other reason => reason

def sourceText (bytes : ByteArray) : Option String :=
  (String.fromUTF8? bytes).map fun text => String.ofList (Text.unifyLineEnds text.toList)

/-- What an invocation comes to, given the files and the standard input. A file whose bytes are no
text has no report. -/
def Invocation.report (i : Invocation) (clock : Float) (read : String → Except FileError ByteArray)
    (input : String) : Option Report :=
  let settings : Settings := { trace := i.trace }
  let withFile (path : String) (f : String → Report) : Option Report :=
    match read path with
    | .error e => some (.unreadable path e.text)
    | .ok bytes => (sourceText bytes).map f
  match i.command with
  | .run path => withFile path (Command.runReport settings clock)
  | .parse path => withFile path Command.parseReport
  | .tokens path => withFile path Command.tokensReport
  | .dialogue => some (Command.dialogueReport settings clock input)

def Report.ofArguments (arguments : List String) (clock : Float)
    (read : String → Except FileError ByteArray) (input : String) : Option Report :=
  match Invocation.ofArguments arguments with
  | .ok i => i.report clock read input
  | .error e => some (.ofUsageError e)

end Lox
