import Lox.Command
/-!
The program. It reads what its arguments name, and writes what they come to.
-/
namespace Lox.Main

def fileError : IO.Error → FileError
  | .noFileOrDirectory .. => .notFound
  | .inappropriateType _ 20 _ => .notDirectory
  | .inappropriateType .. => .isDirectory
  | .permissionDenied .. => .other "Permission denied"
  | e => .other (toString e)

def readFile (path : String) : IO (Except FileError ByteArray) := do
  try return .ok (← IO.FS.readBinFile path)
  catch e => return .error (fileError e)

/-- Writes events, newest first, in the order in which they happened. -/
def write (events : Transcript) : IO Unit := do
  for e in events.reverse do
    IO.print e.output
    IO.eprint e.messages
  (← IO.getStdout).flush

def seconds : IO Float := return (← IO.monoMsNow).toFloat / 1000

def tell (d : Dialogue) : IO Dialogue := do
  write d.session.machine.events
  return { d with session := d.session.forget }

def converse (settings : Settings) : IO Unit := do
  let input ← IO.getStdin
  let mut d ← tell (.start (.initial (← seconds)))
  while !d.isOver do
    d ← tell d.ask
    let line ← input.getLine
    if line.isEmpty then d ← tell d.close
    else d ← tell (d.answer settings (String.ofList (line.toList.takeWhile (· ≠ '\n'))))

end Lox.Main

open Lox in
def main (arguments : List String) : IO UInt32 := do
  match Invocation.ofArguments arguments with
  | .ok ⟨.dialogue, trace⟩ =>
    Main.converse { trace }
    return 0
  | .ok i =>
    let content ← Main.readFile (i.command.path?.getD "")
    match i.report (← Main.seconds) (fun _ => content) "" with
    | some r =>
      Main.write r.transcript
      return r.exitCode.toUInt32
    | none =>
      IO.eprintln "The file is not UTF-8 text."
      return 1
  | .error e =>
    let r := Report.ofUsageError e
    Main.write r.transcript
    return r.exitCode.toUInt32
