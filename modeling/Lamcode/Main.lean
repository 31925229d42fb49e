import Lamcode.Command.Disk

/-!
# Lamcode.Main — the command line

Reads and writes files and talks to the console. What to print and to write is decided by
`Command.perform`. A program that reads from the console is run from one line to the next, so that what
it has written is on the screen before it waits.
-/

namespace Lamcode.Main

/-- More instructions than a run can execute in a lifetime. -/
def fuel : Nat := 1000000000000000000

/-- The reason of an error of the file system. -/
def reason : IO.Error → String
  | .noFileOrDirectory .. => Obstacle.missing.message
  | .inappropriateType _ 21 _ => Obstacle.isDirectory.message
  | .inappropriateType _ _ _ => Obstacle.notDirectory.message
  | .invalidArgument (some _) _ _ => Obstacle.nameTooLong.message
  | e => toString e

/-- Reads a text file. -/
def readText (path : String) : IO (Except String String) := do
  try
    let bytes ← IO.FS.readBinFile path
    match String.fromUTF8? bytes with
    | some text => return .ok text
    | none => return .error "stream did not contain valid UTF-8"
  catch e => return .error (reason e)

/-- Writes the file of an effect, if it has one. -/
def save (p : Reporter) (e : Effect) : IO Effect := do
  match e.save with
  | none => return e
  | some (path, text) =>
    try
      IO.FS.writeFile path text
      return e
    catch err => return e.saveFailed p (reason err)

/-- Prints an effect and returns its exit code. -/
def finish (e : Effect) : IO UInt32 := do
  IO.print e.stdout
  IO.eprint e.stderr
  return if e.failed then 1 else 0

/-- Runs a machine against the console, one line of input after the other. A read without input leaves
the machine in front of its instruction, so it can be resumed when there is another line. -/
partial def converse (m : Machine) (c : Console) : IO (Except Fault Unit) := do
  match m.runToHalt Console.host fuel c with
  | none => return .ok ()
  | some (r, m, c) =>
    IO.print c.output
    (← IO.getStdout).flush
    match r with
    | .error .noInput =>
      let line ← (← IO.getStdin).getLine
      if line.isEmpty then return r
      else converse { m with status := .idle } ⟨line.toUTF8.toList, ""⟩
    | r => return r

/-- Loads and runs a program that reads from the console. -/
def runConsole (p : Reporter) (l : Command.Loaded) : IO UInt32 := do
  IO.eprint (p.texts l.source l.warnings)
  match l.words with
  | .error e => finish (.failure p l.source [] "" e)
  | .ok words =>
    match ← converse (.ofWords words) ⟨[], ""⟩ with
    | .ok _ => return 0
    | .error e => finish (.failure p l.source [] "" (.fault e))

/-- Carries out a command line. -/
def run (arguments : List String) : IO UInt32 := do
  match Arguments.parse arguments with
  | .error .help =>
    IO.println "usage: [--json] (build | run | ast | disasm) FILE [OPTIONS]"
    return 0
  | .error .invalid =>
    IO.eprintln "usage: [--json] (build | run | ast | disasm) FILE [OPTIONS]"
    return 2
  | .ok inv =>
    let p : Reporter := ⟨inv.json, ← (← IO.getStderr).isTty⟩
    match inv.command, ← readText inv.command.file with
    | .run _ isImage seed [], .ok text => runConsole p (Command.load isImage seed text)
    | command, content =>
      match command.perform p fuel [] content with
      | none => return 1
      | some e => finish (← save p e)

end Lamcode.Main

/-- The entry point. -/
def main (arguments : List String) : IO UInt32 :=
  Lamcode.Main.run arguments
