import Lamcode.Command.Arguments
import Lamcode.Machine.Console
import Lamcode.Machine.Run
import Lamcode.Report.Render
import Lamcode.Tree.Json
import Lamcode.Tree.Print

/-!
# Lamcode.Command.Perform — carrying out a command

A command is a function of the content of its file and of what can be read from the console. It says
what to print and which file to write; printing and writing are left to its caller.
-/

namespace Lamcode

/-- How reports are printed: as JSON or for people, and then with or without colour. -/
structure Reporter where
  json : Bool
  color : Bool
  deriving DecidableEq

namespace Reporter

/-- A report as it is printed. -/
def text (p : Reporter) (r : Report) : String :=
  if p.json then r.json ++ "\n" else r.render p.color

/-- Reports on a source, one below the other. -/
def texts (p : Reporter) (source : Option String) (rs : List Report) : String :=
  String.join (rs.map fun r => p.text { r with source })

end Reporter

/-- What carrying out a command comes to. -/
structure Effect where
  stdout : String
  stderr : String
  failed : Bool
  /-- A file to write, with its content. -/
  save : Option (String × String)

namespace Effect

/-- The effect of a command that prints `stdout`. -/
def success (p : Reporter) (source : Option String) (warnings : List Report) (stdout : String) :
    Effect :=
  ⟨stdout, p.texts source warnings, false, none⟩

/-- The effect of a command that fails after it has printed `stdout`. -/
def failure (p : Reporter) (source : Option String) (warnings : List Report) (stdout : String)
    (f : Failure) : Effect :=
  ⟨stdout, p.texts source (warnings ++ [f.report]), true, none⟩

/-- The effect when the file of an effect cannot be written. -/
def saveFailed (e : Effect) (p : Reporter) (reason : String) : Effect :=
  { e with
    stderr := e.stderr ++ p.text (Failure.file reason).report
    failed := true
    save := none }

end Effect

namespace Command

/-- Compiles a source text, with the warnings about it. -/
def compile (text : String) (o : Options) : List Report × Except Failure Compiled :=
  match Program.parse text with
  | .error e => ([], .error e)
  | .ok p => (Report.reassigned p, (Compile.program p o).mapError Failure.compile)

/-- What a text is loaded as: its words or why it has none, the warnings about it, and the source that
reports on it refer to. An image is no source. -/
structure Loaded where
  source : Option String
  warnings : List Report
  words : Except Failure (List Int)

/-- Loads an image, or compiles a source. -/
def load (isImage : Bool) (seed : Option UInt64) (text : String) : Loaded :=
  if isImage then ⟨none, [], (Image.parse text).mapError Failure.image⟩
  else
    let (warnings, compiled) := compile text { Options.standard with seed }
    ⟨some text, warnings, compiled.map Compiled.words⟩

/-- Runs an image, on the given values or, without any, on the lines of the console. Returns what was
written and how the run ended; `none` means that `fuel` instructions were not enough. -/
def runWords (fuel : Nat) (inputs : List Int) (stdin : List UInt8) (words : List Int) :
    Option (String × Except Fault Unit) :=
  let m := Machine.ofWords words
  if inputs.isEmpty then
    (m.runToHalt Console.host fuel ⟨stdin, ""⟩).map fun (r, _, c) => (c.output, r)
  else
    (m.runToHalt Queue.host fuel (.ofInputs inputs)).map fun (r, _, q) =>
      (String.join (q.outputs.map fun v => Text.Numeral.write v ++ "\n"), r)

/-- Carries out `build`. -/
def buildEffect (p : Reporter) (output : Option String) (o : Options) (text : String) : Effect :=
  match compile text o with
  | (warnings, .error e) => .failure p (some text) warnings "" e
  | (warnings, .ok c) =>
    let image := Image.render c.words ++ "\n"
    match output with
    | none => .success p (some text) warnings image
    | some path => { Effect.success p (some text) warnings "" with save := some (path, image) }

/-- Carries out `run`. -/
def runEffect (p : Reporter) (fuel : Nat) (stdin : List UInt8) (inputs : List Int) (l : Loaded) :
    Option Effect :=
  match l.words with
  | .error e => some (.failure p l.source l.warnings "" e)
  | .ok words =>
    (runWords fuel inputs stdin words).map fun
      | (stdout, .ok _) => .success p l.source l.warnings stdout
      | (stdout, .error e) => .failure p l.source l.warnings stdout (.fault e)

/-- Carries out `ast`. -/
def astEffect (p : Reporter) (pretty : Bool) (text : String) : Effect :=
  match Program.parse text with
  | .error e => .failure p (some text) [] "" e
  | .ok program =>
    .success p (some text) []
      (if pretty then Assignment.printAll 0 program.assignments
      else (Assignment.programJson program.assignments).indented 0 ++ "\n")

/-- Carries out `disasm`. An image has no symbols. -/
def disasmEffect (p : Reporter) (isImage : Bool) (seed : Option UInt64) (text : String) : Effect :=
  if isImage then
    match Image.parse text with
    | .error e => .failure p none [] "" (.image e)
    | .ok words => .success p none [] (Listing.render words [])
  else
    match compile text { Options.standard with seed } with
    | (warnings, .error e) => .failure p (some text) warnings "" e
    | (warnings, .ok c) => .success p (some text) warnings (Listing.render c.words c.symbols)

/-- Carries out a command, given the content of its file or the reason why it cannot be read. -/
def perform (p : Reporter) (fuel : Nat) (stdin : List UInt8) (content : Except String String)
    (c : Command) : Option Effect :=
  match content with
  | .error reason => some (.failure p none [] "" (.file reason))
  | .ok text =>
    match c with
    | .build _ output o => some (buildEffect p output o text)
    | .run _ isImage seed inputs => runEffect p fuel stdin inputs (load isImage seed text)
    | .ast _ pretty => some (astEffect p pretty text)
    | .disasm _ isImage seed => some (disasmEffect p isImage seed text)

end Command

end Lamcode
