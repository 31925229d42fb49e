import Lamcode.Compile.Image

/-!
# Lamcode.Command.Arguments — command lines

A command line names one of four commands, the file it works on and options. An option's value is the
next argument or follows an equals sign; an argument that starts with `-` is no value, a negative number
for `--input` apart. Behind `--` nothing is an option. Arguments are taken from left to right, and the
first one that is wrong or asks for help decides.
-/

namespace Lamcode

/-- What to do. -/
inductive Command where
  /-- Compile a source and write its image to a file or to the output. -/
  | build (file : String) (output : Option String) (options : Options)
  /-- Run a source or an image. -/
  | run (file : String) (isImage : Bool) (seed : Option UInt64) (inputs : List Int)
  /-- Print the tree of a source. -/
  | ast (file : String) (pretty : Bool)
  /-- List the instructions of a source's image or of an image. -/
  | disasm (file : String) (isImage : Bool) (seed : Option UInt64)
  deriving DecidableEq

/-- The file that a command works on. -/
def Command.file : Command → String
  | .build file .. | .run file .. | .ast file .. | .disasm file .. => file

/-- A command and how to report on it. -/
structure Invocation where
  json : Bool
  command : Command
  deriving DecidableEq

namespace Arguments

/-- Why a command line names no command to carry out. -/
inductive Refusal where
  /-- It asks what can be done. -/
  | help
  | invalid
  deriving DecidableEq

/-- What the value of an option has to be. -/
inductive Kind where
  | path
  | word
  /-- Such an option may stand more than once. -/
  | integer
  deriving DecidableEq

/-- The value of an option. -/
inductive Value where
  | path (text : String)
  | word (value : UInt64)
  | integer (value : Int)
  deriving DecidableEq

/-- What a command takes beside its file: flags, options with a value, and which of the options has a
one-letter form. -/
structure Shape where
  flags : List String
  options : List (String × Kind)
  short : Option (Char × String)

/-- The kind of an option. -/
def Shape.kind? (shape : Shape) (name : String) : Option Kind :=
  shape.options.lookup name

/-- How one argument is to be taken. -/
inductive Role where
  | flag (name : String)
  | valued (name : String) (kind : Kind) (text : String)
  /-- The value is the next argument. -/
  | wanting (name : String) (kind : Kind)
  | file
  | help
  | unknown

/-- The role of an argument that starts with two dashes. -/
def longRole (shape : Shape) (body : List Char) : Role :=
  let name := String.ofList (body.takeWhile (· != '='))
  match body.dropWhile (· != '='), shape.kind? name with
  | [], some kind => .wanting name kind
  | _ :: text, some kind => .valued name kind (String.ofList text)
  | [], none =>
    if name == "help" then .help else if shape.flags.contains name then .flag name else .unknown
  | _, none => .unknown

/-- The role of an argument that starts with one dash and `c`. -/
def shortRole (shape : Shape) (c : Char) (rest : List Char) : Role :=
  if c == 'h' then .help
  else
    match shape.short.bind fun s => if s.1 == c then (shape.kind? s.2).map (s.2, ·) else none with
    | none => .unknown
    | some (name, kind) =>
      match rest with
      | [] => .wanting name kind
      | '=' :: text => .valued name kind (String.ofList text)
      | text => .valued name kind (String.ofList text)

/-- The role of an argument. -/
def role (shape : Shape) (argument : String) : Role :=
  match argument.toList with
  | '-' :: '-' :: body => longRole shape body
  | '-' :: c :: rest => shortRole shape c rest
  | _ => .file

/-- Whether the characters are digits, at least one. -/
def areDigits (cs : List Char) : Bool :=
  !cs.isEmpty && cs.all Char.isDigit

/-- Whether an argument can be the value of the option in front of it. -/
def isValue (kind : Kind) (argument : String) : Bool :=
  match argument.toList with
  | ['-'] => true
  | '-' :: rest => kind == .integer && areDigits rest
  | _ => true

/-- An unsigned 64-bit number in decimal, with or without a plus sign. -/
def readWord? (s : String) : Option UInt64 :=
  let digits :=
    match s.toList with
    | '+' :: rest => rest
    | cs => cs
  if areDigits digits then
    let n := digits.foldl (fun n c => n * 10 + (c.toNat - '0'.toNat)) 0
    if n < UInt64.size then some n.toUInt64 else none
  else none

/-- Reads the value of an option. A path is not empty. -/
def Kind.read? (kind : Kind) (text : String) : Option Value :=
  match kind with
  | .path => if text.isEmpty then none else some (.path text)
  | .word => (readWord? text).map .word
  | .integer => (Text.Numeral.read? text).map .integer

/-- The arguments that have been taken. -/
structure Given where
  flags : List String
  values : List (String × Value)
  file : Option String

namespace Given

/-- Nothing has been taken yet. -/
def empty : Given :=
  ⟨[], [], none⟩

/-- Takes a flag, which may stand once. -/
def addFlag (g : Given) (name : String) : Except Refusal Given :=
  if g.flags.contains name then .error .invalid else .ok { g with flags := name :: g.flags }

/-- Takes an option with its value. -/
def addValue (g : Given) (name : String) (kind : Kind) (text : String) : Except Refusal Given :=
  match kind.read? text with
  | none => .error .invalid
  | some value =>
    if kind != .integer && g.values.any (·.1 == name) then .error .invalid
    else .ok { g with values := g.values ++ [(name, value)] }

/-- Takes the file, of which there is one. -/
def addFile (g : Given) (path : String) : Except Refusal Given :=
  if g.file.isSome || path.isEmpty then .error .invalid else .ok { g with file := some path }

/-- The path given for an option. -/
def path? (g : Given) (name : String) : Option String :=
  match g.values.lookup name with
  | some (.path text) => some text
  | _ => none

/-- The 64-bit number given for an option. -/
def word? (g : Given) (name : String) : Option UInt64 :=
  match g.values.lookup name with
  | some (.word w) => some w
  | _ => none

/-- The integers given for an option. -/
def integers (g : Given) (name : String) : List Int :=
  g.values.filterMap fun
    | (n, .integer v) => if n == name then some v else none
    | _ => none

end Given

/-- Takes arguments, one after the other. -/
def take (shape : Shape) : List String → Given → Except Refusal Given
  | [], g => .ok g
  | argument :: rest, g =>
    if argument == "--" then rest.foldlM Given.addFile g
    else
      match role shape argument with
      | .help => .error .help
      | .unknown => .error .invalid
      | .file => g.addFile argument >>= take shape rest
      | .flag name => g.addFlag name >>= take shape rest
      | .valued name kind text => g.addValue name kind text >>= take shape rest
      | .wanting name kind =>
        match rest with
        | [] => .error .invalid
        | text :: rest =>
          if isValue kind text then g.addValue name kind text >>= take shape rest
          else .error .invalid

/-- The commands. -/
inductive Name where
  | build
  | run
  | ast
  | disasm
  deriving DecidableEq

namespace Name

/-- The command of a name. -/
def ofText? : String → Option Name
  | "build" => some .build
  | "run" => some .run
  | "ast" => some .ast
  | "disasm" => some .disasm
  | _ => none

/-- What a command takes. -/
def shape : Name → Shape
  | .build =>
    ⟨["json"], [("output", .path), ("seed", .word), ("ram-begin", .word)], some ('o', "output")⟩
  | .run => ⟨["json", "image"], [("seed", .word), ("input", .integer)], none⟩
  | .ast => ⟨["json", "pretty"], [], none⟩
  | .disasm => ⟨["json", "image"], [("seed", .word)], none⟩

/-- The command on a file, as its arguments give it. -/
def command (name : Name) (file : String) (g : Given) : Command :=
  match name with
  | .build =>
    .build file (g.path? "output")
      ⟨g.word? "seed", ((g.word? "ram-begin").map UInt64.toNat).getD Options.standard.ramBegin⟩
  | .run => .run file (g.flags.contains "image") (g.word? "seed") (g.integers "input")
  | .ast => .ast file (g.flags.contains "pretty")
  | .disasm => .disasm file (g.flags.contains "image") (g.word? "seed")

end Name

/-- Whether an argument in place of a command asks what can be done, or which version this is. -/
def asksForHelp (argument : String) : Bool :=
  match argument.toList with
  | '-' :: 'h' :: _ | '-' :: 'V' :: _ => true
  | _ => argument == "--help" || argument == "--version"

/-- Whether there is help on a topic: on everything or on one command. -/
def isTopic : List String → Bool
  | [] => true
  | [name] => name == "help" || (Name.ofText? name).isSome
  | _ => false

/-- Reads a command and its arguments. `json` says whether reports were asked for as JSON in front of
the command. -/
def invocation (json : Bool) : List String → Except Refusal Invocation
  | [] => .error .invalid
  | "help" :: topic => .error (if isTopic topic then .help else .invalid)
  | argument :: rest =>
    match Name.ofText? argument with
    | none => .error (if asksForHelp argument then .help else .invalid)
    | some name => do
      let g ← take name.shape rest .empty
      match g.file with
      | none => throw .invalid
      | some file => return ⟨json || g.flags.contains "json", name.command file g⟩

/-- Reads a command line. -/
def parse : List String → Except Refusal Invocation
  | "--json" :: rest => invocation true rest
  | arguments => invocation false arguments

end Arguments

end Lamcode
