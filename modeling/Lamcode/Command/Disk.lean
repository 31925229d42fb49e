import Lamcode.Command.Path
import Lamcode.Command.Perform

/-!
# Lamcode.Command.Disk — command lines on a directory of text files

A `Disk` is the working directory as a value: text files by path. Paths are followed name by name, so
the first obstacle on the way decides. It lets a whole command line be carried out without touching a
real directory.
-/

namespace Lamcode

/-- Text files, each one by the names on the way to it from the working directory. -/
structure Disk where
  files : List (List String × String)
  deriving DecidableEq

namespace Disk

/-- Where a walk along a path can stand. -/
inductive Place where
  /-- At the end of some names from the working directory. -/
  | inside (names : List String)
  /-- At the end of some names from the root. The directories around the working directory are not told
  from the root. -/
  | outside (names : List String)
  deriving DecidableEq

namespace Place

/-- The directory around a place. The root is around itself. -/
def up : Place → Place
  | .inside [] => .outside []
  | .inside names => .inside names.dropLast
  | .outside names => .outside names.dropLast

/-- The place of a name in a directory. -/
def down (name : String) : Place → Place
  | .inside names => .inside (names ++ [name])
  | .outside names => .outside (names ++ [name])

end Place

/-- What can be found at a place. -/
inductive Node where
  | directory
  | file (text : String)
  /-- A file that is empty and stays so. -/
  | null
  deriving DecidableEq

/-- The directories that every root holds. -/
def systemDirectories : List String :=
  ["bin", "dev", "etc", "lib", "proc", "tmp", "usr", "var"]

/-- The content of a file. -/
def content? (d : Disk) (names : List String) : Option String :=
  d.files.lookup names

/-- Whether the names lead to a directory: the working directory or one on the way to a file. -/
def isDir (d : Disk) (names : List String) : Bool :=
  names.isEmpty || d.files.any fun f => names.length < f.1.length && names.isPrefixOf f.1

/-- What is found at a place. -/
def node? (d : Disk) : Place → Option Node
  | .inside names => if d.isDir names then some .directory else (d.content? names).map .file
  | .outside [] => some .directory
  | .outside [name] => if systemDirectories.contains name then some .directory else none
  | .outside ["dev", "null"] => some .null
  | .outside _ => none

/-- Follows one name. -/
def follow (d : Disk) (place : Place) (name : String) : Except Obstacle Place :=
  match d.node? place with
  | none => .error .missing
  | some .directory =>
    if name == "." then .ok place
    else if name == ".." then .ok place.up
    else if Path.maxNameLength < name.utf8ByteSize then .error .nameTooLong
    else .ok (place.down name)
  | some _ => .error .notDirectory

/-- Follows names from the root or from the working directory. -/
def walk (d : Disk) (absolute : Bool) (names : List String) : Except Obstacle Place :=
  names.foldlM d.follow (if absolute then .outside [] else .inside [])

/-- Reads a file. -/
def read (d : Disk) (text : String) : Except Obstacle String := do
  let path ← Path.ofText? text
  match d.node? (← d.walk path.absolute path.names) with
  | none => throw .missing
  | some .directory => throw .isDirectory
  | some (.file content) => if path.slashed then throw .notDirectory else return content
  | some .null => if path.slashed then throw .notDirectory else return ""

/-- The disk with a file that is new or has a new content. -/
def put (d : Disk) (names : List String) (content : String) : Disk :=
  if (d.content? names).isSome then
    ⟨d.files.map fun f => if f.1 == names then (names, content) else f⟩
  else ⟨d.files ++ [(names, content)]⟩

/-- A disk with the given files. -/
def ofFiles (files : List (String × String)) : Disk :=
  files.foldl (fun d f => d.put ((Path.ofText f.1).names.filter (· != ".")) f.2) ⟨[]⟩

/-- Writes a file, in a directory that is there. What is written outside the working directory is not
kept. -/
def write (d : Disk) (text content : String) : Except Obstacle Disk := do
  let path ← Path.ofText? text
  let place ← d.walk path.absolute path.target
  match d.node? place, place with
  | some .directory, _ => throw .isDirectory
  | _, .inside names => return d.put names content
  | _, .outside _ => return d

/-- The files that are new or different, by path. -/
def changes (before after : Disk) : List (String × String) :=
  (after.files.filter fun f => before.content? f.1 != some f.2).map fun f =>
    ("/".intercalate f.1, f.2)

end Disk

/-- What a command line leaves: the exit code, what it printed and the files. -/
structure Session where
  code : Nat
  stdout : String
  stderr : String
  disk : Disk

/-- Carries out a command line. A command line that cannot be read has exit code 2, a command that
fails exit code 1. -/
def Session.run (fuel : Nat) (disk : Disk) (stdin : List UInt8) (arguments : List String) :
    Option Session :=
  match Arguments.parse arguments with
  | .error .help => some ⟨0, "", "", disk⟩
  | .error .invalid => some ⟨2, "", "", disk⟩
  | .ok inv =>
    let p : Reporter := ⟨inv.json, false⟩
    (inv.command.perform p fuel stdin ((disk.read inv.command.file).mapError Obstacle.message)).map fun e =>
      let (e, disk) :=
        match e.save with
        | none => (e, disk)
        | some (path, text) =>
          match disk.write path text with
          | .error o => (e.saveFailed p o.message, disk)
          | .ok disk => (e, disk)
      ⟨if e.failed then 1 else 0, e.stdout, e.stderr, disk⟩

end Lamcode
