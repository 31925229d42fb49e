import Lamcode.Compile.Image
import Lamcode.Image
import Lamcode.Machine.Fault
import Lamcode.Scope.Read
import Lamcode.Token.Scan

/-!
# Lamcode.Failure — everything that can go wrong between a source and its result
-/

namespace Lamcode

/-- Why a source or an image has no result. -/
inductive Failure where
  | scan (e : ScanError)
  | read (e : ReadError)
  | compile (e : CompileError)
  | fault (e : Fault)
  | image (e : Image.Error)
  /-- A file that cannot be read or written. -/
  | file (reason : String)
  deriving DecidableEq

/-- The text of a failure. -/
def Failure.message : Failure → String
  | .scan e => e.message
  | .read e => e.message
  | .compile e => e.message
  | .fault e => e.message
  | .image e => e.message
  | .file reason => reason

/-- The program that a source text stands for. -/
def Program.parse (source : String) : Except Failure Program :=
  match Scan.tokens source with
  | .error e => .error (.scan e)
  | .ok tokens =>
    match Program.read tokens with
    | .error e => .error (.read e)
    | .ok p => .ok p

/-- Compiles a source text. -/
def Compile.source (text : String) (o : Options) : Except Failure Compiled := do
  let p ← Program.parse text
  (Compile.program p o).mapError Failure.compile

end Lamcode
