import Lamcode.Failure

/-!
# Lamcode.Report.Basic — what a user is told

A report has a severity, a message and, if it is about a place in a source, marks at that place.
`Failure.report` says how each failure is reported; `Report.reassigned` lists the warnings about
globals that are assigned more than once.
-/

namespace Lamcode

/-- Whether a report stops the work. -/
inductive Severity where
  | error
  | warning
  deriving DecidableEq

/-- The word for a severity. -/
def Severity.name : Severity → String
  | .error => "error"
  | .warning => "warning"

/-- A place in the source with something to say about it. -/
structure Mark where
  pos : Position
  /-- How many columns to underline; at least one is. -/
  width : Nat
  message : String
  isPrimary : Bool
  deriving DecidableEq

/-- A report to the user. -/
structure Report where
  severity : Severity
  code : Option String
  message : String
  marks : List Mark
  notes : List String
  suggestion : Option String
  source : Option String
  deriving DecidableEq

namespace Report

/-- An error with a message and nothing else. -/
def error (message : String) : Report :=
  ⟨.error, none, message, [], [], none, none⟩

/-- A warning with a message and nothing else. -/
def warning (message : String) : Report :=
  ⟨.warning, none, message, [], [], none, none⟩

/-- The report with a code. -/
def withCode (r : Report) (code : String) : Report :=
  { r with code := some code }

/-- The report with one more place that it is about. -/
def withMark (r : Report) (pos : Position) (width : Nat) (message : String) : Report :=
  { r with marks := r.marks ++ [⟨pos, width, message, true⟩] }

/-- The report with one more place that has to do with it. -/
def withSecondaryMark (r : Report) (pos : Position) (message : String) : Report :=
  { r with marks := r.marks ++ [⟨pos, 1, message, false⟩] }

/-- The report with one more note. -/
def withNote (r : Report) (note : String) : Report :=
  { r with notes := r.notes ++ [note] }

/-- The report with a suggestion. -/
def withSuggestion (r : Report) (suggestion : String) : Report :=
  { r with suggestion := some suggestion }

/-- The report with the source that its places are in. -/
def withSource (r : Report) (source : String) : Report :=
  { r with source := some source }

/-- The warnings for assignments to a name that has been assigned before; `seen` are the first
assignments so far, with their positions. -/
def reassignedAfter (seen : List (String × Position)) : List (Assignment Site Header) → List Report
  | [] => []
  | a :: rest =>
    match seen.lookup a.name with
    | none => reassignedAfter (seen ++ [(a.name, a.mark.pos)]) rest
    | some first =>
      ((warning ("'" ++ a.name ++ "' is assigned more than once")).withCode "FNT-W001"
        |>.withMark a.mark.pos a.name.utf8ByteSize "reassigned here"
        |>.withSecondaryMark first ("first assigned at " ++ first.text)) ::
        reassignedAfter seen rest

/-- The warnings for globals that are assigned more than once. -/
def reassigned (p : Program) : List Report :=
  reassignedAfter [] p.assignments

end Report

/-- How a character that starts no token is reported. -/
def ScanError.report (e : ScanError) : Report :=
  (Report.error ("unexpected input '" ++ e.found.toString ++ "'")).withCode "FNT-L001"
    |>.withMark e.pos 1 "here"
    |>.withSuggestion e.suggestion

/-- How a token that is not expected is reported. -/
def ReadError.report (e : ReadError) : Report :=
  (Report.error e.detail).withCode e.expected.code |>.withMark e.pos 1 "here"

/-- How code that cannot be written is reported. Only an unresolved name is the program's fault. -/
def EmitError.report : EmitError → Report
  | .unresolved name pos =>
    (Report.error ("'" ++ name ++ "' is not defined")).withCode "FNT-C001"
      |>.withMark pos name.utf8ByteSize "not found in any enclosing scope"
  | e => (Report.error e.message).withCode "FNT-C002" |>.withNote "this is a compiler bug"

/-- How items that cannot be linked are reported. -/
def LinkError.report (e : LinkError) : Report :=
  (Report.error e.message).withCode "FNT-A001" |>.withNote "this is a compiler bug"

/-- How a fault is reported. -/
def Fault.report (e : Fault) : Report :=
  (Report.error e.message).withCode "FNT-R001" |>.withNote "the machine has halted"

/-- How a text that is no image is reported. -/
def Image.Error.report (e : Image.Error) : Report :=
  (Report.error e.message).withCode "FNT-I001"

/-- How a failure is reported. -/
def Failure.report : Failure → Report
  | .scan e => e.report
  | .read e => e.report
  | .compile (.emit e) => e.report
  | .compile (.link e) => e.report
  | .fault e => e.report
  | .image e => e.report
  | .file reason => .error reason

end Lamcode
