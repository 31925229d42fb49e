import Lamcode.Report.Basic
import Lamcode.Text.Json

/-!
# Lamcode.Report.Render — reports as text for people and for programs

`Report.render` shows the source line of the first primary mark with carets under the marked columns,
in colour if the terminal has it. `Report.json` is one JSON object with its fields in alphabetical
order.
-/

namespace Lamcode.Report

/-- The text between the terminal codes of a style, if colour is on. -/
def paint (color : Bool) (style text : String) : String :=
  if color then "\x1b[" ++ style ++ "m" ++ text ++ "\x1b[0m" else text

def bold : String := "1"
def boldRed : String := "1;31"
def boldYellow : String := "1;33"
def cyan : String := "36"
def dim : String := "2"

/-- The style of the headline's first word. -/
def severityStyle : Severity → String
  | .error => boldRed
  | .warning => boldYellow

/-- A number of spaces. -/
def spaces (n : Nat) : String :=
  String.ofList (List.replicate n ' ')

/-- Severity, code and message. -/
def headline (color : Bool) (r : Report) : String :=
  let word := r.severity.name ++ (r.code.map fun code => "[" ++ code ++ "]").getD ""
  paint color (severityStyle r.severity) word ++ ": " ++ paint color bold r.message ++ "\n"

/-- The carets under the marked columns and what is said about them. -/
def carets (color : Bool) (m : Mark) : String :=
  spaces (m.pos.column - 1) ++
    paint color boldRed (String.ofList (List.replicate (max m.width 1) '^')) ++
    if m.message.isEmpty then "" else " " ++ paint color boldRed m.message

/-- The marked source line with the carets below it. -/
def excerpt (color : Bool) (source : String) (m : Mark) : String :=
  let number := Nat.repr m.pos.line
  let margin := spaces number.length
  let bar := paint color cyan "|"
  margin ++ " " ++ bar ++ "\n" ++
    paint color cyan number ++ " " ++ bar ++ " " ++
      (LineMap.ofString source).lineText m.pos.line ++ "\n" ++
    margin ++ " " ++ bar ++ " " ++ carets color m ++ "\n" ++
    margin ++ " " ++ bar ++ "\n"

/-- The place of the first primary mark, with its source line if the source is known. -/
def location (color : Bool) (r : Report) : String :=
  match r.marks.find? (·.isPrimary) with
  | none => ""
  | some m =>
    "  " ++ paint color cyan "-->" ++ " " ++ m.pos.text ++ "\n" ++
      (r.source.map fun source => excerpt color source m).getD ""

/-- A line below the excerpt. -/
def remark (color : Bool) (text : String) : String :=
  "  " ++ paint color dim "=" ++ " " ++ text ++ "\n"

/-- What the secondary marks say, the notes and the suggestion. -/
def remarks (r : Report) : List String :=
  ((r.marks.filter fun m => !m.isPrimary && !m.message.isEmpty).map (·.message)) ++
    r.notes.map ("note: " ++ ·) ++
    (r.suggestion.map ("suggestion: " ++ ·)).toList

/-- The report for people. -/
def render (color : Bool) (r : Report) : String :=
  headline color r ++ location color r ++ String.join (r.remarks.map (remark color))

/-- A mark as a JSON object. -/
def markJson (m : Mark) : Json :=
  .obj [("col", .num m.pos.column), ("line", .num m.pos.line), ("message", .str m.message),
    ("primary", .bool m.isPrimary), ("width", .num m.width)]

/-- The report as a JSON object. -/
def toJson (r : Report) : Json :=
  .obj ((r.code.map fun code => ("code", Json.str code)).toList ++
    [("labels", .arr (r.marks.map markJson)), ("message", .str r.message),
      ("notes", .arr (r.notes.map .str)), ("severity", .str r.severity.name)] ++
    (r.suggestion.map fun s => ("suggestion", Json.str s)).toList)

/-- The report for programs. -/
def json (r : Report) : String :=
  r.toJson.compact

end Lamcode.Report
