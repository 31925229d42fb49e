import Lamcode.Machine.Host
import Lamcode.Text.Blank

/-!
# Lamcode.Machine.Console — a host of lines

One numeral per line in each direction. The input is a stream of bytes, because a line that is not
valid UTF-8 is a fault of the stream and not a line that holds no numeral.
-/

namespace Lamcode

/-- The bytes still to be read and the text written so far. -/
structure Console where
  input : List UInt8
  output : String

namespace Console

/-- The console with these bytes to read and nothing written. -/
def ofBytes (bytes : ByteArray) : Console :=
  ⟨bytes.toList, ""⟩

/-- The byte that ends a line. -/
def lineFeed : UInt8 := 10

/-- The bytes of the next line, without its line feed. -/
def line (bytes : List UInt8) : List UInt8 :=
  bytes.takeWhile (· != lineFeed)

/-- The bytes behind the next line and its line feed. -/
def afterLine (bytes : List UInt8) : List UInt8 :=
  (bytes.dropWhile (· != lineFeed)).drop 1

/-- The numeral on a line, blanks around it dropped. -/
def readLine (bytes : List UInt8) : Except Fault Int :=
  match String.fromUTF8? ⟨bytes.toArray⟩ with
  | none => .error (.stream "stream did not contain valid UTF-8")
  | some text =>
    match Text.Numeral.read? (Text.trim text) with
    | none => .error (.badInput (Text.trim text))
    | some v => .ok v

/-- The host that reads a line and writes a line for each value. It never pauses a machine. -/
def host : Host Console where
  read c :=
    match c.input with
    | [] => (.error .noInput, c)
    | bytes =>
      let c := { c with input := afterLine bytes }
      match readLine (line bytes) with
      | .error e => (.error e, c)
      | .ok v => (.ok (v, .proceed), c)
  write v c := (.ok .proceed, { c with output := c.output ++ Text.Numeral.write v ++ "\n" })

end Console

end Lamcode
