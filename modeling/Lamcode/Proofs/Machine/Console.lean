import Lamcode.Machine.Console
import Lamcode.Proofs.Machine.Transfer
import Lamcode.Proofs.Text.Numeral

/-!
# Lamcode.Proofs.Machine.Console — lines of text in place of a queue

A console whose input is written one number per line serves a machine exactly as a queue of these numbers does. The
state of such a console is known from that of the queue (`Console.ofQueue`): the numbers not yet read are lines of
input, and the numbers written so far are lines of output. Each call of the console is the call of the queue seen
through `ofQueue`, so whole runs agree in the result, the machine and the text (`runToHalt_console`).
-/

namespace Lamcode.Console

open Text Text.Numeral

/-! ## Bytes of text -/

/-- The bytes of a text. -/
def bytes (text : String) : List UInt8 :=
  text.toUTF8.data.toList

theorem toList_loop_eq (bs : ByteArray) (i : Nat) (read : List UInt8) :
    ByteArray.toList.loop bs i read = read.reverse ++ bs.data.toList.drop i := by
  fun_induction ByteArray.toList.loop bs i read with
  | case1 i read hi ih =>
    have hlt : i < bs.data.toList.length := by simpa using hi
    have hbyte : bs.get! i = bs.data.toList[i] := by simp [ByteArray.get!, hi]
    rw [ih, List.drop_eq_getElem_cons hlt, hbyte, List.reverse_cons, List.append_assoc]
    rfl
  | case2 i read hi =>
    have hend : bs.data.toList.length ≤ i := by simpa using hi
    rw [List.drop_eq_nil_of_le hend, List.append_nil]

theorem toList_toUTF8 (text : String) : text.toUTF8.toList = bytes text :=
  toList_loop_eq text.toUTF8 0 []

@[simp] theorem bytes_append (s t : String) : bytes (s ++ t) = bytes s ++ bytes t := by
  simp [bytes]

@[simp] theorem bytes_empty : bytes "" = [] := rfl

theorem bytes_newline : bytes "\n" = [lineFeed] := by
  decide

/-- The bytes of a text are that text again. -/
theorem fromUTF8?_bytes (text : String) : String.fromUTF8? ⟨(bytes text).toArray⟩ = some text := by
  have hbytes : (⟨(bytes text).toArray⟩ : ByteArray) = text.toByteArray := by simp [bytes]
  rw [hbytes, String.fromUTF8?, dif_pos text.isValidUTF8]
  rfl

theorem bytes_eq_flatMap (text : String) : bytes text = text.toList.flatMap String.utf8EncodeChar := by
  rw [bytes, String.toUTF8_eq_toByteArray, ← String.utf8Encode_toList, List.utf8Encode, List.toList_data_toByteArray]

/-! ## Lines -/

/-- A decimal form is on one line. -/
theorem ne_lineFeed_of_mem_write {v : Int} {b : UInt8} (h : b ∈ bytes (write v)) : (b != lineFeed) = true := by
  rw [bytes_eq_flatMap, List.mem_flatMap] at h
  obtain ⟨c, hc, hb⟩ := h
  have hnat := toNat_of_mem_write hc
  have hascii : String.utf8EncodeChar c = [UInt8.ofNat c.toNat] := if_pos (by change c.toNat ≤ 127; omega)
  rw [hascii, List.mem_singleton] at hb
  rw [bne_iff_ne]
  rintro rfl
  have hten := congrArg UInt8.toNat hb
  rw [UInt8.toNat_ofNat', Nat.mod_eq_of_lt (by omega)] at hten
  have hlineFeed : lineFeed.toNat = 10 := rfl
  omega

/-- A decimal form at the end of the input or in front of a line feed is a line. -/
theorem line_write (v : Int) {rest : List UInt8} (hrest : ∀ b ∈ rest.head?, b = lineFeed) :
    line (bytes (write v) ++ rest) = bytes (write v) ∧ afterLine (bytes (write v) ++ rest) = rest.drop 1 := by
  have hpos : ∀ b ∈ bytes (write v), (b != lineFeed) = true := fun _ => ne_lineFeed_of_mem_write
  rw [line, afterLine, List.takeWhile_append_of_pos hpos, List.dropWhile_append_of_pos hpos]
  cases rest with
  | nil => simp
  | cons b rest =>
    obtain rfl := hrest b rfl
    simp

theorem dropWhile_isBlank {cs : List Char} (h : ∀ c ∈ cs, isBlank c = false) : cs.dropWhile isBlank = cs := by
  cases cs with
  | nil => rfl
  | cons c cs => exact List.dropWhile_cons_of_neg (by simp [h c])

/-- There are no blanks around a decimal form. -/
theorem trim_write (v : Int) : trim (write v) = write v := by
  have hblank : ∀ c ∈ (write v).toList, isBlank c = false := fun _ => isBlank_of_mem_write
  rw [trim, trimChars, dropWhile_isBlank hblank, dropWhile_isBlank (by simpa using hblank), List.reverse_reverse,
    String.ofList_toList]

theorem readLine_write (v : Int) : readLine (bytes (write v)) = .ok v := by
  rw [readLine, fromUTF8?_bytes]
  simp only [trim_write, read?, readChars?_write]

theorem bytes_write_ne_nil (v : Int) : bytes (write v) ≠ [] := by
  intro h
  have := readLine_write v
  rw [h] at this
  cases this

/-- The numbers in decimal, each one on a line of its own. The last line may be without its line feed. -/
def lines (ended : Bool) : List Int → String
  | [] => ""
  | v :: rest => write v ++ (if rest.isEmpty && !ended then "" else "\n") ++ lines ended rest

/-- The first line holds the first number, and the other lines are behind it. -/
theorem bytes_lines_cons (ended : Bool) (v : Int) (rest : List Int) :
    line (bytes (lines ended (v :: rest))) = bytes (write v) ∧
      afterLine (bytes (lines ended (v :: rest))) = bytes (lines ended rest) := by
  rw [lines, String.append_assoc, bytes_append]
  by_cases hlast : (rest.isEmpty && !ended) = true
  · -- nothing is behind the last number, not even a line feed
    rw [if_pos hlast]
    simp only [Bool.and_eq_true, List.isEmpty_iff] at hlast
    obtain ⟨rfl, -⟩ := hlast
    exact line_write v (by simp [lines])
  · rw [if_neg hlast, bytes_append, bytes_newline, List.singleton_append]
    exact line_write v (by simp)

theorem lines_append_singleton (vs : List Int) (v : Int) : lines true (vs ++ [v]) = lines true vs ++ write v ++ "\n" := by
  induction vs with
  | nil => simp [lines]
  | cons w vs ih => simp [lines, ih, String.append_assoc]

/-! ## A console that is a queue -/

/-- The console that holds a queue's numbers as lines: those to be read as its input, those written as its output. -/
def ofQueue (ended : Bool) (q : Queue) : Console :=
  ⟨bytes (lines ended q.inputs), lines true q.outputs⟩

/-- The console answers as the queue does, and is then the console of what the queue has become. -/
theorem extends_ofQueue (ended : Bool) : Queue.host.Extends (ofQueue ended) Console.host where
  read q := by
    obtain ⟨inputs, written⟩ := q
    cases inputs with
    | nil => rfl
    | cons v rest =>
      obtain ⟨hline, hafter⟩ := bytes_lines_cons ended v rest
      have hne : bytes (lines ended (v :: rest)) ≠ [] := by
        intro hnil
        rw [hnil] at hline
        exact bytes_write_ne_nil v hline.symm
      -- the console takes an empty input for its end, and there is a number left
      simp only [Console.host, ofQueue, Queue.host, Queue.pausingHost, hline, hafter, readLine_write]
      cases hbytes : bytes (lines ended (v :: rest)) with
      | nil => exact absurd hbytes hne
      | cons b bs => rfl
  write v q := by
    have houtputs : Queue.outputs { q with written := v :: q.written } = q.outputs ++ [v] := List.reverse_cons
    simp only [Console.host, ofQueue, Queue.host, Queue.pausingHost, houtputs, lines_append_singleton]

/-- A machine that is run on a console with numbers in its input lines does what it does on the queue of these numbers:
the run ends in the same way, with the same machine, and the console shows the numbers that were written, a line for
each. -/
theorem runToHalt_console (fuel : Nat) (m : Machine) (xs : List Int) (ended : Bool) :
    (m.runToHalt Console.host fuel (ofBytes (lines ended xs).toUTF8)).map (fun (r, m', c) => (r, m', c.output)) =
      (m.runToHalt Queue.host fuel (Queue.ofInputs xs)).map fun (r, m', q) => (r, m', lines true q.outputs) := by
  have hstart : ofBytes (lines ended xs).toUTF8 = ofQueue ended (Queue.ofInputs xs) := by
    rw [ofBytes, toList_toUTF8]
    rfl
  rw [hstart, (extends_ofQueue ended).runToHalt, Option.map_map]
  rfl

end Lamcode.Console
