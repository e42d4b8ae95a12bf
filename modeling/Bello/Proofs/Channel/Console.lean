import Bello.Channel
import Bello.Proofs.Machine.Mirror
import Bello.Proofs.Machine.Session

/- A console behaves like a script.

   Numbers that are typed on lines of their own are the inputs of a script, and what the
   script records is written line by line. `Follows` relates a console to a script: the
   lines still to be read hold the inputs that are left, and the bytes written spell the
   outputs so far. A read takes one line and one input (`read_line`), the end of the text
   and the end of the inputs are noticed by the same read, and a write adds one line; so the
   two answer alike, and no program can tell them apart (`run_as_script`). -/
namespace Bello

namespace Text

/-- Blanks at the end make no difference. -/
theorem trim_concat (cs : List Char) {c : Char} (hc : isBlank c = true) :
    trim (cs ++ [c]) = trim cs := by
  unfold trim
  rw [List.dropWhile_append]
  split
  · next hall =>
    rw [List.isEmpty_iff] at hall
    simp [hall, hc]
  · simp [hc]

end Text

namespace Console

/-! ## Bytes -/

/-- The bytes of a text. -/
def bytesOf (s : String) : List UInt8 := s.toUTF8.data.toList

theorem bytesOf_append (s t : String) : bytesOf (s ++ t) = bytesOf s ++ bytesOf t := by
  simp [bytesOf, String.toUTF8]

theorem bytesOf_eq (s : String) : bytesOf s = s.toList.flatMap String.utf8EncodeChar := by
  rw [bytesOf, String.toUTF8, ← String.utf8Encode_toList, List.utf8Encode,
    List.toList_data_toByteArray]

theorem fromUTF8?_bytesOf (s : String) :
    String.fromUTF8? (ByteArray.mk (bytesOf s).toArray) = some s := by
  have hbytes : ByteArray.mk (bytesOf s).toArray = s.toByteArray := by
    rw [bytesOf, Array.toArray_toList]
    rfl
  rw [hbytes, String.fromUTF8?, dif_pos s.isValidUTF8]
  rfl

/-- Only a line feed is encoded with the byte of a line feed: all bytes of longer codes are
    above it. -/
theorem lineFeed_notMem_encode {c : Char} (hc : c ≠ '\n') : lineFeed ∉ String.utf8EncodeChar c := by
  have hval : c.val.toNat ≠ 10 := by
    intro h
    exact hc (Char.ext (UInt32.toNat_inj.1 h))
  have hbyte : ∀ k : Nat, k % 256 ≠ 10 → lineFeed ≠ UInt8.ofNat k := by
    intro k hk h
    have := congrArg UInt8.toNat h
    simp [lineFeed] at this
    omega
  unfold String.utf8EncodeChar
  simp only
  split
  · rw [List.mem_singleton]
    exact hbyte _ (by omega)
  · split
    · simp only [List.mem_cons, List.not_mem_nil, or_false, not_or]
      exact ⟨hbyte _ (by omega), hbyte _ (by omega)⟩
    · split
      · simp only [List.mem_cons, List.not_mem_nil, or_false, not_or]
        exact ⟨hbyte _ (by omega), hbyte _ (by omega), hbyte _ (by omega)⟩
      · simp only [List.mem_cons, List.not_mem_nil, or_false, not_or]
        exact ⟨hbyte _ (by omega), hbyte _ (by omega), hbyte _ (by omega), hbyte _ (by omega)⟩

theorem lineFeed_notMem_bytesOf {s : String} (h : '\n' ∉ s.toList) : lineFeed ∉ bytesOf s := by
  rw [bytesOf_eq, List.mem_flatMap]
  rintro ⟨c, hc, hmem⟩
  refine lineFeed_notMem_encode ?_ hmem
  rintro rfl
  exact h hc

/-- A line goes up to its line feed, if it has one. -/
theorem takeWhile_line {line : List UInt8} (h : lineFeed ∉ line) (rest : List UInt8) :
    (line ++ rest).takeWhile (· != lineFeed) = line ++ rest.takeWhile (· != lineFeed) := by
  apply List.takeWhile_append_of_pos
  intro b hb
  rw [bne_iff_ne]
  rintro rfl
  exact h hb

theorem splitLine_feed {line : List UInt8} (h : lineFeed ∉ line) (rest : List UInt8) :
    splitLine (line ++ lineFeed :: rest) = (line ++ [lineFeed], rest) := by
  have htake : (line ++ lineFeed :: rest).takeWhile (· != lineFeed) = line := by
    rw [takeWhile_line h]
    simp
  have hsplit : line ++ lineFeed :: rest = (line ++ [lineFeed]) ++ rest := by simp
  simp only [splitLine, htake]
  rw [hsplit, List.take_left' (by simp), List.drop_left' (by simp)]

theorem splitLine_last {line : List UInt8} (h : lineFeed ∉ line) : splitLine line = (line, []) := by
  have htake : line.takeWhile (· != lineFeed) = line := by
    have := takeWhile_line h []
    simpa using this
  simp only [splitLine, htake]
  rw [List.take_of_length_le (by omega), List.drop_of_length_le (by omega)]

/-! ## Lines -/

/-- A line of input with a number on it. -/
structure Line where
  text : String
  value : Decimal
  oneLine : '\n' ∉ text.toList
  reads : Decimal.ofChars? (Text.trim text.toList) = some value

/-- Blanks around the number are allowed, and a return is one of them. -/
example : ∃ line : Line, line.text = " -12.50\t\r" ∧ line.value.mantissa = -1250 :=
  ⟨⟨" -12.50\t\r", ⟨-1250, 2, by decide, by decide⟩, by decide, by decide +kernel⟩, rfl, rfl⟩

namespace Line

/-- Where a number is read, the line is not blank. -/
theorem trim_ne_nil (line : Line) : Text.trim line.text.toList ≠ [] := by
  intro h
  have hreads := line.reads
  rw [h] at hreads
  cases hreads

theorem bytes_ne_nil (line : Line) : bytesOf line.text ≠ [] := by
  intro h
  apply line.trim_ne_nil
  have hempty : line.text = "" := by
    rw [← String.toByteArray_inj]
    apply ByteArray.ext
    rw [← Array.toList_inj]
    exact h
  rw [hempty]
  rfl

/-- Blanks around the number do not count. -/
theorem lineValue_of_trim (line : Line) {s : String}
    (h : Text.trim s.toList = Text.trim line.text.toList) :
    lineValue (bytesOf s) = .ok line.value := by
  unfold lineValue
  rw [fromUTF8?_bytesOf]
  simp [h, line.reads, line.trim_ne_nil]

theorem trim_feed (line : Line) :
    Text.trim (line.text ++ "\n").toList = Text.trim line.text.toList := by
  rw [String.toList_append]
  exact Text.trim_concat _ (by decide)

/-- The text of lines. Each one ends in a line feed; the last one may do without. -/
def textOf (closed : Bool) : List Line → String
  | [] => ""
  | [line] => if closed then line.text ++ "\n" else line.text
  | line :: lines => line.text ++ "\n" ++ textOf closed lines

end Line

/-! ## Reading and writing -/

theorem bytesOf_feed (s : String) : bytesOf (s ++ "\n") = bytesOf s ++ [lineFeed] := by
  rw [bytesOf_append]
  rfl

theorem read_of_splitLine {c : Console} (line : List UInt8) {rest : List UInt8} {v : Decimal}
    (hne : c.pending ≠ []) (hsplit : splitLine c.pending = (line, rest))
    (hv : lineValue line = .ok v) : read c = .ok v { c with pending := rest } := by
  unfold read
  split
  · next h => exact absurd h hne
  · rw [hsplit]
    simp only [hv]

/-- A read takes one line and yields the number on it. -/
theorem read_line (c : Console) (closed : Bool) (line : Line) (lines : List Line)
    (h : c.pending = bytesOf (Line.textOf closed (line :: lines))) :
    read c = .ok line.value { c with pending := bytesOf (Line.textOf closed lines) } := by
  have hfeed : lineFeed ∉ bytesOf line.text := lineFeed_notMem_bytesOf line.oneLine
  by_cases hlast : lines = [] ∧ closed = false
  · obtain ⟨rfl, rfl⟩ := hlast
    have hp : c.pending = bytesOf line.text := h
    apply read_of_splitLine (bytesOf line.text)
    · rw [hp]
      exact line.bytes_ne_nil
    · rw [hp]
      exact splitLine_last hfeed
    · exact line.lineValue_of_trim rfl
  · -- In all other cases the line ends in a line feed.
    have hp : c.pending = bytesOf line.text ++ lineFeed :: bytesOf (Line.textOf closed lines) := by
      rw [h]
      cases lines with
      | nil =>
        cases closed with
        | false => exact absurd ⟨rfl, rfl⟩ hlast
        | true => exact bytesOf_feed line.text
      | cons next lines =>
        rw [Line.textOf, bytesOf_append, bytesOf_feed, List.append_assoc]
        · rfl
        · simp
    apply read_of_splitLine (bytesOf (line.text ++ "\n"))
    · rw [hp]
      simp
    · rw [hp, bytesOf_feed]
      exact splitLine_feed hfeed _
    · exact line.lineValue_of_trim line.trim_feed

/-! ## Side by side -/

/-- The lines of text that a console writes for numbers. -/
def outputText (style : ConsoleStyle) (vs : List Decimal) : String :=
  String.join (vs.map (lineOf style))

/-- The console has read and written on lines what the script has read and written. -/
structure Follows (style : ConsoleStyle) (closed : Bool) (c : Console) (s : Script) : Prop where
  styled : c.style = style
  limit : c.limit = none
  pending : ∃ lines : List Line, c.pending = bytesOf (Line.textOf closed lines) ∧
    s.inputs = lines.map (·.value)
  written : c.written = (outputText style s.outputs).toUTF8

instance (style : ConsoleStyle) (closed : Bool) : Exec.Tuned (Follows style closed) where
  read c s h := by
    obtain ⟨lines, hp, hi⟩ := h.pending
    obtain ⟨inputs, written⟩ := s
    cases lines with
    | nil =>
      have hc : c.pending = [] := hp
      have hread : read c = .error Cause.inputExhausted.unplaced c := by
        unfold read
        rw [hc]
      obtain rfl : inputs = [] := hi
      show Parallel _ (read c) _
      rw [hread]
      exact .error _ h
    | cons line lines =>
      obtain rfl : inputs = line.value :: lines.map (·.value) := hi
      show Parallel _ (read c) _
      rw [read_line c closed line lines hp]
      exact .ok line.value ⟨h.styled, h.limit, ⟨lines, rfl, rfl⟩, h.written⟩
  write v c s h := by
    have hwrite : write v c =
        .ok () { c with written := c.written ++ (lineOf style v).toUTF8 } := by
      simp only [write, h.limit, h.styled]
    have hwritten : c.written ++ (lineOf style v).toUTF8 =
        (outputText style (s.outputs ++ [v])).toUTF8 := by
      rw [h.written, outputText, outputText, List.map_append, String.join_append]
      simp [String.toUTF8, String.join_cons]
    show Parallel _ (write v c) _
    rw [hwrite]
    refine .ok () ⟨h.styled, h.limit, h.pending, ?_⟩
    rw [hwritten]
    simp [Script.outputs]

end Console

namespace Exec

/-- **A console behaves like a script.** Let numbers be given to a program on lines of text,
    and to the same program as the inputs of a script. However far the runs are followed,
    they end in the same result, an error included, and the text written to the console by
    then has one line for each output of the script, in order: the lead, if there is one, and
    the number in the given precision. The lines not yet read hold the inputs left. -/
theorem run_as_script (p : Program) (style : ConsoleStyle) (closed : Bool)
    (lines : List Console.Line) (n limit : Nat) (tracing : Bool) :
    let text := Console.Line.textOf closed lines
    let m : Machine Console := .new ⟨Console.bytesOf text, .empty, style, none⟩ limit tracing
    let m' : Machine Script := .new (.ofInputs (lines.map (·.value))) limit tracing
    outcome (run n p) m = outcome (run n p) m' ∧
    (final (run n p) m).channel.written =
      (String.join ((final (run n p) m').channel.outputs.map fun v =>
        style.lead.getD "" ++ v.format style.precision ++ "\n")).toUTF8 ∧
    ∃ unread : List Console.Line,
      (final (run n p) m).channel.pending = Console.bytesOf (Console.Line.textOf closed unread) ∧
      (final (run n p) m').channel.inputs = unread.map (·.value) := by
  intro text m m'
  have hfollows : Console.Follows style closed m.channel m'.channel :=
    ⟨rfl, rfl, ⟨lines, rfl, rfl⟩, rfl⟩
  have hrun := runIn_mirrors n p m m' ⟨m'.channel, hfollows, rfl⟩
  obtain ⟨ho, s, hs, he⟩ := hrun.outcome_final
  rw [outcome_run, outcome_run, final_run, final_run]
  have hc : (final (runIn n p) m').channel = s := congrArg Machine.channel he
  rw [← hc] at hs
  exact ⟨ho, hs.written, hs.pending⟩

end Exec

end Bello
