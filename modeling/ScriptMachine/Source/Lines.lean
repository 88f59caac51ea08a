import ScriptMachine.Source.Span

/-!
# Lines of a source

A source is cut at its newlines. Each line keeps the byte it starts at and its text without
the newline, so a byte offset can be given as a line and a column, both counted from one. A
newline belongs to the line it ends; an offset past the end belongs to the last line.
-/

namespace ScriptMachine.Source

/-- A line of text and the offset of its first byte. -/
structure Line where
  start : Nat
  text : List Char

/-- The lines of a source, in order. -/
structure Lines where
  lines : Array Line

/-- Cuts the rest of a source into lines, with `text` the reversed part of the current line,
which started at `start`, and `offset` the position reached. -/
def cutLines (start offset : Nat) (text : List Char) (done : Array Line) :
    List Char → Array Line
  | [] => done.push ⟨start, text.reverse⟩
  | c :: rest =>
    let next := offset + c.utf8Size
    if c = '\n' then cutLines next next [] (done.push ⟨start, text.reverse⟩) rest
    else cutLines start next (c :: text) done rest

/-- The lines of a source text. -/
def Lines.ofText (source : String) : Lines := ⟨cutLines 0 0 [] #[] source.toList⟩

namespace Lines

/-- The number of lines, one more than the number of newlines. -/
def count (m : Lines) : Nat := m.lines.size

/-- How many of some lines start at a byte offset or before it. -/
def upTo (offset : Nat) (lines : Array Line) : Nat :=
  lines.foldl (fun n line => if line.start ≤ offset then n + 1 else n) 0

/-- The number of the line of a byte offset, counted from one and cut off to 32 bits. -/
def lineOf (m : Lines) (offset : Nat) : UInt32 := (max 1 (upTo offset m.lines)).toUInt32

/-- The line and the column of a byte offset, both counted from one; columns count bytes. There are
none if cutting off has left no line number. -/
def lookup (m : Lines) (offset : Nat) : Option (Nat × Nat) :=
  match (m.lineOf offset).toNat with
  | 0 => none
  | index + 1 => m.lines[index]?.map fun line => (index + 1, offset - line.start + 1)

/-- The text of a line without the carriage returns and newlines that end it, empty for a
line the source does not have. -/
def text (m : Lines) (line : Nat) : String :=
  match line with
  | 0 => ""
  | index + 1 =>
    match m.lines[index]? with
    | none => ""
    | some l => String.ofList (l.text.reverse.dropWhile (· = '\r')).reverse

end Lines

end ScriptMachine.Source
