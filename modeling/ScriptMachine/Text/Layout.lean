/-!
# Blanks and columns

The blanks of Unicode, as the property White_Space lists them: a line of input that holds nothing
else carries no code. In a column of fixed width, numbers stand at the right and names at the left;
a text wider than its column is kept whole.
-/

namespace ScriptMachine.Text

/-- A character with the Unicode property White_Space. -/
def isBlank (c : Char) : Bool :=
  let n := c.toNat
  (0x09 ≤ n && n ≤ 0x0D) || n = 0x20 || n = 0x85 || n = 0xA0 || n = 0x1680 ||
    (0x2000 ≤ n && n ≤ 0x200A) || n = 0x2028 || n = 0x2029 || n = 0x202F || n = 0x205F ||
    n = 0x3000

/-- A text of blanks only. -/
def isBlankText (s : String) : Bool := s.toList.all isBlank

/-- The text without the blanks at its end. -/
def dropFinalBlanks (s : String) : String :=
  String.ofList (s.toList.reverse.dropWhile isBlank).reverse

/-- `n` copies of one character. -/
def repeated (c : Char) (n : Nat) : String := String.ofList (List.replicate n c)

/-- The text at the right end of a column, after copies of `fill`. -/
def padLeft (fill : Char) (width : Nat) (s : String) : String :=
  repeated fill (width - s.length) ++ s

/-- The text at the left end of a column of blanks. -/
def padRight (width : Nat) (s : String) : String :=
  s ++ repeated ' ' (width - s.length)

end ScriptMachine.Text
