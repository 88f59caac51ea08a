import ScriptMachine.Token.Basic

/-!
# Reading tokens

A text is cut into pieces, each the longest that can stand at its place: a blank, a comment, a
token, or text that is wrong. A string and a block comment that are not closed run to the end;
any other character that starts no token is wrong by itself. Bytes and lines are counted over
the pieces, so every token and every problem has its span and its line.
-/

namespace ScriptMachine.Token

open ScriptMachine.Source

/-- The blanks between tokens. -/
def isSpace (c : Char) : Bool :=
  c = ' ' || c = '\t' || c = '\r' || c = '\n' || c = '\x0c'

/-- A decimal digit. -/
def isDigit (c : Char) : Bool := '0' ≤ c && c ≤ '9'

/-- A character that a name can start with. -/
def isNameStart (c : Char) : Bool :=
  ('a' ≤ c && c ≤ 'z') || ('A' ≤ c && c ≤ 'Z') || c = '_'

/-- A character that a name can go on with. -/
def isNamePart (c : Char) : Bool := isNameStart c || isDigit c

/-- What a piece of text is. -/
inductive Piece
  | skipped
  | token (t : Token)
  | problem (p : Problem)

/-- The first piece of a text, the characters it takes and the text after it. -/
structure Cut where
  piece : Piece
  taken : List Char
  rest : List Char

/-- The number that a run of digits denotes. -/
def digitsValue (cs : List Char) : Nat :=
  cs.foldl (fun n c => 10 * n + (c.toNat - '0'.toNat)) 0

/-- The nearest float to a decimal with the given digits before and after its point. -/
def decimalValue (whole fraction : List Char) : Float :=
  Float.ofScientific (digitsValue (whole ++ fraction)) true fraction.length

/-- Splits a text after its first `*/`, with `seen` the reversed text before it. -/
def splitComment (seen : List Char) : List Char → Option (List Char × List Char)
  | [] => none
  | [_] => none
  | '*' :: '/' :: rest => some ((['/', '*'] ++ seen).reverse, rest)
  | c :: d :: rest => splitComment (c :: seen) (d :: rest)

/-- A number: digits, and a point with more digits if a digit follows the point. -/
def cutNumber (cs : List Char) : Cut :=
  let whole := cs.takeWhile isDigit
  match cs.dropWhile isDigit with
  | '.' :: d :: rest =>
    if isDigit d then
      let fraction := (d :: rest).takeWhile isDigit
      ⟨.token (.number (decimalValue whole fraction)), whole ++ '.' :: fraction,
        (d :: rest).dropWhile isDigit⟩
    else ⟨.token (.number (decimalValue whole [])), whole, '.' :: d :: rest⟩
  | rest => ⟨.token (.number (decimalValue whole [])), whole, rest⟩

/-- A reserved word or a name. -/
def cutWord (cs : List Char) : Cut :=
  let word := cs.takeWhile isNamePart
  let spelling := String.ofList word
  let token := match Keyword.ofSpelling? spelling with
    | some k => .keyword k
    | none => .name spelling
  ⟨.token token, word, cs.dropWhile isNamePart⟩

/-- A string after its opening quote: everything up to the next quote. -/
def cutString (cs : List Char) : Cut :=
  let body := cs.takeWhile (· ≠ '"')
  match cs.dropWhile (· ≠ '"') with
  | q :: rest => ⟨.token (.text (String.ofList body)), '"' :: (body ++ [q]), rest⟩
  | [] => ⟨.problem .unterminatedString, '"' :: body, []⟩

/-- A block comment after its opening. -/
def cutComment (cs : List Char) : Cut :=
  match splitComment [] cs with
  | some (body, rest) => ⟨.skipped, '/' :: '*' :: body, rest⟩
  | none => ⟨.problem .unterminatedComment, '/' :: '*' :: cs, []⟩

/-- A symbol of two characters if there is one, else of one, else a wrong character. -/
def cutSymbol (c : Char) (cs : List Char) : Cut :=
  let alone : Cut := match Symbol.single? c with
    | some s => ⟨.token (.symbol s), [c], cs⟩
    | none => ⟨.problem (.unexpectedChar c), [c], cs⟩
  match cs with
  | [] => alone
  | d :: rest =>
    match Symbol.pair? c d with
    | some s => ⟨.token (.symbol s), [c, d], rest⟩
    | none => alone

/-- The first piece of a text that is not empty. This is what the lexer generator `logos` documents
for a set of patterns: at each position the pattern with the longest match wins, a literal token wins
over a pattern that matches as much (a reserved word over a name), skipped patterns give no token, a
callback may go on past its match (the rest of a string or of a comment) or turn the match into an
error, and where no pattern matches, what could not be read is an error. -/
def cut (c : Char) (cs : List Char) : Cut :=
  if isSpace c then ⟨.skipped, [c], cs⟩
  else if isDigit c then cutNumber (c :: cs)
  else if isNameStart c then cutWord (c :: cs)
  else if c = '"' then cutString cs
  else match c, cs with
    | '/', '/' :: rest =>
      ⟨.skipped, '/' :: '/' :: rest.takeWhile (· ≠ '\n'), rest.dropWhile (· ≠ '\n')⟩
    | '/', '*' :: rest => cutComment rest
    | c, cs => cutSymbol c cs

theorem splitComment_append {seen cs body rest : List Char}
    (h : splitComment seen cs = some (body, rest)) : body ++ rest = seen.reverse ++ cs := by
  fun_induction splitComment seen cs with
  | case1 => simp at h
  | case2 => simp at h
  | case3 seen rest' =>
    simp only [Option.some.injEq, Prod.mk.injEq] at h
    obtain ⟨rfl, rfl⟩ := h
    simp
  | case4 seen c d rest' _ ih => simpa using ih h

theorem cutNumber_append (cs : List Char) : (cutNumber cs).taken ++ (cutNumber cs).rest = cs := by
  have split := List.takeWhile_append_dropWhile (p := isDigit) (l := cs)
  unfold cutNumber
  split
  next d rest heq =>
    split
    · simp only [List.append_assoc, List.cons_append, List.takeWhile_append_dropWhile]
      rw [← heq, split]
    · rw [← heq]
      exact split
  next => exact split

theorem cutWord_append (cs : List Char) : (cutWord cs).taken ++ (cutWord cs).rest = cs :=
  List.takeWhile_append_dropWhile

theorem cutString_append (cs : List Char) :
    (cutString cs).taken ++ (cutString cs).rest = '"' :: cs := by
  have split := List.takeWhile_append_dropWhile (p := fun c => decide (c ≠ '"')) (l := cs)
  unfold cutString
  split
  next q rest heq =>
    simp only [List.cons_append, List.append_assoc, List.nil_append]
    rw [← heq, split]
  next heq =>
    rw [heq] at split
    simpa using split

theorem cutComment_append (cs : List Char) :
    (cutComment cs).taken ++ (cutComment cs).rest = '/' :: '*' :: cs := by
  unfold cutComment
  split
  next body rest heq => simpa using splitComment_append heq
  next => simp

theorem cutSymbol_append (c : Char) (cs : List Char) :
    (cutSymbol c cs).taken ++ (cutSymbol c cs).rest = c :: cs := by
  unfold cutSymbol
  cases cs with
  | nil => cases Symbol.single? c <;> rfl
  | cons d rest =>
    cases h : Symbol.pair? c d with
    | some s => simp [h]
    | none => cases Symbol.single? c <;> simp [h]

theorem cutSymbol_taken_ne_nil (c : Char) (cs : List Char) : (cutSymbol c cs).taken ≠ [] := by
  unfold cutSymbol
  cases cs with
  | nil => cases Symbol.single? c <;> simp
  | cons d rest =>
    cases h : Symbol.pair? c d with
    | some s => simp [h]
    | none => cases Symbol.single? c <;> simp [h]

/-- Nothing of a text is lost when its first piece is cut off. -/
theorem cut_append (c : Char) (cs : List Char) : (cut c cs).taken ++ (cut c cs).rest = c :: cs := by
  unfold cut
  split
  · rfl
  split
  · exact cutNumber_append _
  split
  · exact cutWord_append _
  split
  · next h => rw [h]; exact cutString_append cs
  split
  · simp
  · exact cutComment_append _
  · exact cutSymbol_append _ _

/-- A piece has at least one character. -/
theorem cut_taken_ne_nil (c : Char) (cs : List Char) : (cut c cs).taken ≠ [] := by
  unfold cut
  split
  · simp
  split
  · next h =>
    have : (c :: cs).takeWhile isDigit ≠ [] := by simp [h]
    unfold cutNumber
    split
    · split
      · simp
      · exact this
    · exact this
  split
  · next h => simp [cutWord, isNamePart, h]
  split
  · unfold cutString
    split <;> simp
  split
  · simp
  · unfold cutComment
    split <;> simp
  · exact cutSymbol_taken_ne_nil _ _

theorem cut_rest_length_lt (c : Char) (cs : List Char) :
    (cut c cs).rest.length < (c :: cs).length := by
  have split := congrArg List.length (cut_append c cs)
  have taken := List.length_pos_iff.mpr (cut_taken_ne_nil c cs)
  rw [List.length_append] at split
  omega

end Token

/-- The tokens and the problems of a text, each in their order. -/
structure Token.Reading where
  tokens : Array Lexeme
  problems : Array (Source.Located Token.Problem)

namespace Token

open ScriptMachine.Source

/-- Reads the rest of a text that starts at byte `offset` on line `line`, with lines numbered in 32
bits. -/
def readFrom (offset line : Nat) (done : Reading) (text : List Char) : Reading :=
  match text with
  | [] => done
  | c :: cs =>
    let first := cut c cs
    let stop := offset + byteLength first.taken
    let done := match first.piece with
      | .skipped => done
      | .token t => { done with tokens := done.tokens.push ⟨t, ⟨offset, stop⟩, line.toUInt32⟩ }
      | .problem p => { done with problems := done.problems.push ⟨p, ⟨offset, stop⟩, line.toUInt32⟩ }
    readFrom stop (line + first.taken.count '\n') done first.rest
termination_by text.length
decreasing_by exact cut_rest_length_lt c cs

/-- Reads a whole source. -/
def read (source : String) : Reading := readFrom 0 1 ⟨#[], #[]⟩ source.toList

end ScriptMachine.Token
