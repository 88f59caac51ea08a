import ScriptMachine.Proofs.Token.Pieces
import ScriptMachine.Proofs.Token.Places

/-!
# Reading joined texts

No piece crosses the end of a line, unless it is a string or a block comment that is not closed.
So a text, a newline and another text are read as the first text and then the second, with the
places of the second moved behind the newline. What the first text ends in does not matter: a line
comment, half of an operator or digits before a point take nothing from the next line.
-/

namespace ScriptMachine

namespace Source

/-- A span moved by some bytes. -/
def Span.shift (bytes : Nat) (s : Span) : Span := ⟨s.start + bytes, s.stop + bytes⟩

/-- A located thing moved by some bytes and some lines. -/
def Located.shift {α : Type} (bytes lines : Nat) (p : Located α) : Located α :=
  ⟨p.kind, p.span.shift bytes, p.line + lines.toUInt32⟩

end Source

/-- A lexeme moved by some bytes and some lines. -/
def Lexeme.shift (bytes lines : Nat) (l : Lexeme) : Lexeme :=
  ⟨l.token, l.span.shift bytes, l.line + lines.toUInt32⟩

namespace Token

open Source

variable {done other : Reading} {c : Char} {cs text rest : List Char} {offset line bytes lines : Nat}

/-! ### Readings -/

/-- What was read of a text and then of another. -/
def Reading.append (r other : Reading) : Reading :=
  ⟨r.tokens ++ other.tokens, r.problems ++ other.problems⟩

/-- What was read, moved by some bytes and some lines. -/
def Reading.shift (bytes lines : Nat) (r : Reading) : Reading :=
  ⟨r.tokens.map (Lexeme.shift bytes lines), r.problems.map (Located.shift bytes lines)⟩

/-- Whether a text stops inside a string or a comment. -/
def Problem.isUnterminated : Problem → Bool
  | unterminatedString | unterminatedComment => true
  | unexpectedChar _ => false

/-- A reading without a string or a comment that is not closed. -/
def Reading.Terminated (r : Reading) : Prop := ∀ p ∈ r.problems, p.kind.isUnterminated = false

instance (r : Reading) : Decidable r.Terminated :=
  inferInstanceAs (Decidable (∀ p ∈ r.problems, p.kind.isUnterminated = false))

/-- What a piece adds to a reading. -/
def Reading.add (r : Reading) (piece : Piece) (span : Span) (line : Nat) : Reading :=
  match piece with
  | .skipped => r
  | .token t => { r with tokens := r.tokens.push ⟨t, span, line.toUInt32⟩ }
  | .problem p => { r with problems := r.problems.push ⟨p, span, line.toUInt32⟩ }

/-- At the end the reading is done. -/
theorem readFrom_nil : readFrom offset line done [] = done := by rw [readFrom]

/-- One piece is read, and the rest behind it. -/
theorem readFrom_cons : readFrom offset line done (c :: cs) =
    readFrom (offset + byteLength (cut c cs).taken) (line + (cut c cs).taken.count '\n')
      (done.add (cut c cs).piece ⟨offset, offset + byteLength (cut c cs).taken⟩ line)
      (cut c cs).rest := by
  rw [readFrom]
  rfl

/-- A piece added behind a reading may be added before it is put behind another. -/
theorem Reading.append_add (piece : Piece) (span : Span) :
    (done.append other).add piece span line = done.append (other.add piece span line) := by
  cases piece <;> simp [add, append]

/-- A piece may be moved before it is added or with the others. -/
theorem Reading.shift_add (piece : Piece) (span : Span) :
    (done.shift bytes lines).add piece (span.shift bytes) (line + lines) =
      (done.add piece span line).shift bytes lines := by
  have hline : (line + lines).toUInt32 = line.toUInt32 + lines.toUInt32 := UInt32.ofNat_add line lines
  cases piece <;> simp [add, shift, Lexeme.shift, Located.shift, hline]

/-- What was read before stays in front. -/
theorem readFrom_append : readFrom offset line (done.append other) text =
    done.append (readFrom offset line other text) := by
  fun_induction readFrom offset line other text with
  | case1 => exact readFrom_nil
  | case2 offset line other c cs first stop other' ih =>
    rw [readFrom_cons, Reading.append_add]
    exact ih

/-- A text is read alike wherever it stands, by induction on the pieces. -/
theorem readFrom_shift (bytes lines offset line : Nat) (done : Reading) (text : List Char) :
    readFrom (offset + bytes) (line + lines) (done.shift bytes lines) text =
      (readFrom offset line done text).shift bytes lines := by
  fun_induction readFrom offset line done text with
  | case1 => exact readFrom_nil
  | case2 offset line done c cs first stop done' ih =>
    rw [readFrom_cons, Nat.add_right_comm, Nat.add_right_comm line]
    rw [show (⟨offset + bytes, offset + byteLength (cut c cs).taken + bytes⟩ : Span) =
      Span.shift bytes ⟨offset, stop⟩ from rfl, Reading.shift_add]
    exact ih

/-- Reading on keeps what was read. -/
theorem readFrom_extends : readFrom offset line done text =
    done.append (readFrom offset line ⟨#[], #[]⟩ text) := by
  rw [← readFrom_append]
  simp [Reading.append]

/-! ### Pieces at the end of a line -/

/-- A piece with more text after it. -/
def Cut.followedBy (after : List Char) (first : Cut) : Cut :=
  ⟨first.piece, first.taken, first.rest ++ after⟩

/-- A piece that does not stop inside a string or a comment. -/
def Piece.Ends : Piece → Prop
  | problem p => p.isUnterminated = false
  | _ => True

section

variable (after : List Char) {p : Char → Bool}

/-- What does not go on behind a line break is taken alike. -/
theorem takeWhile_line (hp : p '\n' = false) (cs : List Char) :
    (cs ++ '\n' :: after).takeWhile p = cs.takeWhile p := by
  induction cs with
  | nil => simp [hp]
  | cons c cs ih => simp only [List.cons_append, List.takeWhile_cons, ih]

/-- What does not go on behind a line break leaves the same and what follows. -/
theorem dropWhile_line (hp : p '\n' = false) (cs : List Char) :
    (cs ++ '\n' :: after).dropWhile p = cs.dropWhile p ++ '\n' :: after := by
  induction cs with
  | nil => simp [hp]
  | cons c cs ih =>
    simp only [List.cons_append, List.dropWhile_cons, ih]
    split <;> rfl

/-- A number does not go on behind a line break. -/
theorem cutNumber_line (cs : List Char) :
    cutNumber (cs ++ '\n' :: after) = (cutNumber cs).followedBy ('\n' :: after) := by
  unfold cutNumber
  rw [takeWhile_line after (by decide), dropWhile_line after (by decide)]
  rcases cs.dropWhile isDigit with _ | ⟨c, _ | ⟨d, rest⟩⟩
  · rfl
  · by_cases hc : c = '.'
    · subst hc
      rfl
    · simp [hc, Cut.followedBy]
  · by_cases hc : c = '.'
    · subst hc
      simp only [List.cons_append]
      split
      · rw [← List.cons_append, takeWhile_line after (by decide),
          dropWhile_line after (by decide)]
        rfl
      · rfl
    · simp [hc, Cut.followedBy]

/-- A word does not go on behind a line break. -/
theorem cutWord_line (cs : List Char) :
    cutWord (cs ++ '\n' :: after) = (cutWord cs).followedBy ('\n' :: after) := by
  unfold cutWord
  rw [takeWhile_line after (by decide), dropWhile_line after (by decide)]
  rfl

/-- What stops within a text is taken alike in front of more. -/
theorem takeWhile_stopped {cs : List Char} (h : cs.dropWhile p ≠ []) :
    (cs ++ after).takeWhile p = cs.takeWhile p := by
  induction cs with
  | nil => exact absurd rfl h
  | cons c cs ih =>
    rw [List.dropWhile_cons] at h
    rw [List.cons_append, List.takeWhile_cons, List.takeWhile_cons]
    split at h
    · rw [ih h]
    · next hc => rw [if_neg hc, if_neg hc]

/-- A string that ends is the same in front of more. -/
theorem cutString_line (cs : List Char) (h : (cutString cs).piece.Ends) :
    cutString (cs ++ '\n' :: after) = (cutString cs).followedBy ('\n' :: after) := by
  unfold cutString at h ⊢
  match hrest : cs.dropWhile (· ≠ '"') with
  | [] =>
    rw [hrest] at h
    cases h
  | q :: rest =>
    have hstop : cs.dropWhile (· ≠ '"') ≠ [] := by rw [hrest]; exact List.cons_ne_nil _ _
    rw [takeWhile_stopped _ hstop, List.dropWhile_append, hrest]
    rfl

/-- A comment that ends is the same in front of more. -/
theorem splitComment_append_right {seen cs body rest : List Char}
    (h : splitComment seen cs = some (body, rest)) (after : List Char) :
    splitComment seen (cs ++ after) = some (body, rest ++ after) := by
  fun_induction splitComment seen cs with
  | case1 => cases h
  | case2 => cases h
  | case3 seen rest' =>
    simp only [Option.some.injEq, Prod.mk.injEq] at h
    obtain ⟨rfl, rfl⟩ := h
    rfl
  | case4 seen c d rest' hne ih =>
    rw [List.cons_append, List.cons_append, splitComment]
    · exact ih h
    · exact hne

/-- A comment that ends is the same in front of another line. -/
theorem cutComment_line (cs : List Char) (h : (cutComment cs).piece.Ends) :
    cutComment (cs ++ '\n' :: after) = (cutComment cs).followedBy ('\n' :: after) := by
  unfold cutComment at h ⊢
  match hsplit : splitComment [] cs with
  | none =>
    rw [hsplit] at h
    cases h
  | some (body, rest) =>
    rw [splitComment_append_right hsplit]
    rfl

/-- No symbol of two characters ends with a line break. -/
theorem pair?_newline (c : Char) : Symbol.pair? c '\n' = none := by
  unfold Symbol.pair?
  split <;> first | rfl | contradiction

/-- A symbol does not go on behind a line break. -/
theorem cutSymbol_line (c : Char) (cs : List Char) :
    cutSymbol c (cs ++ '\n' :: after) = (cutSymbol c cs).followedBy ('\n' :: after) := by
  unfold cutSymbol
  cases cs with
  | nil => cases Symbol.single? c <;> simp [pair?_newline, Cut.followedBy]
  | cons d rest =>
    cases hpair : Symbol.pair? c d with
    | some s => simp [hpair, Cut.followedBy]
    | none => cases Symbol.single? c <;> simp [hpair, Cut.followedBy]

/-- A piece that ends takes nothing of the next line. -/
theorem cut_line (c : Char) (cs : List Char) (h : (cut c cs).piece.Ends) :
    cut c (cs ++ '\n' :: after) = (cut c cs).followedBy ('\n' :: after) := by
  generalize hfirst : cut c cs = first at h
  have hcuts := hfirst ▸ cuts c cs
  cases hcuts with
  | space hc => exact (Cuts.space hc).eq
  | number hc => exact (Cuts.number hc).eq.trans (cutNumber_line after (c :: cs))
  | word hc => exact (Cuts.word hc).eq.trans (cutWord_line after (c :: cs))
  | string => exact Cuts.string.eq.trans (cutString_line after cs h)
  | line =>
    rw [List.cons_append, Cuts.line.eq, takeWhile_line after (by decide),
      dropWhile_line after (by decide)]
    rfl
  | block => exact Cuts.block.eq.trans (cutComment_line after _ h)
  | symbol hspace hdigit hname hquote hcomment =>
    refine (Cuts.symbol hspace hdigit hname hquote fun hc d rest hcs => ?_).eq.trans
      (cutSymbol_line after c cs)
    cases cs with
    | nil =>
      obtain ⟨rfl, -⟩ := List.cons.inj hcs
      decide
    | cons e cs =>
      obtain ⟨rfl, -⟩ := List.cons.inj hcs
      exact hcomment hc e cs rfl

end

/-! ### Joined texts -/

/-- A reading that is terminated was so before its last pieces. -/
theorem Reading.Terminated.of_readFrom (h : (readFrom offset line done text).Terminated) :
    done.Terminated := by
  rw [readFrom_extends] at h
  exact fun p hp => h p (Array.mem_append_left _ hp)

/-- The last piece of a terminated reading ends. -/
theorem Reading.Terminated.of_add {piece : Piece} {span : Span}
    (h : (done.add piece span line).Terminated) : piece.Ends := by
  cases piece with
  | skipped => trivial
  | token t => trivial
  | problem p => exact h _ Array.mem_push_self

/-- What is read of a text whose strings and comments are closed, before a newline and more text. -/
theorem readFrom_line (after : List Char) (h : (readFrom offset line done text).Terminated) :
    readFrom offset line done (text ++ '\n' :: after) =
      readFrom (offset + byteLength text + 1) (line + text.count '\n' + 1)
        (readFrom offset line done text) after := by
  fun_induction readFrom offset line done text with
  | case1 offset line done =>
    rw [List.nil_append, readFrom_cons]
    rfl
  | case2 offset line done c cs first stop done' ih =>
    have hdone : done'.Terminated := h.of_readFrom
    have hcut : first.taken ++ first.rest = c :: cs := cut_append c cs
    rw [List.cons_append, readFrom_cons, cut_line after c cs (Reading.Terminated.of_add hdone)]
    refine (ih h).trans ?_
    rw [← hcut, byteLength_append, List.count_append]
    simp only [stop, Nat.add_assoc]

/-- A text, a newline and another text are read one after the other. -/
theorem read_join (a b : String) (h : (read a).Terminated) :
    read (a ++ "\n" ++ b) =
      (read a).append ((read b).shift (a.utf8ByteSize + 1) (1 + a.toList.count '\n')) := by
  have hsize : byteLength a.toList = a.utf8ByteSize := by
    rw [← utf8ByteSize_ofList, String.ofList_toList]
  have hline := readFrom_line b.toList h
  have hshift := readFrom_shift (a.utf8ByteSize + 1) (1 + a.toList.count '\n') 0 1 ⟨#[], #[]⟩ b.toList
  have hlines : 1 + a.toList.count '\n' + 1 = 1 + (1 + a.toList.count '\n') := by omega
  have hempty : Reading.shift (a.utf8ByteSize + 1) (1 + a.toList.count '\n') ⟨#[], #[]⟩ =
      ⟨#[], #[]⟩ := by simp [Reading.shift]
  rw [read, String.toList_append, String.toList_append, List.append_assoc]
  rw [show "\n".toList ++ b.toList = '\n' :: b.toList from rfl, hline, readFrom_extends, hsize]
  rw [hlines, read, read, ← hshift, hempty, Nat.add_assoc]

/-- Half an operator and the digits before a point are not continued on the next line. -/
theorem unfinished_line_joined : (read "x &\n1.").Terminated ∧
    read ("x &\n1." ++ "\n" ++ "5 & /= // y") =
      (read "x &\n1.").append ((read "5 & /= // y").shift 7 2) :=
  ⟨by decide +kernel, read_join _ _ (by decide +kernel)⟩

end Token

end ScriptMachine
