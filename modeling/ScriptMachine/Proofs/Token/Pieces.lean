import ScriptMachine.Token.Scan

/-!
# Kinds of pieces

Its first characters decide what kind of piece a text starts with: a blank, a number, a word, a
string, a comment of one line, a comment in a block, or a symbol. A number or a word is what a run
of characters makes of it, so what stands behind a character that ends the run has no influence.

A name is not empty and is no reserved word, so no source can spell the names that the compiler
gives to slot zero and to superclasses.
-/

namespace ScriptMachine.Token

variable {c : Char} {cs : List Char}

/-! ### First characters -/

/-- A digit is no blank. -/
theorem isSpace_of_isDigit (h : isDigit c = true) : isSpace c = false := by
  refine Bool.eq_false_iff.mpr fun hspace => ?_
  simp only [isSpace, Bool.or_eq_true, decide_eq_true_eq] at hspace
  rcases hspace with (((rfl | rfl) | rfl) | rfl) | rfl <;> cases h

/-- What starts a name is no blank. -/
theorem isSpace_of_isNameStart (h : isNameStart c = true) : isSpace c = false := by
  refine Bool.eq_false_iff.mpr fun hspace => ?_
  simp only [isSpace, Bool.or_eq_true, decide_eq_true_eq] at hspace
  rcases hspace with (((rfl | rfl) | rfl) | rfl) | rfl <;> cases h

/-- What starts a name is no digit. -/
theorem isDigit_of_isNameStart (h : isNameStart c = true) : isDigit c = false := by
  refine Bool.eq_false_iff.mpr fun hdigit => ?_
  simp only [isDigit, Bool.and_eq_true, decide_eq_true_eq] at hdigit
  simp only [isNameStart, Bool.or_eq_true, Bool.and_eq_true, decide_eq_true_eq] at h
  have hdigit : c ≤ '9' := hdigit.2
  rcases h with (⟨h, -⟩ | ⟨h, -⟩) | rfl
  · exact absurd (Nat.le_trans h hdigit) (by decide)
  · exact absurd (Nat.le_trans h hdigit) (by decide)
  · exact absurd hdigit (by decide)

/-- The kinds of first pieces, each with what is cut off. -/
inductive Cuts : Char → List Char → Cut → Prop
  | space {c : Char} {cs : List Char} (hc : isSpace c = true) : Cuts c cs ⟨.skipped, [c], cs⟩
  | number {c : Char} {cs : List Char} (hc : isDigit c = true) : Cuts c cs (cutNumber (c :: cs))
  | word {c : Char} {cs : List Char} (hc : isNameStart c = true) : Cuts c cs (cutWord (c :: cs))
  | string {cs : List Char} : Cuts '"' cs (cutString cs)
  | line {cs : List Char} : Cuts '/' ('/' :: cs)
      ⟨.skipped, '/' :: '/' :: cs.takeWhile (· ≠ '\n'), cs.dropWhile (· ≠ '\n')⟩
  | block {cs : List Char} : Cuts '/' ('*' :: cs) (cutComment cs)
  | symbol {c : Char} {cs : List Char} (hspace : isSpace c = false) (hdigit : isDigit c = false)
      (hname : isNameStart c = false) (hquote : c ≠ '"')
      (hcomment : c = '/' → ∀ d rest, cs = d :: rest → d ≠ '/' ∧ d ≠ '*') :
      Cuts c cs (cutSymbol c cs)

/-- A piece is cut by what its first characters are. -/
theorem cuts (c : Char) (cs : List Char) : Cuts c cs (cut c cs) := by
  unfold cut
  split
  · next hspace => exact .space hspace
  next hspace =>
  split
  · next hdigit => exact .number hdigit
  next hdigit =>
  split
  · next hname => exact .word hname
  next hname =>
  split
  · next hquote =>
    subst hquote
    exact .string
  next hquote =>
  split
  · exact .line
  · exact .block
  · next c cs hline hblock =>
    refine .symbol (by simpa using hspace) (by simpa using hdigit) (by simpa using hname) hquote ?_
    rintro rfl d rest rfl
    exact ⟨fun hd => hline rest rfl (hd ▸ rfl), fun hd => hblock rest rfl (hd ▸ rfl)⟩

/-- Each kind of first piece is cut off. -/
theorem Cuts.eq {first : Cut} (h : Cuts c cs first) : cut c cs = first := by
  unfold cut
  cases h with
  | space hc => rw [if_pos hc]
  | number hc => rw [if_neg (by simp [isSpace_of_isDigit hc]), if_pos hc]
  | word hc =>
    rw [if_neg (by simp [isSpace_of_isNameStart hc]), if_neg (by simp [isDigit_of_isNameStart hc]),
      if_pos hc]
  | string => rfl
  | line => rfl
  | block => rfl
  | symbol hspace hdigit hname hquote hcomment =>
    rw [if_neg (by simp [hspace]), if_neg (by simp [hdigit]), if_neg (by simp [hname]),
      if_neg hquote]
    split
    · exact absurd rfl (hcomment rfl _ _ rfl).1
    · exact absurd rfl (hcomment rfl _ _ rfl).2
    · rfl

end ScriptMachine.Token

namespace ScriptMachine.Token

variable {cs : List Char} {c : Char} {spelling : String}

/-- A name that is read has at least one character and is no reserved word. -/
theorem cutWord_name (hc : isNameStart c = true)
    (h : (cutWord (c :: cs)).piece = .token (.name spelling)) :
    spelling ≠ "" ∧ Keyword.ofSpelling? spelling = none := by
  unfold cutWord at h
  simp only [Piece.token.injEq] at h
  split at h
  · cases h
  · next hnone =>
    simp only [Token.name.injEq] at h
    subst h
    refine ⟨fun hempty => ?_, hnone⟩
    have hpart : isNamePart c = true := by simp [isNamePart, hc]
    have := congrArg String.toList hempty
    simp [hpart] at this

/-- A number is no name. -/
theorem cutNumber_ne_name : (cutNumber cs).piece ≠ .token (.name spelling) := by
  unfold cutNumber
  split
  · split <;> simp
  · simp

/-- A string is no name. -/
theorem cutString_ne_name : (cutString cs).piece ≠ .token (.name spelling) := by
  unfold cutString
  split <;> simp

/-- A comment is no name. -/
theorem cutComment_ne_name : (cutComment cs).piece ≠ .token (.name spelling) := by
  unfold cutComment
  split <;> simp

/-- A symbol is no name. -/
theorem cutSymbol_ne_name : (cutSymbol c cs).piece ≠ .token (.name spelling) := by
  unfold cutSymbol
  cases cs with
  | nil => cases Symbol.single? c <;> simp
  | cons d rest =>
    cases h : Symbol.pair? c d with
    | some s => simp [h]
    | none => cases Symbol.single? c <;> simp [h]

/-- The first piece of a text is a name only if it can be one. -/
theorem cut_name (h : (cut c cs).piece = .token (.name spelling)) :
    spelling ≠ "" ∧ Keyword.ofSpelling? spelling = none := by
  unfold cut at h
  split at h
  · cases h
  split at h
  · exact absurd h cutNumber_ne_name
  split at h
  · next hstart => exact cutWord_name hstart h
  split at h
  · exact absurd h cutString_ne_name
  split at h
  · cases h
  · exact absurd h cutComment_ne_name
  · exact absurd h cutSymbol_ne_name

/-- Every name among the tokens of a text can be one. -/
theorem readFrom_names {offset line : Nat} {done : Reading} {text : List Char}
    (hdone : ∀ l ∈ done.tokens, ∀ spelling, l.token = .name spelling →
      spelling ≠ "" ∧ Keyword.ofSpelling? spelling = none) :
    ∀ l ∈ (readFrom offset line done text).tokens, ∀ spelling, l.token = .name spelling →
      spelling ≠ "" ∧ Keyword.ofSpelling? spelling = none := by
  fun_induction readFrom offset line done text with
  | case1 => exact hdone
  | case2 offset line done c cs first stop done' ih =>
    refine ih ?_
    intro l hl spelling hspelling
    simp only [done'] at hl
    split at hl
    · exact hdone l hl spelling hspelling
    · next t hpiece =>
      rcases Array.mem_push.mp hl with hl | rfl
      · exact hdone l hl spelling hspelling
      · have hcut : (cut c cs).piece = .token (.name spelling) := hpiece.trans (by rw [← hspelling])
        exact cut_name hcut
    · exact hdone l hl spelling hspelling

/-- A name in a source is neither empty nor a reserved word. -/
theorem read_names {source : String} : ∀ l ∈ (read source).tokens, ∀ spelling,
    l.token = .name spelling → spelling ≠ "" ∧ Keyword.ofSpelling? spelling = none :=
  readFrom_names (by simp)

end ScriptMachine.Token
