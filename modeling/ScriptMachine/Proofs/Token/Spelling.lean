import Mathlib.Data.List.TakeWhile
import ScriptMachine.Proofs.Token.Pieces

/-!
# What texts spell

The tokens as a language: which texts spell which token, which texts stand between tokens, and
which texts are wrong. The first piece of a text is always one of the three, and a token is the
longest that the text starts with. Comments are no tokens; where one opens, no token stands.
-/

namespace ScriptMachine

open Token

variable {c d : Char} {cs : List Char} {s : Symbol}

/-! ### Spellings -/

/-- A reserved word has the characters of a name. -/
theorem Keyword.isWord (k : Keyword) : ∃ c cs, k.spelling.toList = c :: cs ∧
    isNameStart c = true ∧ ∀ d ∈ cs, isNamePart d = true := by
  cases k <;> exact ⟨_, _, rfl, by decide, List.all_eq_true.mp (by decide)⟩

/-- A word that is taken for a reserved one is spelled as it. -/
theorem Keyword.ofSpelling?_eq_some {spelling : String} {k : Keyword}
    (h : Keyword.ofSpelling? spelling = some k) : k.spelling = spelling := by
  simpa using List.find?_some h

/-- A word that is taken for no reserved one is spelled as none. -/
theorem Keyword.ofSpelling?_eq_none {spelling : String} (h : Keyword.ofSpelling? spelling = none)
    (k : Keyword) : k.spelling ≠ spelling := by
  have hall : k ∈ Keyword.all := by cases k <;> decide
  simpa using List.find?_eq_none.mp h k hall

/-- A symbol is written with one character or with two, and read from them. -/
theorem Symbol.shape (s : Symbol) :
    (∃ c, s.spelling.toList = [c] ∧ Symbol.single? c = some s) ∨
      ∃ c d, s.spelling.toList = [c, d] ∧ Symbol.pair? c d = some s := by
  cases s <;> first | exact .inl ⟨_, rfl, rfl⟩ | exact .inr ⟨_, _, rfl, rfl⟩

/-- A symbol of one character is spelled by it. -/
theorem Symbol.spelling_single (h : Symbol.single? c = some s) : s.spelling.toList = [c] := by
  unfold Symbol.single? at h
  split at h <;> cases h <;> rfl

/-- A symbol of two characters is spelled by them. -/
theorem Symbol.spelling_pair (h : Symbol.pair? c d = some s) : s.spelling.toList = [c, d] := by
  unfold Symbol.pair? at h
  split at h <;> cases h <;> rfl

/-- No two reserved words are spelled alike. -/
theorem Keyword.spelling_inj {k k' : Keyword} (h : k.spelling = k'.spelling) : k = k' := by
  have hread (k : Keyword) : Keyword.ofSpelling? k.spelling = some k := by cases k <;> decide
  exact Option.some.inj ((hread k).symm.trans (h ▸ hread k'))

/-- No two symbols are spelled alike. -/
theorem Symbol.spelling_inj {s' : Symbol} (h : s.spelling.toList = s'.spelling.toList) : s = s' := by
  rcases s.shape, s'.shape with ⟨⟨c, hs, hread⟩ | ⟨c, d, hs, hread⟩, ⟨c', hs', hread'⟩ |
    ⟨c', d', hs', hread'⟩⟩ <;> rw [hs, hs'] at h
  · obtain rfl : c = c' := by simpa using h
    exact Option.some.inj (hread.symm.trans hread')
  · simp at h
  · simp at h
  · obtain ⟨rfl, rfl⟩ : c = c' ∧ d = d' := by simpa using h
    exact Option.some.inj (hread.symm.trans hread')

/-- A character that starts no blank, number, name or string. -/
def Token.Lone (c : Char) : Prop :=
  isSpace c = false ∧ isDigit c = false ∧ isNameStart c = false ∧ c ≠ '"'

/-- A symbol of one character starts nothing else. -/
theorem Symbol.lone_single (h : Symbol.single? c = some s) : Lone c := by
  unfold Symbol.single? at h
  unfold Lone
  split at h <;> cases h <;> decide

/-- The first character of a symbol of two starts nothing else. -/
theorem Symbol.lone_pair (h : Symbol.pair? c d = some s) : Lone c := by
  unfold Symbol.pair? at h
  unfold Lone
  split at h <;> cases h <;> decide

/-- The first character of a symbol starts nothing but symbols. -/
theorem Symbol.lone (h : s.spelling.toList = c :: cs) : Lone c := by
  rcases s.shape with ⟨e, he, hsingle⟩ | ⟨e, f, he, hpair⟩
  · obtain ⟨rfl, -⟩ := List.cons.inj (h.symm.trans he)
    exact lone_single hsingle
  · obtain ⟨rfl, -⟩ := List.cons.inj (h.symm.trans he)
    exact lone_pair hpair

namespace Token

/-- A text spells a token. -/
inductive Spells : List Char → Token → Prop
  | keyword (k : Keyword) : Spells k.spelling.toList (.keyword k)
  | symbol (s : Symbol) : Spells s.spelling.toList (.symbol s)
  | whole {digits : List Char} (hne : digits ≠ []) (h : ∀ d ∈ digits, isDigit d = true) :
      Spells digits (.number (decimalValue digits []))
  | decimal {whole fraction : List Char} (hwne : whole ≠ []) (hw : ∀ d ∈ whole, isDigit d = true)
      (hfne : fraction ≠ []) (hf : ∀ d ∈ fraction, isDigit d = true) :
      Spells (whole ++ '.' :: fraction) (.number (decimalValue whole fraction))
  | text {body : List Char} (h : '"' ∉ body) :
      Spells ('"' :: (body ++ ['"'])) (.text (String.ofList body))
  | name {c : Char} {cs : List Char} (hc : isNameStart c = true)
      (hcs : ∀ d ∈ cs, isNamePart d = true)
      (hword : ∀ k : Keyword, k.spelling ≠ String.ofList (c :: cs)) :
      Spells (c :: cs) (.name (String.ofList (c :: cs)))

/-- No longer text than `piece` is a token where `piece` stands in front of `after`. -/
def Longest (piece after : List Char) : Prop :=
  ∀ other t, Spells other t → other <+: piece ++ after → other.length ≤ piece.length

/-- A comment opens a text. -/
def OpensComment (cs : List Char) : Prop := ['/', '/'] <+: cs ∨ ['/', '*'] <+: cs

/-- A text of blanks, comments to the end of their line and comments to their first end, in front
of another text. -/
inductive Skipped : List Char → List Char → Prop
  | nil {after : List Char} : Skipped [] after
  | space {c : Char} {cs after : List Char} (hc : isSpace c = true) (h : Skipped cs after) :
      Skipped (c :: cs) after
  | line {body cs after : List Char} (hbody : '\n' ∉ body)
      (hend : ∀ c rest, cs ++ after = c :: rest → c = '\n') (h : Skipped cs after) :
      Skipped ('/' :: '/' :: (body ++ cs)) after
  | block {body cs after : List Char} (hbody : ¬ ['*', '/'] <:+: body) (h : Skipped cs after) :
      Skipped ('/' :: '*' :: (body ++ '*' :: '/' :: cs)) after

/-- A text is wrong in front of another text. -/
inductive Wrong : List Char → List Char → Problem → Prop
  | string {body : List Char} (h : '"' ∉ body) : Wrong ('"' :: body) [] .unterminatedString
  | comment {body : List Char} (h : ¬ ['*', '/'] <:+: body) :
      Wrong ('/' :: '*' :: body) [] .unterminatedComment
  | char {c : Char} {after : List Char} (hspace : isSpace c = false) (hquote : c ≠ '"')
      (h : ∀ piece t, Spells piece t → ¬ piece <+: c :: after) :
      Wrong [c] after (.unexpectedChar c)

/-- What a first piece has to be. -/
def Cut.Sound (first : Cut) : Prop :=
  match first.piece with
  | .skipped => ∀ gap after, first.rest = gap ++ after → Skipped gap after →
      Skipped (first.taken ++ gap) after
  | .token t => Spells first.taken t ∧ Longest first.taken first.rest ∧
      ¬ OpensComment (first.taken ++ first.rest)
  | .problem p => Wrong first.taken first.rest p

variable {piece rest : List Char} {t : Token}

/-! ### First characters -/

/-- Digits, with a point and more digits at most. -/
def IsNumber (piece : List Char) : Prop :=
  (∀ d ∈ piece, isDigit d = true) ∨ ∃ whole fraction, piece = whole ++ '.' :: fraction ∧
    (∀ d ∈ whole, isDigit d = true) ∧ fraction ≠ [] ∧ ∀ d ∈ fraction, isDigit d = true

/-- The number that digits denote, with a point or without. -/
def parsed (piece : List Char) : Float :=
  decimalValue (piece.takeWhile (· ≠ '.')) ((piece.dropWhile (· ≠ '.')).drop 1)

/-- Digits without a point denote a whole number. -/
theorem parsed_digits (h : ∀ d ∈ piece, isDigit d = true) : parsed piece = decimalValue piece [] := by
  have hall : ∀ d ∈ piece, decide (d ≠ '.') = true := by
    intro d hd
    have hdigit := h d hd
    simpa using fun heq : d = '.' => by rw [heq] at hdigit; cases hdigit
  rw [parsed, List.takeWhile_eq_self_iff.mpr hall, List.dropWhile_eq_nil_iff.mpr hall]
  rfl

/-- Digits on both sides of a point denote a decimal number. -/
theorem parsed_point {whole fraction : List Char} (h : ∀ d ∈ whole, isDigit d = true) :
    parsed (whole ++ '.' :: fraction) = decimalValue whole fraction := by
  have hall : ∀ d ∈ whole, decide (d ≠ '.') = true := by
    intro d hd
    have hdigit := h d hd
    simpa using fun heq : d = '.' => by rw [heq] at hdigit; cases hdigit
  rw [parsed, List.takeWhile_append_of_pos hall, List.dropWhile_append_of_pos hall]
  simp

/-- What spells a token, by its first character. -/
inductive Starts (c : Char) (cs : List Char) (t : Token) : Prop
  | number (hc : isDigit c = true) (h : IsNumber (c :: cs)) (ht : t = .number (parsed (c :: cs)))
  | word (hc : isNameStart c = true) (hcs : ∀ d ∈ cs, isNamePart d = true)
      (ht : (∃ k : Keyword, k.spelling = String.ofList (c :: cs) ∧ t = .keyword k) ∨
        (∀ k : Keyword, k.spelling ≠ String.ofList (c :: cs)) ∧ t = .name (String.ofList (c :: cs)))
  | text (hc : c = '"') (h : ∃ body, '"' ∉ body ∧ cs = body ++ ['"'] ∧ t = .text (String.ofList body))
  | symbol (hc : Lone c) (h : ∃ s : Symbol, s.spelling.toList = c :: cs ∧ t = .symbol s)

/-- What spells a token is of one of the kinds, by its first character. -/
theorem Spells.starts (h : Spells (c :: cs) t) : Starts c cs t := by
  generalize hpiece : c :: cs = piece at h
  cases h with
  | keyword k =>
    obtain ⟨d, ds, hk, hd, hds⟩ := k.isWord
    have hspelling : k.spelling = String.ofList (c :: cs) := by rw [hpiece, String.ofList_toList]
    obtain ⟨rfl, rfl⟩ := List.cons.inj (hpiece.trans hk)
    exact .word hd hds (.inl ⟨k, hspelling, rfl⟩)
  | symbol s => exact .symbol (Symbol.lone hpiece.symm) ⟨s, hpiece.symm, rfl⟩
  | whole hne h =>
    subst hpiece
    exact .number (h c List.mem_cons_self) (.inl h) (by rw [parsed_digits h])
  | @decimal whole fraction hwne hw hfne hf =>
    obtain ⟨d, ds, rfl⟩ := List.exists_cons_of_ne_nil hwne
    obtain ⟨rfl, -⟩ := List.cons.inj hpiece
    exact .number (hw c List.mem_cons_self) (.inr ⟨_, _, hpiece, hw, hfne, hf⟩)
      (by rw [hpiece, parsed_point hw])
  | text h =>
    obtain ⟨rfl, rfl⟩ := List.cons.inj hpiece
    exact .text rfl ⟨_, h, rfl, rfl⟩
  | name hc hcs hword =>
    obtain ⟨rfl, rfl⟩ := List.cons.inj hpiece
    exact .word hc hcs (.inr ⟨hword, rfl⟩)

/-- No token is spelled by nothing. -/
theorem Spells.ne_nil (h : Spells piece t) : piece ≠ [] := by
  cases h with
  | keyword k => cases k <;> decide
  | symbol s => cases s <;> decide
  | whole hne => exact hne
  | decimal => simp
  | text => simp
  | name => simp

/-- Nothing is not wrong. -/
theorem Wrong.ne_nil {p : Problem} (h : Wrong piece rest p) : piece ≠ [] := by
  cases h <;> exact List.cons_ne_nil _ _

/-- A token that starts with a digit is a number. -/
theorem Spells.of_digit (h : Spells (c :: cs) t) (hc : isDigit c = true) :
    IsNumber (c :: cs) ∧ t = .number (parsed (c :: cs)) := by
  cases h.starts with
  | number _ h ht => exact ⟨h, ht⟩
  | word hname => rw [isDigit_of_isNameStart hname] at hc; cases hc
  | text hquote => subst hquote; cases hc
  | symbol hlone => rw [hlone.2.1] at hc; cases hc

/-- A token that starts as names do is a reserved word or a name. -/
theorem Spells.of_name (h : Spells (c :: cs) t) (hc : isNameStart c = true) :
    (∀ d ∈ cs, isNamePart d = true) ∧
      ((∃ k : Keyword, k.spelling = String.ofList (c :: cs) ∧ t = .keyword k) ∨
        (∀ k : Keyword, k.spelling ≠ String.ofList (c :: cs)) ∧
          t = .name (String.ofList (c :: cs))) := by
  cases h.starts with
  | number hdigit => rw [isDigit_of_isNameStart hc] at hdigit; cases hdigit
  | word _ hcs ht => exact ⟨hcs, ht⟩
  | text hquote => subst hquote; cases hc
  | symbol hlone => rw [hlone.2.2.1] at hc; cases hc

/-- A token that starts with a quote is a string that ends with one. -/
theorem Spells.of_quote (h : Spells ('"' :: cs) t) :
    ∃ body, '"' ∉ body ∧ cs = body ++ ['"'] ∧ t = .text (String.ofList body) := by
  cases h.starts with
  | number hdigit => cases hdigit
  | word hname => cases hname
  | text _ h => exact h
  | symbol hlone => exact absurd rfl hlone.2.2.2

/-- Any other token is a symbol. -/
theorem Spells.of_lone (h : Spells (c :: cs) t) (hc : Lone c) :
    ∃ s : Symbol, s.spelling.toList = c :: cs ∧ t = .symbol s := by
  cases h.starts with
  | number hdigit => rw [hc.2.1] at hdigit; cases hdigit
  | word hname => rw [hc.2.2.1] at hname; cases hname
  | text hquote => exact absurd hquote hc.2.2.2
  | symbol _ h => exact h

/-! ### First pieces -/

/-- A comment opens with a slash. -/
theorem OpensComment.first (h : OpensComment (c :: cs)) : c = '/' := by
  rcases h with h | h <;> exact (List.cons_prefix_cons.mp h).1.symm

/-- A prefix all of whose elements have a property is taken with the others that have it. -/
theorem prefix_takeWhile {p : Char → Bool} {xs ys : List Char} (hp : ∀ x ∈ xs, p x = true)
    (h : xs <+: ys) : xs <+: ys.takeWhile p := by
  obtain ⟨zs, rfl⟩ := h
  rw [List.takeWhile_append_of_pos hp]
  exact List.prefix_append _ _

/-- What is left after dropping starts with what is not dropped. -/
theorem dropWhile_head {p : Char → Bool} (h : cs.dropWhile p = d :: rest) : p d = false := by
  have hne : cs.dropWhile p ≠ [] := by
    rw [h]
    exact List.cons_ne_nil d rest
  simpa only [h, List.head_cons] using List.head_dropWhile_not p hne

/-- A token that a prefix of a text spells starts with the character that the text starts with. -/
theorem Spells.prefix_cons (h : Spells piece t) (hpre : piece <+: c :: cs) :
    ∃ tail, piece = c :: tail ∧ tail <+: cs := by
  obtain ⟨d, tail, rfl⟩ := List.exists_cons_of_ne_nil h.ne_nil
  obtain ⟨rfl, htail⟩ := List.cons_prefix_cons.mp hpre
  exact ⟨tail, rfl, htail⟩

/-- No number that a text starts with is longer than the one that is cut off. -/
theorem IsNumber.length_le (h : IsNumber piece) (hpre : piece <+: cs) :
    piece.length ≤ (cutNumber cs).taken.length := by
  rcases h with h | ⟨whole, fraction, rfl, hw, hfne, hf⟩
  · have hle := (prefix_takeWhile h hpre).length_le
    unfold cutNumber
    split
    · split
      · rw [List.length_append]
        omega
      · exact hle
    · exact hle
  · obtain ⟨rest, rfl⟩ := hpre
    obtain ⟨d, fraction, rfl⟩ := List.exists_cons_of_ne_nil hfne
    have hpoint : isDigit '.' = false := by decide
    have htake : (whole ++ '.' :: d :: fraction ++ rest).takeWhile isDigit = whole := by
      rw [List.append_assoc, List.takeWhile_append_of_pos hw]
      simp [hpoint]
    have hdrop : (whole ++ '.' :: d :: fraction ++ rest).dropWhile isDigit =
        '.' :: d :: (fraction ++ rest) := by
      rw [List.append_assoc, List.dropWhile_append_of_pos hw]
      simp [hpoint]
    have hle := (prefix_takeWhile hf (List.prefix_append (d :: fraction) rest)).length_le
    rw [List.cons_append] at hle
    simp only [cutNumber, htake, hdrop, hf d List.mem_cons_self, if_true, List.length_append,
      List.length_cons] at hle ⊢
    omega

/-- What is cut off as a number is the longest one. -/
theorem cutNumber_sound (hc : isDigit c = true) : (cutNumber (c :: cs)).Sound := by
  have hall : ∀ ds : List Char, ∀ d ∈ ds.takeWhile isDigit, isDigit d = true :=
    fun ds d hd => List.mem_takeWhile_imp hd
  have hwhole : (c :: cs).takeWhile isDigit ≠ [] := by simp [hc]
  have hspells : ∃ n, (cutNumber (c :: cs)).piece = .token (.number n) ∧
      Spells (cutNumber (c :: cs)).taken (.number n) := by
    unfold cutNumber
    split
    · split
      · next d rest heq hd =>
        exact ⟨_, rfl, .decimal hwhole (hall _) (by simp [hd]) (hall _)⟩
      · exact ⟨_, rfl, .whole hwhole (hall _)⟩
    · exact ⟨_, rfl, .whole hwhole (hall _)⟩
  obtain ⟨n, hpiece, hspells⟩ := hspells
  rw [Cut.Sound, hpiece]
  refine ⟨hspells, fun other t h hpre => ?_, fun hopens => ?_⟩
  · rw [cutNumber_append] at hpre
    obtain ⟨tail, rfl, -⟩ := h.prefix_cons hpre
    exact (h.of_digit hc).1.length_le hpre
  · rw [cutNumber_append] at hopens
    rw [hopens.first] at hc
    cases hc

/-- What is cut off as a word is the longest one. -/
theorem cutWord_sound (hc : isNameStart c = true) : (cutWord (c :: cs)).Sound := by
  have hpart : isNamePart c = true := by simp [isNamePart, hc]
  have htaken : (cutWord (c :: cs)).taken = c :: cs.takeWhile isNamePart := by
    simp [cutWord, hpart]
  have hall : ∀ d ∈ cs.takeWhile isNamePart, isNamePart d = true :=
    fun d hd => List.mem_takeWhile_imp hd
  have hspells : ∃ t, (cutWord (c :: cs)).piece = .token t ∧
      Spells (c :: cs.takeWhile isNamePart) t := by
    cases hword : Keyword.ofSpelling? (String.ofList (c :: cs.takeWhile isNamePart)) with
    | some k =>
      have hspelling := congrArg String.toList (Keyword.ofSpelling?_eq_some hword)
      rw [String.toList_ofList] at hspelling
      exact ⟨.keyword k, by rw [cutWord, List.takeWhile_cons_of_pos hpart]; simp only [hword],
        hspelling ▸ .keyword k⟩
    | none =>
      exact ⟨_, by rw [cutWord, List.takeWhile_cons_of_pos hpart]; simp only [hword],
        .name hc hall (Keyword.ofSpelling?_eq_none hword)⟩
  obtain ⟨t, hpiece, hspells⟩ := hspells
  rw [Cut.Sound, hpiece]
  refine ⟨htaken ▸ hspells, fun other u h hpre => ?_, fun hopens => ?_⟩
  · rw [cutWord_append] at hpre
    obtain ⟨tail, rfl, htail⟩ := h.prefix_cons hpre
    rw [htaken, List.length_cons, List.length_cons]
    exact Nat.succ_le_succ (prefix_takeWhile (h.of_name hc).1 htail).length_le
  · rw [cutWord_append] at hopens
    rw [hopens.first] at hc
    cases hc

/-- The body of a string ends at the first quote. -/
theorem takeWhile_quote {body : List Char} (h : '"' ∉ body) (rest : List Char) :
    (body ++ '"' :: rest).takeWhile (· ≠ '"') = body := by
  rw [List.takeWhile_append_of_pos fun d hd => by simpa using fun heq : d = '"' => h (heq ▸ hd)]
  simp

/-- A string is cut off up to its closing quote. -/
theorem cutString_closed {body : List Char} (h : '"' ∉ body) (rest : List Char) :
    cutString (body ++ '"' :: rest) =
      ⟨.token (.text (String.ofList body)), '"' :: (body ++ ['"']), rest⟩ := by
  have hdrop : (body ++ '"' :: rest).dropWhile (· ≠ '"') = '"' :: rest := by
    rw [List.dropWhile_append_of_pos fun d hd => by simpa using fun heq : d = '"' => h (heq ▸ hd)]
    simp
  rw [cutString, takeWhile_quote h, hdrop]

/-- A string without a closing quote is all that is left. -/
theorem cutString_open (h : '"' ∉ cs) :
    cutString cs = ⟨.problem .unterminatedString, '"' :: cs, []⟩ := by
  have hall : ∀ d ∈ cs, decide (d ≠ '"') = true :=
    fun d hd => by simpa using fun heq : d = '"' => h (heq ▸ hd)
  rw [cutString, List.dropWhile_eq_nil_iff.mpr hall, List.takeWhile_eq_self_iff.mpr hall]

/-- The scan for the end of a string finds it, or the string is wrong. -/
theorem cutString_sound : (cutString cs).Sound := by
  by_cases hclosed : '"' ∈ cs
  · obtain ⟨body, rest, rfl, hbody⟩ := List.eq_append_cons_of_mem hclosed
    rw [cutString_closed hbody]
    refine ⟨.text hbody, fun other t h hpre => ?_, fun hopens => ?_⟩
    · obtain ⟨tail, rfl, htail⟩ := h.prefix_cons hpre
      obtain ⟨inner, hinner, rfl, -⟩ := h.of_quote
      obtain ⟨after, hafter⟩ := htail
      have hafter : inner ++ '"' :: after = body ++ '"' :: rest := by simpa using hafter
      have hsame : inner = body := by
        rw [← takeWhile_quote hinner after, hafter, takeWhile_quote hbody]
      rw [hsame]
    · cases hopens.first
  · rw [cutString_open hclosed]
    exact .string hclosed

/-- What is split off a comment ends with its first end. -/
theorem splitComment_first {seen body : List Char} (h : splitComment seen cs = some (body, rest)) :
    ∃ inner, body = seen.reverse ++ (inner ++ ['*', '/']) ∧ cs = inner ++ '*' :: '/' :: rest ∧
      ¬ ['*', '/'] <:+: inner := by
  fun_induction splitComment seen cs with
  | case1 => cases h
  | case2 => cases h
  | case3 seen rest' =>
    simp only [Option.some.injEq, Prod.mk.injEq] at h
    obtain ⟨rfl, rfl⟩ := h
    exact ⟨[], by simp, rfl, by simp⟩
  | case4 seen c d rest' hne ih =>
    obtain ⟨inner, hbody, hcs, hinner⟩ := ih h
    refine ⟨c :: inner, by simp [hbody], by simp [hcs], fun hinfix => ?_⟩
    rcases List.infix_cons_iff.mp hinfix with hpre | hinfix
    · obtain ⟨hc, tail, rfl⟩ := List.cons_prefix_cons.mp hpre
      exact hne hc.symm (List.cons.inj hcs).1
    · exact hinner hinfix

/-- A comment whose end is not found has none. -/
theorem splitComment_none {seen : List Char} (h : splitComment seen cs = none) :
    ¬ ['*', '/'] <:+: cs := by
  fun_induction splitComment seen cs with
  | case1 => simp
  | case2 seen c => exact fun hinfix => by simpa using hinfix.length_le
  | case3 => cases h
  | case4 seen c d rest' hne ih =>
    intro hinfix
    rcases List.infix_cons_iff.mp hinfix with hpre | hinfix
    · obtain ⟨hc, hpre⟩ := List.cons_prefix_cons.mp hpre
      exact hne hc.symm (List.cons_prefix_cons.mp hpre).1.symm
    · exact ih h hinfix

/-- A block comment is cut off up to its first end. -/
theorem cutComment_sound : (cutComment cs).Sound := by
  unfold cutComment
  split
  · next body rest heq =>
    obtain ⟨inner, rfl, -, hinner⟩ := splitComment_first heq
    intro gap after _ hgap
    simpa using Skipped.block hinner hgap
  · next heq => exact .comment (splitComment_none heq)

/-- A symbol that is cut off is the longest one, and a wrong character starts no token. -/
theorem cutSymbol_sound (hc : Lone c)
    (hcomment : c = '/' → ∀ d rest, cs = d :: rest → d ≠ '/' ∧ d ≠ '*') :
    (cutSymbol c cs).Sound := by
  have hopens : ¬ OpensComment (c :: cs) := by
    rintro (⟨rest, h⟩ | ⟨rest, h⟩) <;> obtain ⟨hslash, htail⟩ := List.cons.inj h
    · exact (hcomment hslash.symm '/' rest htail.symm).1 rfl
    · exact (hcomment hslash.symm '*' rest htail.symm).2 rfl
  have hlongest (hpair : ∀ d rest, cs = d :: rest → Symbol.pair? c d = none) (other t)
      (h : Spells other t) (hpre : other <+: c :: cs) :
      other = [c] ∧ ∃ s, Symbol.single? c = some s := by
    obtain ⟨tail, rfl, rest, rfl⟩ := h.prefix_cons hpre
    obtain ⟨s, hs, -⟩ := h.of_lone hc
    rcases s.shape with ⟨e, he, hsingle⟩ | ⟨e, f, he, htwo⟩
    · obtain ⟨rfl, rfl⟩ := List.cons.inj (hs.symm.trans he)
      exact ⟨rfl, s, hsingle⟩
    · obtain ⟨rfl, rfl⟩ := List.cons.inj (hs.symm.trans he)
      rw [hpair f rest rfl] at htwo
      cases htwo
  have halone (hpair : ∀ d rest, cs = d :: rest → Symbol.pair? c d = none) (cut : Cut)
      (hsome : ∀ s, Symbol.single? c = some s → cut = ⟨.token (.symbol s), [c], cs⟩)
      (hnone : Symbol.single? c = none → cut = ⟨.problem (.unexpectedChar c), [c], cs⟩) :
      cut.Sound := by
    cases hsingle : Symbol.single? c with
    | some s =>
      rw [hsome s hsingle]
      refine ⟨Symbol.spelling_single hsingle ▸ .symbol s, fun other t h hpre => ?_, hopens⟩
      rw [(hlongest hpair other t h hpre).1]
    | none =>
      rw [hnone hsingle]
      refine .char hc.1 hc.2.2.2 fun other t h hpre => ?_
      obtain ⟨-, s, hs⟩ := hlongest hpair other t h hpre
      rw [hsingle] at hs
      cases hs
  unfold cutSymbol
  cases cs with
  | nil =>
    exact halone (by simp) _ (fun s hs => by simp only [hs]) fun hnone => by simp only [hnone]
  | cons d rest =>
    cases hpair : Symbol.pair? c d with
    | none =>
      simp only [hpair]
      refine halone (fun e tail htail => ?_) _ (fun s hs => by simp only [hs])
        fun hnone => by simp only [hnone]
      rw [← (List.cons.inj htail).1, hpair]
    | some s =>
      simp only [hpair]
      refine ⟨Symbol.spelling_pair hpair ▸ .symbol s, fun other t h hpre => ?_, hopens⟩
      obtain ⟨tail, rfl, -⟩ := h.prefix_cons hpre
      obtain ⟨u, hu, -⟩ := h.of_lone hc
      rw [← hu]
      rcases u.shape with ⟨e, he, -⟩ | ⟨e, f, he, -⟩ <;> simp [he]

/-- A first piece is what stands between tokens, the longest token, or wrong. -/
theorem cut_sound (c : Char) (cs : List Char) : (cut c cs).Sound := by
  generalize hfirst : cut c cs = first
  have hcuts := hfirst ▸ cuts c cs
  cases hcuts with
  | space hc => exact fun gap after _ hgap => .space hc hgap
  | number hc => exact cutNumber_sound hc
  | word hc => exact cutWord_sound hc
  | string => exact cutString_sound
  | @line cs =>
    intro gap after hrest hgap
    refine Skipped.line (fun hmem => ?_) (fun d rest hd => ?_) hgap
    · simpa using List.mem_takeWhile_imp hmem
    · simpa using dropWhile_head (hrest.trans hd)
  | block => exact cutComment_sound
  | symbol hspace hdigit hname hquote hcomment =>
    exact cutSymbol_sound ⟨hspace, hdigit, hname, hquote⟩ hcomment

/-! ### One token for a text -/

/-- A text spells one token at most. -/
theorem Spells.unique {u : Token} (h : Spells piece t) (h' : Spells piece u) : t = u := by
  obtain ⟨c, cs, rfl⟩ := List.exists_cons_of_ne_nil h.ne_nil
  cases h.starts with
  | number hc _ ht => rw [ht, (h'.of_digit hc).2]
  | word hc _ ht =>
    rcases ht, (h'.of_name hc).2 with
      ⟨⟨k, hk, rfl⟩ | ⟨hnone, rfl⟩, ⟨k', hk', rfl⟩ | ⟨hnone', rfl⟩⟩
    · rw [Keyword.spelling_inj (hk.trans hk'.symm)]
    · exact absurd hk (hnone' k)
    · exact absurd hk' (hnone k')
    · rfl
  | text hc hstring =>
    subst hc
    obtain ⟨body, -, hbody, rfl⟩ := hstring
    obtain ⟨body', -, hbody', rfl⟩ := h'.of_quote
    rw [List.append_cancel_right (hbody.symm.trans hbody')]
  | symbol hc h =>
    obtain ⟨s, hs, rfl⟩ := h
    obtain ⟨s', hs', rfl⟩ := h'.of_lone hc
    rw [Symbol.spelling_inj (hs.trans hs'.symm)]

/-- No token starts with a blank. -/
theorem Spells.not_space (h : Spells (c :: cs) t) : isSpace c = false := by
  cases h.starts with
  | number hc => exact isSpace_of_isDigit hc
  | word hc => exact isSpace_of_isNameStart hc
  | text hc => subst hc; rfl
  | symbol hc => exact hc.1

/-- A number is not skipped. -/
theorem cutNumber_ne_skipped : (cutNumber cs).piece ≠ .skipped := by
  unfold cutNumber
  split
  · split <;> simp
  · simp

/-- A symbol is not skipped. -/
theorem cutSymbol_ne_skipped : (cutSymbol c cs).piece ≠ .skipped := by
  unfold cutSymbol
  cases cs with
  | nil => cases Symbol.single? c <;> simp
  | cons d rest =>
    cases h : Symbol.pair? c d with
    | some s => simp [h]
    | none => cases Symbol.single? c <;> simp [h]

/-- Only blanks and comments are skipped. -/
theorem cut_skipped (h : (cut c cs).piece = .skipped) : isSpace c = true ∨ OpensComment (c :: cs) := by
  generalize hfirst : cut c cs = first at h
  have hcuts := hfirst ▸ cuts c cs
  cases hcuts with
  | space hc => exact .inl hc
  | number => exact absurd h cutNumber_ne_skipped
  | word => cases h
  | string =>
    unfold cutString at h
    split at h <;> cases h
  | line => exact .inr (.inl (List.prefix_append ['/', '/'] _))
  | block => exact .inr (.inr (List.prefix_append ['/', '*'] _))
  | symbol => exact absurd h cutSymbol_ne_skipped

/-- Where a token starts and no comment, nothing is wrong. -/
theorem Spells.not_wrong {taken left : List Char} {p : Problem} (h : Spells piece t)
    (hpre : piece <+: taken ++ left) (hopens : ¬ OpensComment (taken ++ left)) :
    ¬ Wrong taken left p := by
  rintro (hbody | hbody | ⟨-, -, hnone⟩)
  · rw [List.append_nil] at hpre
    obtain ⟨tail, rfl, htail⟩ := h.prefix_cons hpre
    obtain ⟨body, -, rfl, -⟩ := h.of_quote
    have hquote : '"' ∈ body ++ ['"'] := by simp
    exact hbody (htail.subset hquote)
  · exact hopens (.inr (List.prefix_append ['/', '*'] _))
  · exact hnone piece t h hpre

/-- The longest token that a text starts with is cut off, if no comment opens there. -/
theorem Spells.cut_eq (h : Spells piece t) (hlongest : Longest piece rest)
    (hopens : ¬ OpensComment (piece ++ rest)) (htext : piece ++ rest = c :: cs) :
    cut c cs = ⟨.token t, piece, rest⟩ := by
  have hsound := cut_sound c cs
  have happend := cut_append c cs
  have hpre : piece <+: c :: cs := htext ▸ List.prefix_append piece rest
  obtain ⟨tail, rfl, -⟩ := h.prefix_cons hpre
  have htoken : ∃ u, (cut c cs).piece = .token u := by
    cases hpiece : (cut c cs).piece with
    | skipped =>
      rcases cut_skipped hpiece with hspace | hcomment
      · rw [h.not_space] at hspace
        cases hspace
      · exact absurd (htext ▸ hcomment) hopens
    | token u => exact ⟨u, rfl⟩
    | problem p =>
      unfold Cut.Sound at hsound
      simp only [hpiece] at hsound
      rw [← happend] at hpre htext
      exact absurd hsound (h.not_wrong hpre (htext ▸ hopens))
  obtain ⟨u, hu⟩ := htoken
  unfold Cut.Sound at hsound
  simp only [hu] at hsound
  obtain ⟨hspells, hfurthest, -⟩ := hsound
  have hlength : (cut c cs).taken.length = (c :: tail).length :=
    Nat.le_antisymm (hlongest _ u hspells (by rw [htext, ← happend]; exact List.prefix_append _ _))
      (hfurthest _ t h (by rw [happend]; exact hpre))
  obtain ⟨htaken, hrest⟩ := List.append_inj (happend.trans htext.symm) hlength
  rw [htaken] at hspells
  cases hcut : cut c cs with
  | mk p taken left =>
    rw [hcut] at hu htaken hrest
    simp only at hu htaken hrest
    rw [hu, htaken, hrest, hspells.unique h]

end Token

end ScriptMachine
