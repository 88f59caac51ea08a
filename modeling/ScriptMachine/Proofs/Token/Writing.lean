import ScriptMachine.Proofs.Token.Joining
import ScriptMachine.Proofs.Token.Spelling

/-!
# Writing and reading tokens

Tokens that are written with single spaces between them are read back, each at the place where it
was written. A number is written with all its places and no exponent, a string with its body
between quotes, everything else as it is spelled. That the digits of a number read back as the
number is taken as given.
-/

namespace ScriptMachine.Token

open Source

/-- How a token is written. -/
def written : Token → List Char
  | .keyword k => k.spelling.toList
  | .symbol s => s.spelling.toList
  | .number n => (Decimal.positional n).toList
  | .text content => '"' :: (content.toList ++ ['"'])
  | .name spelling => spelling.toList

/-- A token that can be written: a number is finite and has no sign, a string holds no quote, and a
name has the characters of a name and is no reserved word. -/
def Writable : Token → Prop
  | .number n => n.isFinite = true ∧ n.toBits >>> 63 = 0
  | .text content => '"' ∉ content.toList
  | .name spelling => (∃ c cs, spelling.toList = c :: cs ∧ isNameStart c = true ∧
      ∀ d ∈ cs, isNamePart d = true) ∧ ∀ k : Keyword, k.spelling ≠ spelling
  | _ => True

/-- Tokens written one after the other. -/
def writtenAll (tokens : List Token) : List Char := [' '].intercalate (tokens.map written)

/-- Where the tokens stand that are written from a place on. -/
def places (offset line : Nat) : List Token → List Lexeme
  | [] => []
  | t :: ts =>
    ⟨t, ⟨offset, offset + byteLength (written t)⟩, line.toUInt32⟩ ::
      places (offset + byteLength (written t) + 1) (line + (written t).count '\n') ts

variable {t : Token} {x : Float} {d : Decimal.Scaled}

/-! ### Digits -/

/-- A decimal is written in digits. -/
theorem isDigit_of_mem_digits {c : Char} (h : c ∈ d.digits) : isDigit c = true :=
  Nat.isDigit_of_mem_toDigits (by decide) (by decide) h

/-- Zeros are digits. -/
theorem isDigit_of_mem_zeros {c : Char} {n : Nat} (h : c ∈ Decimal.zeros n) : isDigit c = true := by
  rw [List.eq_of_mem_replicate h]
  rfl

/-- All places of a decimal are digits, with a point between two of them or none. -/
theorem spells_scaled (d : Decimal.Scaled) : ∃ n, Spells d.positional.toList (.number n) := by
  have hne : d.digits ≠ [] := Nat.toDigits_ne_nil
  have hlength : 0 < d.digits.length := List.length_pos_iff.mpr hne
  unfold Decimal.Scaled.positional
  rw [String.toList_ofList]
  split
  · refine ⟨_, .whole (by simp [hne]) fun c hc => ?_⟩
    rcases List.mem_append.mp hc with hc | hc
    · exact isDigit_of_mem_digits hc
    · exact isDigit_of_mem_zeros hc
  next hexponent =>
  split
  · next hpoint =>
    refine ⟨_, .decimal (fun hnil => ?_) (fun c hc => isDigit_of_mem_digits (List.mem_of_mem_take hc))
      (fun hnil => ?_) fun c hc => isDigit_of_mem_digits (List.mem_of_mem_drop hc)⟩
    · have := congrArg List.length hnil
      rw [List.length_take, List.length_nil] at this
      omega
    · have := congrArg List.length hnil
      rw [List.length_drop, List.length_nil] at this
      omega
  · refine ⟨_, @Spells.decimal ['0'] _ (by simp) (List.all_eq_true.mp rfl) (by simp [hne]) fun c hc => ?_⟩
    rcases List.mem_append.mp hc with hc | hc
    · exact isDigit_of_mem_zeros hc
    · exact isDigit_of_mem_digits hc

/-- A finite number is a number. -/
theorem not_isNaN_of_isFinite (h : x.isFinite = true) : x.isNaN = false := by
  change x.toModel.unpack.isFinite = true at h
  change x.toModel.unpack.isNaN = false
  cases hx : x.toModel.unpack with
  | notANumber =>
    rw [hx] at h
    cases h
  | _ => rfl

/-- A finite number is not infinite. -/
theorem not_isInf_of_isFinite (h : x.isFinite = true) : x.isInf = false := by
  change x.toModel.unpack.isFinite = true at h
  change x.toModel.unpack.isInf = false
  cases hx : x.toModel.unpack with
  | infinity =>
    rw [hx] at h
    cases h
  | _ => rfl

/-- A number without a sign is written as digits. -/
theorem spells_positional (h : (Token.number x).Writable) :
    ∃ n, Spells (Decimal.positional x).toList (.number n) := by
  have hsigned (s : String) : Decimal.signed x s = s := by
    rw [Decimal.signed, h.2]
    rfl
  unfold Decimal.positional
  simp only [not_isNaN_of_isFinite h.1, not_isInf_of_isFinite h.1, hsigned, Bool.false_eq_true,
    if_false]
  split
  · exact ⟨_, @Spells.whole ['0'] (by simp) (List.all_eq_true.mp rfl)⟩
  · exact spells_scaled _

/-- A number is written as digits that denote a number. -/
theorem parsed_spells {piece : List Char} {n : Float} (h : Spells piece (.number n)) :
    parsed piece = n := by
  cases h with
  | whole _ h => exact parsed_digits h
  | decimal _ hw => exact parsed_point hw

/-- A token that can be written is spelled as it is written, if its digits denote the number. -/
theorem written_spells (h : t.Writable)
    (hparsed : ∀ x, t = .number x → parsed (Decimal.positional x).toList = x) :
    Spells (written t) t := by
  cases t with
  | keyword k => exact .keyword k
  | symbol s => exact .symbol s
  | number x =>
    obtain ⟨n, hn⟩ := spells_positional h
    have : n = x := by rw [← parsed_spells hn, hparsed x rfl]
    exact this ▸ hn
  | text content =>
    have hcontent := Spells.text h
    rwa [String.ofList_toList] at hcontent
  | name spelling =>
    obtain ⟨⟨c, cs, hspelling, hc, hcs⟩, hword⟩ := h
    have hname : spelling = String.ofList (c :: cs) := by rw [← hspelling, String.ofList_toList]
    rw [written, hspelling, hname]
    exact .name hc hcs (hname ▸ hword)

/-! ### Seams -/

/-- Only a string holds a space. -/
theorem Spells.no_blank {c : Char} {cs : List Char} (h : Spells (c :: cs) t) :
    c = '"' ∨ ' ' ∉ c :: cs := by
  have hdigit (digits : List Char) (h : ∀ d ∈ digits, isDigit d = true) : ' ' ∉ digits :=
    fun hmem => absurd (h ' ' hmem) (by decide)
  cases h.starts with
  | number hc h =>
    rcases h with h | ⟨whole, fraction, hpiece, hw, -, hf⟩
    · exact .inr (hdigit _ h)
    · rw [hpiece]
      simp [hdigit _ hw, hdigit _ hf]
  | word hc hcs =>
    refine .inr fun hmem => ?_
    rcases List.mem_cons.mp hmem with rfl | hmem
    · cases hc
    · exact absurd (hcs ' ' hmem) (by decide)
  | text hc => exact .inl hc
  | symbol hc h =>
    obtain ⟨s, hs, -⟩ := h
    rw [← hs]
    exact .inr (by cases s <;> decide)

section

variable {piece rest : List Char} (hrest : ∀ c cs, rest = c :: cs → c = ' ')

include hrest

/-- A space or the end stops every token. -/
theorem Spells.longest (h : Spells piece t) : Longest piece rest := by
  intro other u hother hpre
  by_contra hlonger
  obtain ⟨left, rfl⟩ := List.prefix_of_prefix_length_le (List.prefix_append piece rest) hpre
    (by omega)
  obtain ⟨c, cs, rfl⟩ := List.exists_cons_of_ne_nil h.ne_nil
  cases left with
  | nil => simp at hlonger
  | cons d left =>
    obtain rfl : d = ' ' := by
      obtain ⟨after, hafter⟩ := hpre
      rw [List.append_assoc] at hafter
      exact hrest _ _ (List.append_cancel_left hafter).symm
    rcases hother.no_blank with rfl | hblank
    · -- a string goes to its first quote, so two that start at one place are one
      obtain ⟨body, hbody, rfl, -⟩ := h.of_quote
      obtain ⟨body', hbody', heq, -⟩ := hother.of_quote
      have heq : body ++ '"' :: ' ' :: left = body' ++ '"' :: [] := by simpa using heq
      obtain rfl : body = body' := by
        rw [← takeWhile_quote hbody (' ' :: left), heq, takeWhile_quote hbody']
      simp at heq
    · exact hblank (by simp)

/-- No token opens a comment. -/
theorem Spells.not_opens (h : Spells piece t) : ¬ OpensComment (piece ++ rest) := by
  intro hopens
  obtain ⟨c, cs, rfl⟩ := List.exists_cons_of_ne_nil h.ne_nil
  obtain rfl := hopens.first
  obtain ⟨s, hs, -⟩ := h.of_lone ⟨rfl, rfl, rfl, by decide⟩
  have hsecond : ∃ d tail, cs ++ rest = d :: tail ∧ (d = '/' ∨ d = '*') := by
    rcases hopens with ⟨tail, htail⟩ | ⟨tail, htail⟩
    · exact ⟨'/', tail, (List.cons.inj htail).2.symm, .inl rfl⟩
    · exact ⟨'*', tail, (List.cons.inj htail).2.symm, .inr rfl⟩
  obtain ⟨d, tail, htail, hd⟩ := hsecond
  rcases s.shape with ⟨e, he, -⟩ | ⟨e, f, he, hpair⟩
  · obtain ⟨rfl, rfl⟩ := List.cons.inj (hs.symm.trans he)
    rw [hrest d tail htail] at hd
    revert hd
    decide
  · obtain ⟨rfl, rfl⟩ := List.cons.inj (hs.symm.trans he)
    obtain ⟨rfl, -⟩ := List.cons.inj htail
    rcases hd with rfl | rfl <;> cases hpair

end

/-! ### Lists of tokens -/

/-- Tokens are written with blanks between them. -/
theorem writtenAll_cons (t : Token) (ts : List Token) :
    writtenAll (t :: ts) = written t ++ if ts = [] then [] else ' ' :: writtenAll ts := by
  cases ts with
  | nil => simp [writtenAll]
  | cons u ts => simp [writtenAll, List.intercalate_cons_cons]

/-- Written tokens are read one after the other. -/
theorem readFrom_writtenAll (tokens : List Token) (h : ∀ t ∈ tokens, Spells (written t) t)
    (offset line : Nat) (done : Reading) : readFrom offset line done (writtenAll tokens) =
      ⟨done.tokens ++ (places offset line tokens).toArray, done.problems⟩ := by
  induction tokens generalizing offset line done with
  | nil =>
    rw [writtenAll, List.map_nil, List.intercalate_nil, readFrom_nil]
    simp [places]
  | cons t ts ih =>
    have hspells := h t List.mem_cons_self
    have hrest : ∀ c cs, (if ts = [] then [] else ' ' :: writtenAll ts) = c :: cs → c = ' ' := by
      intro c cs hcs
      split at hcs
      · cases hcs
      · exact (List.cons.inj hcs).1.symm
    obtain ⟨c, cs, hcs⟩ := List.exists_cons_of_ne_nil (List.append_ne_nil_of_left_ne_nil hspells.ne_nil
      (if ts = [] then [] else ' ' :: writtenAll ts))
    have hcut := hspells.cut_eq (hspells.longest hrest) (hspells.not_opens hrest) hcs
    rw [writtenAll_cons, hcs, readFrom_cons, hcut]
    split
    · next hnil =>
      subst hnil
      simp [readFrom_nil, Reading.add, places]
    · rw [readFrom_cons, show cut ' ' (writtenAll ts) = ⟨.skipped, [' '], writtenAll ts⟩ from rfl]
      rw [ih (fun u hu => h u (List.mem_cons_of_mem t hu))]
      simp [Reading.add, places, show (' ' : Char).utf8Size = 1 from rfl]

/-- Tokens that are written with single spaces between them are read back where they stand. -/
theorem read_written (tokens : List Token) (h : ∀ t ∈ tokens, t.Writable)
    (hparsed : ∀ x, Token.number x ∈ tokens → parsed (Decimal.positional x).toList = x) :
    read (String.ofList (writtenAll tokens)) = ⟨(places 0 1 tokens).toArray, #[]⟩ := by
  have hspells : ∀ t ∈ tokens, Spells (written t) t :=
    fun t ht => written_spells (h t ht) fun x hx => hparsed x (hx ▸ ht)
  rw [read, String.toList_ofList, readFrom_writtenAll tokens hspells]
  simp

/-- Signs that touch nothing, a decimal and a string with a comment and a newline are read back. -/
theorem spaced_tokens_read_back :
    read "x_1 / = 0.1 \"// \n\" print" = ⟨(places 0 1 [.name "x_1", .symbol .slash, .symbol .assign,
      .number 0.1, .text "// \n", .keyword .print_]).toArray, #[]⟩ := by
  have hwritten := read_written [.name "x_1", .symbol .slash, .symbol .assign, .number 0.1,
    .text "// \n", .keyword .print_] ?_ ?_
  · rwa [show String.ofList (writtenAll [.name "x_1", .symbol .slash, .symbol .assign, .number 0.1,
      .text "// \n", .keyword .print_]) = "x_1 / = 0.1 \"// \n\" print" by decide +kernel] at hwritten
  · intro t ht
    simp only [List.mem_cons, List.not_mem_nil, or_false] at ht
    rcases ht with rfl | rfl | rfl | rfl | rfl | rfl
    · exact ⟨⟨'x', ['_', '1'], rfl, rfl, List.all_eq_true.mp rfl⟩, fun k => by cases k <;> decide⟩
    · trivial
    · trivial
    · exact ⟨by decide +kernel, by decide +kernel⟩
    · show '"' ∉ "// \n".toList
      decide
    · trivial
  · intro x hx
    obtain rfl : x = 0.1 := by simpa using hx
    decide +kernel

end ScriptMachine.Token
