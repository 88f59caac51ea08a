import Mathlib.Data.List.Forall2
import Mathlib.Data.Nat.Digits.Defs
import ScriptMachine.Text.Json

/-!
# Reading JSON

A reader of JSON text that knows nothing of how text is written here: blanks may stand between
tokens, strings may hold every escape, also pairs of surrogates, and numbers may have a sign, a
fraction and an exponent. What is written here reads as what it was written for.
-/

namespace ScriptMachine.Text.Json

/-- A value of JSON; a number is a whole number times a power of ten. -/
inductive Tree
  | null
  | bool (b : Bool)
  | number (mantissa exponent : Int)
  | string (s : String)
  | array (items : List Tree)
  | object (fields : List (String × Tree))

/-! ### The reader -/

/-- The blanks that may stand between tokens. -/
def isBlank (c : Char) : Bool := c = ' ' || c = '\t' || c = '\n' || c = '\r'

/-- What is left behind blanks. -/
def skip (cs : List Char) : List Char := cs.dropWhile isBlank

/-- The value of a hexadecimal digit. -/
def hexValue? (c : Char) : Option Nat :=
  if '0' ≤ c ∧ c ≤ '9' then some (c.toNat - '0'.toNat)
  else if 'a' ≤ c ∧ c ≤ 'f' then some (c.toNat - 'a'.toNat + 10)
  else if 'A' ≤ c ∧ c ≤ 'F' then some (c.toNat - 'A'.toNat + 10)
  else none

/-- Four hexadecimal digits. -/
def codeUnit? : List Char → Option (Nat × List Char)
  | a :: b :: c :: d :: cs => do
    let a ← hexValue? a
    let b ← hexValue? b
    let c ← hexValue? c
    let d ← hexValue? d
    pure (((a * 16 + b) * 16 + c) * 16 + d, cs)
  | _ => none

/-- The second half of a character that is written as a pair of surrogates. -/
def lowSurrogate? : List Char → Option (Nat × List Char)
  | '\\' :: 'u' :: cs => do
    let (low, cs) ← codeUnit? cs
    if 0xDC00 ≤ low ∧ low ≤ 0xDFFF then pure (low - 0xDC00, cs) else none
  | _ => none

/-- What stands behind a backslash in a string. -/
def escaped? : List Char → Option (Char × List Char)
  | '"' :: cs => some ('"', cs)
  | '\\' :: cs => some ('\\', cs)
  | '/' :: cs => some ('/', cs)
  | 'b' :: cs => some ('\x08', cs)
  | 'f' :: cs => some ('\x0c', cs)
  | 'n' :: cs => some ('\n', cs)
  | 'r' :: cs => some ('\r', cs)
  | 't' :: cs => some ('\t', cs)
  | 'u' :: cs => do
    let (high, cs) ← codeUnit? cs
    if 0xD800 ≤ high ∧ high ≤ 0xDBFF then
      let (low, cs) ← lowSurrogate? cs
      pure (Char.ofNat (0x10000 + (high - 0xD800) * 0x400 + low), cs)
    else if 0xDC00 ≤ high ∧ high ≤ 0xDFFF then none
    else pure (Char.ofNat high, cs)
  | _ => none

/-- The characters of a string behind its first quote. Control characters have to be escaped. -/
def text? : Nat → List Char → Option (List Char × List Char)
  | 0, _ | _, [] => none
  | _ + 1, '"' :: cs => some ([], cs)
  | n + 1, '\\' :: cs => do
    let (c, cs) ← escaped? cs
    let (s, cs) ← text? n cs
    pure (c :: s, cs)
  | n + 1, c :: cs =>
    if c.toNat < 0x20 then none
    else do
      let (s, cs) ← text? n cs
      pure (c :: s, cs)

/-- One digit or more. -/
def digits? (cs : List Char) : Option (List Char × List Char) :=
  if cs.takeWhile Char.isDigit = [] then none
  else some (cs.takeWhile Char.isDigit, cs.dropWhile Char.isDigit)

/-- The digits of a fraction, if there is one. -/
def fraction? : List Char → Option (List Char × List Char)
  | '.' :: cs => digits? cs
  | cs => some ([], cs)

/-- A sign, which may be left out. -/
def sign : List Char → Int × List Char
  | '-' :: cs => (-1, cs)
  | '+' :: cs => (1, cs)
  | cs => (1, cs)

/-- An exponent, if there is one. -/
def exponent? : List Char → Option (Int × List Char)
  | 'e' :: cs | 'E' :: cs => do
    let (ds, rest) ← digits? (sign cs).2
    pure ((sign cs).1 * Nat.ofDigitChars 10 ds 0, rest)
  | cs => some (0, cs)

/-- A number; it has no plus sign, and no zero in front of another digit. -/
def number? (cs : List Char) : Option (Tree × List Char) :=
  if cs.head? = some '+' then none
  else do
    let (whole, rest) ← digits? (sign cs).2
    if whole.head? = some '0' ∧ whole ≠ ['0'] then none
    else do
      let (part, rest) ← fraction? rest
      let (e, rest) ← exponent? rest
      pure (.number ((sign cs).1 * Nat.ofDigitChars 10 (whole ++ part) 0) (e - part.length), rest)

mutual

/-- A value behind blanks. -/
def value? : Nat → List Char → Option (Tree × List Char)
  | 0, _ => none
  | n + 1, cs =>
    match skip cs with
    | '"' :: cs => (text? n cs).map fun (s, cs) => (.string (String.ofList s), cs)
    | '[' :: cs =>
      match skip cs with
      | ']' :: cs => some (.array [], cs)
      | cs => (items? n cs).map fun (items, cs) => (.array items, cs)
    | '\x7b' :: cs =>
      match skip cs with
      | '\x7d' :: cs => some (.object [], cs)
      | cs => (fields? n cs).map fun (fields, cs) => (.object fields, cs)
    | 't' :: 'r' :: 'u' :: 'e' :: cs => some (.bool true, cs)
    | 'f' :: 'a' :: 'l' :: 's' :: 'e' :: cs => some (.bool false, cs)
    | 'n' :: 'u' :: 'l' :: 'l' :: cs => some (.null, cs)
    | cs => number? cs

/-- The values of an array up to its end. -/
def items? : Nat → List Char → Option (List Tree × List Char)
  | 0, _ => none
  | n + 1, cs => do
    let (t, cs) ← value? n cs
    match skip cs with
    | ',' :: cs =>
      let (ts, cs) ← items? n cs
      pure (t :: ts, cs)
    | ']' :: cs => pure ([t], cs)
    | _ => none

/-- The fields of an object up to its end. -/
def fields? : Nat → List Char → Option (List (String × Tree) × List Char)
  | 0, _ => none
  | n + 1, cs =>
    match skip cs with
    | '"' :: cs => do
      let (name, cs) ← text? n cs
      match skip cs with
      | ':' :: cs =>
        let (t, cs) ← value? n cs
        match skip cs with
        | ',' :: cs =>
          let (fields, cs) ← fields? n cs
          pure ((String.ofList name, t) :: fields, cs)
        | '\x7d' :: cs => pure ([(String.ofList name, t)], cs)
        | _ => none
      | _ => none
    | _ => none

end

/-- The value that a whole text is. -/
def parse (s : String) : Option Tree :=
  match value? (s.toList.length + 1) s.toList with
  | some (t, cs) => if skip cs = [] then some t else none
  | none => none

/-! ### Strings -/

variable {c : Char} {cs rest text : List Char} {n : Nat}

/-- A hexadecimal digit has its value. -/
theorem hexValue?_hexDigit : ∀ n < 16, hexValue? (hexDigit n) = some n := by decide

/-- The two digits of a control character give its code. -/
theorem codeUnit?_control (h : c.toNat < 32) (cs : List Char) :
    codeUnit? ('0' :: '0' :: hexDigit (c.toNat / 16) :: hexDigit c.toNat :: cs) =
      some (c.toNat, cs) := by
  have hzero : hexValue? '0' = some 0 := by decide
  have hmod : hexDigit c.toNat = hexDigit (c.toNat % 16) := by rw [hexDigit, hexDigit, Nat.mod_mod]
  have hcode : ((0 * 16 + 0) * 16 + c.toNat / 16) * 16 + c.toNat % 16 = c.toNat := by omega
  rw [codeUnit?, hzero, hmod, hexValue?_hexDigit _ (by omega), hexValue?_hexDigit _ (by omega)]
  show some (_, cs) = _
  rw [hcode]

/-- A control character is read back from its escape. -/
theorem escaped?_control (h : c.toNat < 32) (cs : List Char) :
    escaped? ('u' :: '0' :: '0' :: hexDigit (c.toNat / 16) :: hexDigit c.toNat :: cs) =
      some (c, cs) := by
  rw [escaped?, codeUnit?_control h]
  show (if 0xD800 ≤ c.toNat ∧ c.toNat ≤ 0xDBFF then _ else _) = _
  rw [if_neg (by omega), if_neg (by omega), Char.ofNat_toNat]
  rfl

/-- A character reads as itself, however it is written. -/
theorem text?_escape (n : Nat) (c : Char) (cs : List Char) :
    text? (n + 1) (escape c ++ cs) = (text? n cs).map fun p => (c :: p.1, p.2) := by
  have hrest (r : Option (List Char × List Char)) :
      (do let (s, cs) ← r; pure (c :: s, cs)) = r.map fun p => (c :: p.1, p.2) := by
    cases r <;> rfl
  unfold escape
  split_ifs with hquote hslash hb hf hn hr ht hcontrol
  · subst hquote
    exact hrest _
  · subst hslash
    exact hrest _
  · subst hb
    exact hrest _
  · subst hf
    exact hrest _
  · subst hn
    exact hrest _
  · subst hr
    exact hrest _
  · subst ht
    exact hrest _
  · simp only [List.cons_append, List.nil_append, text?, escaped?_control hcontrol]
    exact hrest _
  · rw [List.singleton_append, text?, if_neg hcontrol]
    · exact hrest _
    · exact hquote
    · exact hslash

/-- A string reads as its characters. -/
theorem text?_string (s : List Char) (rest : List Char) (h : s.length < n) :
    text? n (s.flatMap escape ++ '"' :: rest) = some (s, rest) := by
  induction s generalizing n with
  | nil =>
    obtain ⟨n, rfl⟩ := Nat.exists_eq_succ_of_ne_zero (Nat.ne_of_gt h)
    rfl
  | cons c s ih =>
    obtain ⟨n, rfl⟩ := Nat.exists_eq_succ_of_ne_zero (Nat.ne_of_gt (Nat.zero_lt_of_lt h))
    rw [List.flatMap_cons, List.append_assoc, text?_escape, ih (Nat.lt_of_succ_lt_succ h)]
    rfl

/-- No control character is left in a string. -/
theorem le_of_mem_escape {c d : Char} (h : d ∈ escape c) : 32 ≤ d.toNat := by
  have hletter {e : Char} (he : 32 ≤ e.toNat) (h : d ∈ ['\\', e]) : 32 ≤ d.toNat := by
    rcases List.mem_pair.mp h with rfl | rfl
    · decide
    · exact he
  have hdigit : ∀ n < 16, 32 ≤ (Nat.digitChar n).toNat := by decide
  unfold escape at h
  split_ifs at h with hquote hslash hb hf hn hr ht hcontrol
  any_goals exact hletter (by decide) h
  · simp only [List.mem_cons, List.not_mem_nil, or_false] at h
    rcases h with rfl | rfl | rfl | rfl | rfl | rfl
    any_goals decide
    · exact hdigit _ (Nat.mod_lt _ (by decide))
    · exact hdigit _ (Nat.mod_lt _ (by decide))
  · rw [List.mem_singleton.mp h]
    omega

/-! ### What a text spells -/

/-- What may stand behind a value in an array or an object. -/
def Ends (rest : List Char) : Prop := ∀ c ∈ rest.head?, c = ',' ∨ c = ']' ∨ c = '\x7d'

/-- A text has no control characters and reads as a value, whatever may stand behind it. -/
structure Spells (text : List Char) (t : Tree) : Prop where
  starts : ∀ rest, ∃ c cs, text ++ rest = c :: cs ∧ isBlank c = false ∧ c ≠ ']'
  plain : ∀ c ∈ text, 32 ≤ c.toNat
  reads : ∀ n rest, text.length ≤ n → Ends rest →
    value? (n + 1) (text ++ rest) = some (t, rest)

/-- A whole text that spells a value is parsed as it. -/
theorem Spells.parse {s : String} {t : Tree} (h : Spells s.toList t) : parse s = some t := by
  have hread := h.reads s.toList.length [] (Nat.le_refl _) (by simp [Ends])
  rw [List.append_nil] at hread
  rw [Json.parse, hread]
  rfl

/-- A string is its escaped characters between quotes. -/
theorem string_toList (s : String) :
    (string s).toList = '"' :: (s.toList.flatMap escape ++ ['"']) := by
  rw [string, String.toList_ofList, List.cons_append]

/-- No character is escaped to nothing. -/
theorem length_le_escape (s : List Char) : s.length ≤ (s.flatMap escape).length := by
  induction s with
  | nil => exact Nat.le_refl _
  | cons c s ih =>
    have hone : 1 ≤ (escape c).length := by
      unfold escape
      split_ifs <;> simp
    rw [List.flatMap_cons, List.length_append, List.length_cons]
    omega

/-- The text of a string is read back. -/
theorem spells_string (s : String) : Spells (string s).toList (.string s) where
  starts rest := ⟨_, _, by rw [string_toList, List.cons_append], by decide, by decide⟩
  plain c hc := by
    rw [string_toList, List.mem_cons, List.mem_append, List.mem_singleton, List.mem_flatMap] at hc
    rcases hc with rfl | ⟨d, -, hc⟩ | rfl
    · decide
    · exact le_of_mem_escape hc
    · decide
  reads n rest hn _ := by
    have hlength := length_le_escape s.toList
    rw [string_toList, List.length_cons, List.length_append] at hn
    rw [string_toList, List.cons_append, List.append_assoc, value?]
    show Option.map _ (text? n (_ ++ '"' :: rest)) = _
    rw [text?_string _ _ (by omega)]
    simp

/-- The text of a truth value is read back. -/
theorem spells_bool (b : Bool) : Spells (bool b).toList (.bool b) where
  starts rest := by cases b <;> exact ⟨_, _, rfl, by decide, by decide⟩
  plain := by cases b <;> simp [bool]
  reads n rest _ _ := by cases b <;> rfl

/-! ### Numbers -/

/-- A number is written in digits. -/
theorem isDigit_toDigits {m : Nat} : ∀ c ∈ Nat.toDigits 10 m, c.isDigit = true :=
  fun _ => Nat.isDigit_of_mem_toDigits (by decide) (by decide)

/-- A number other than zero is written without a zero in front. -/
theorem head?_toDigits {m : Nat} (h : 0 < m) : (Nat.toDigits 10 m).head? ≠ some '0' := by
  induction m using Nat.strong_induction_on with
  | _ m ih =>
    rw [Nat.toDigits_eq_if (by decide)]
    split
    · next hlt =>
      have hne : ∀ m < 10, 0 < m → Nat.digitChar m ≠ '0' := by decide
      rw [List.head?_singleton, Ne, Option.some.injEq]
      exact hne m hlt h
    · next hge =>
      rw [List.head?_append_of_ne_nil _ Nat.toDigits_ne_nil]
      exact ih (m / 10) (by omega) (by omega)

/-- Digits end where no digit follows. -/
theorem digits?_append {ds : List Char} (hds : ∀ c ∈ ds, c.isDigit = true) (hne : ds ≠ [])
    (hrest : ∀ c ∈ rest.head?, c.isDigit = false) : digits? (ds ++ rest) = some (ds, rest) := by
  have hnone : rest.takeWhile Char.isDigit = [] ∧ rest.dropWhile Char.isDigit = rest := by
    cases rest with
    | nil => exact ⟨rfl, rfl⟩
    | cons c rest =>
      have hc := hrest c rfl
      exact ⟨List.takeWhile_cons_of_neg (by simp [hc]), List.dropWhile_cons_of_neg (by simp [hc])⟩
  rw [digits?, List.takeWhile_append_of_pos hds, List.dropWhile_append_of_pos hds, hnone.1, hnone.2,
    List.append_nil, if_neg hne]


/-- What may stand behind a value continues no number. -/
theorem Ends.number (h : Ends rest) : (∀ c ∈ rest.head?, c.isDigit = false) ∧
    fraction? rest = some ([], rest) ∧ exponent? rest = some (0, rest) := by
  cases rest with
  | nil => exact ⟨nofun, rfl, rfl⟩
  | cons c rest =>
    rcases h c rfl with rfl | rfl | rfl
    all_goals exact ⟨by rintro _ ⟨⟩; decide, rfl, rfl⟩

/-- What starts with a digit has no sign. -/
theorem sign_digit (h : c.isDigit = true) : sign (c :: cs) = (1, c :: cs) := by
  unfold sign
  split
  · next heq => cases heq; cases h
  · next heq => cases heq; cases h
  · rfl

/-- Digits are read back as their number. -/
theorem number?_toDigits {m : Nat} (h : Ends rest) :
    number? (Nat.toDigits 10 m ++ rest) = some (.number m 0, rest) := by
  obtain ⟨hdigit, hfraction, hexponent⟩ := h.number
  obtain ⟨c, ds, hds⟩ := List.exists_cons_of_ne_nil (Nat.toDigits_ne_nil (n := m) (b := 10))
  have hc : c.isDigit = true := isDigit_toDigits (m := m) c (by simp [hds])
  have hsign : sign (Nat.toDigits 10 m ++ rest) = (1, Nat.toDigits 10 m ++ rest) := by
    rw [hds, List.cons_append, sign_digit hc]
  have hplus : (Nat.toDigits 10 m ++ rest).head? ≠ some '+' := by
    rw [hds, List.cons_append, List.head?_cons, Ne, Option.some.injEq]
    rintro rfl
    cases hc
  have hzero : ¬((Nat.toDigits 10 m).head? = some '0' ∧ Nat.toDigits 10 m ≠ ['0']) := by
    rintro ⟨hhead, hne⟩
    rcases Nat.eq_zero_or_pos m with rfl | hpos
    · exact hne rfl
    · exact head?_toDigits hpos hhead
  rw [number?, if_neg hplus, hsign, digits?_append isDigit_toDigits Nat.toDigits_ne_nil hdigit]
  show (if _ then _ else _) = _
  rw [if_neg hzero, hfraction]
  show (do let (e, rest) ← exponent? rest; _) = _
  rw [hexponent, List.append_nil, Nat.ofDigitChars_ten_toDigits]
  simp

/-- A digit is no blank. -/
theorem isBlank_digit (h : c.isDigit = true) : isBlank c = false := by
  refine Bool.eq_false_iff.mpr fun hblank => ?_
  simp only [isBlank, Bool.or_eq_true, decide_eq_true_eq] at hblank
  rcases hblank with ((rfl | rfl) | rfl) | rfl <;> cases h

/-- Nothing is skipped before what is no blank. -/
theorem skip_cons (h : isBlank c = false) : skip (c :: cs) = c :: cs :=
  List.dropWhile_cons_of_neg (by simp [h])

/-- What starts with a digit is a number. -/
theorem value?_digit (h : c.isDigit = true) (n : Nat) (cs : List Char) :
    value? (n + 1) (c :: cs) = number? (c :: cs) := by
  rw [value?, skip_cons (isBlank_digit h)]
  split
  any_goals rfl
  all_goals next heq => cases heq; cases h

/-- The text of a number is read back. -/
theorem spells_nat (m : Nat) : Spells (toString m).toList (.number m 0) := by
  have htext : (toString m).toList = Nat.toDigits 10 m := Nat.toList_repr
  obtain ⟨c, ds, hds⟩ := List.exists_cons_of_ne_nil (Nat.toDigits_ne_nil (n := m) (b := 10))
  have hc : c.isDigit = true := isDigit_toDigits (m := m) c (by simp [hds])
  rw [htext]
  refine ⟨fun rest => ⟨c, ds ++ rest, by rw [hds, List.cons_append], isBlank_digit hc, ?_⟩,
    fun d hd => ?_, fun n rest _ hrest => ?_⟩
  · rintro rfl
    cases hc
  · have hd := isDigit_toDigits (m := m) d hd
    simp only [Char.isDigit, Bool.and_eq_true, decide_eq_true_eq] at hd
    exact Nat.le_trans (by decide) (UInt32.le_iff_toNat_le.mp hd.1)
  · rw [← number?_toDigits hrest, hds, List.cons_append, value?_digit hc]

/-! ### Arrays and objects -/

/-- A value ends before what may follow it. -/
theorem ends_cons (h : c = ',' ∨ c = ']' ∨ c = '\x7d') : Ends (c :: rest) := by
  rintro _ ⟨⟩
  exact h

/-- Values with commas between them are read up to the end of the array. -/
theorem items?_spells {texts : List (List Char)} {ts : List Tree} (h : List.Forall₂ Spells texts ts)
    (hne : texts ≠ []) (hn : ([','].intercalate texts).length + 2 ≤ n) (rest : List Char) :
    items? n ([','].intercalate texts ++ ']' :: rest) = some (ts, rest) := by
  induction h generalizing n with
  | nil => exact (hne rfl).elim
  | @cons text t texts ts hfirst htail ih =>
    cases htail with
    | nil =>
      obtain ⟨n, rfl⟩ : ∃ m, n = m + 2 := ⟨n - 2, by omega⟩
      rw [List.intercalate_singleton] at hn ⊢
      rw [items?, hfirst.reads n _ (by omega) (ends_cons (.inr (.inl rfl)))]
      rfl
    | @cons text' t' texts ts hsecond htail =>
      obtain ⟨n, rfl⟩ : ∃ m, n = m + 2 := ⟨n - 2, by omega⟩
      rw [List.intercalate_cons_cons, List.length_append, List.length_append] at hn
      rw [List.intercalate_cons_cons, List.append_assoc, List.append_assoc, List.singleton_append,
        items?, hfirst.reads n _ (by omega) (ends_cons (.inl rfl))]
      show (do let (ts, cs) ← items? (n + 1) _; pure (t :: ts, cs)) = _
      rw [ih (List.cons_ne_nil _ _) (by simp at hn ⊢; omega)]
      rfl

/-- Commas between texts without control characters make none. -/
theorem plain_intercalate {α : Type} {R : List Char → α → Prop} {texts : List (List Char)}
    {ts : List α} (h : List.Forall₂ R texts ts)
    (hR : ∀ {text t}, R text t → ∀ c ∈ text, 32 ≤ c.toNat) :
    ∀ c ∈ [','].intercalate texts, 32 ≤ c.toNat := by
  induction h with
  | nil => nofun
  | cons hfirst htail ih =>
    cases htail with
    | nil => exact List.intercalate_singleton ▸ hR hfirst
    | cons =>
      rw [List.intercalate_cons_cons, List.forall_mem_append, List.forall_mem_append]
      exact ⟨⟨hR hfirst, by simp⟩, ih⟩

/-- An array starts with its first value. -/
theorem value?_array (hc : isBlank c = false) (hend : c ≠ ']') (n : Nat) (cs : List Char) :
    value? (n + 1) ('[' :: c :: cs) =
      (items? n (c :: cs)).map fun (items, cs) => (.array items, cs) := by
  rw [value?, skip_cons (by decide)]
  show (match skip (c :: cs) with | ']' :: cs => _ | cs => _) = _
  rw [skip_cons hc]
  split
  · next heq => exact (hend (List.head_eq_of_cons_eq heq)).elim
  · rfl

/-- An array is its items, with commas between, in brackets. -/
theorem array_toList (items : List String) :
    (array items).toList = '[' :: ([','].intercalate (items.map String.toList) ++ [']']) := by
  rw [array, String.toList_append, String.toList_append, String.toList_intercalate]
  rfl

/-- Written values between brackets are an array. -/
theorem spells_array {items : List String} {ts : List Tree}
    (h : List.Forall₂ (fun s t => Spells s.toList t) items ts) :
    Spells (array items).toList (.array ts) := by
  have htexts : List.Forall₂ Spells (items.map String.toList) ts := List.forall₂_map_left_iff.mpr h
  rw [array_toList]
  generalize items.map String.toList = texts at htexts
  refine ⟨fun rest => ⟨_, _, List.cons_append, by decide, by decide⟩, ?_, fun n rest hn _ => ?_⟩
  · rw [List.forall_mem_cons, List.forall_mem_append]
    exact ⟨by simp, plain_intercalate htexts fun h => h.plain, by simp⟩
  · rw [List.length_cons, List.length_append, List.length_singleton] at hn
    rw [List.cons_append, List.append_assoc, List.singleton_append]
    cases htexts with
    | nil => rfl
    | @cons text t texts ts hfirst htail =>
      have hread := items?_spells (.cons hfirst htail) (List.cons_ne_nil _ _) hn rest
      obtain ⟨c, cs, hcs, hc, hend⟩ : ∃ c cs, [','].intercalate (text :: texts) ++ ']' :: rest =
          c :: cs ∧ isBlank c = false ∧ c ≠ ']' := by
        cases texts with
        | nil =>
          rw [List.intercalate_singleton]
          exact hfirst.starts _
        | cons text' texts =>
          rw [List.intercalate_cons_cons, List.append_assoc, List.append_assoc]
          exact hfirst.starts _
      rw [hcs] at hread ⊢
      rw [value?_array hc hend, hread]
      rfl

/-- A written field. -/
def fieldText (name : String) (text : List Char) : List Char := (string name).toList ++ ':' :: text

/-- A text is a field with a value that is spelled. -/
def SpellsField (field : List Char) (g : String × Tree) : Prop :=
  ∃ text, field = fieldText g.1 text ∧ Spells text g.2

/-- A field has no control character. -/
theorem SpellsField.plain {field : List Char} {g : String × Tree} (h : SpellsField field g) :
    ∀ c ∈ field, 32 ≤ c.toNat := by
  obtain ⟨text, rfl, hspells⟩ := h
  rw [fieldText, List.forall_mem_append, List.forall_mem_cons]
  exact ⟨(spells_string g.1).plain, by decide, hspells.plain⟩

/-- A field is read up to the comma or the brace behind it. -/
theorem fields?_field {field : List Char} {g : String × Tree} (h : SpellsField field g)
    (hrest : Ends rest) (hn : field.length ≤ n) : fields? (n + 2) (field ++ rest) =
      (match skip rest with
        | ',' :: cs => do
          let (fields, cs) ← fields? (n + 1) cs
          pure (g :: fields, cs)
        | '\x7d' :: cs => pure ([g], cs)
        | _ => none) := by
  obtain ⟨text, rfl, hspells⟩ := h
  have hlength := length_le_escape g.1.toList
  rw [fieldText, string_toList, List.length_append, List.length_cons, List.length_append,
    List.length_cons, List.length_cons] at hn
  have hname : text? (n + 1) (g.1.toList.flatMap escape ++ '"' :: (':' :: (text ++ rest))) =
      some (g.1.toList, ':' :: (text ++ rest)) := text?_string _ _ (by omega)
  have hvalue : value? (n + 1) (text ++ rest) = some (g.2, rest) :=
    hspells.reads n rest (by omega) hrest
  rw [fieldText, string_toList, List.cons_append, List.cons_append, List.append_assoc,
    List.append_assoc, fields?, skip_cons (by decide)]
  show (do let (name, cs) ← text? (n + 1) (_ ++ '"' :: (':' :: (text ++ rest))); _) = _
  rw [hname]
  show (do let (t, cs) ← value? (n + 1) (text ++ rest); _) = _
  rw [hvalue, String.ofList_toList]
  rfl

/-- Fields with commas between them are read up to the end of the object. -/
theorem fields?_spells {fields : List (List Char)} {ts : List (String × Tree)}
    (h : List.Forall₂ SpellsField fields ts) (hne : fields ≠ [])
    (hn : ([','].intercalate fields).length + 2 ≤ n) (rest : List Char) :
    fields? n ([','].intercalate fields ++ '\x7d' :: rest) = some (ts, rest) := by
  induction h generalizing n with
  | nil => exact (hne rfl).elim
  | @cons field g fields ts hfirst htail ih =>
    obtain ⟨n, rfl⟩ : ∃ m, n = m + 2 := ⟨n - 2, by omega⟩
    cases htail with
    | nil =>
      rw [List.intercalate_singleton] at hn ⊢
      rw [fields?_field hfirst (ends_cons (.inr (.inr rfl))) (by omega)]
      rfl
    | cons hsecond htail =>
      rw [List.intercalate_cons_cons, List.length_append, List.length_append] at hn
      rw [List.intercalate_cons_cons, List.append_assoc, List.append_assoc, List.singleton_append,
        fields?_field hfirst (ends_cons (.inl rfl)) (by omega)]
      show (do let (fields, cs) ← fields? (n + 1) _; pure (g :: fields, cs)) = _
      rw [ih (List.cons_ne_nil _ _) (by simp at hn ⊢; omega)]
      rfl

/-- An object is its fields, with commas between, in braces. -/
theorem object_toList (fields : List (String × String)) : (object fields).toList =
    '\x7b' :: ([','].intercalate (fields.map fun f => fieldText f.1 f.2.toList) ++ ['\x7d']) := by
  rw [object, String.toList_append, String.toList_append, String.toList_intercalate, List.map_map]
  have hfield : (String.toList ∘ fun f : String × String => string f.1 ++ ":" ++ f.2) =
      fun f => fieldText f.1 f.2.toList := by
    funext f
    show (string f.1 ++ ":" ++ f.2).toList = _
    rw [String.toList_append, String.toList_append, List.append_assoc]
    rfl
  rw [hfield]
  rfl

/-- Written fields between braces are an object. -/
theorem spells_object {fields : List (String × String)} {ts : List (String × Tree)}
    (h : List.Forall₂ (fun f g => f.1 = g.1 ∧ Spells f.2.toList g.2) fields ts) :
    Spells (object fields).toList (.object ts) := by
  have hfields : List.Forall₂ SpellsField (fields.map fun f => fieldText f.1 f.2.toList) ts :=
    List.forall₂_map_left_iff.mpr (h.imp fun f g hfg => ⟨_, congrArg (fieldText · _) hfg.1, hfg.2⟩)
  rw [object_toList]
  generalize fields.map (fun f => fieldText f.1 f.2.toList) = texts at hfields
  refine ⟨fun rest => ⟨_, _, List.cons_append, by decide, by decide⟩, ?_, fun n rest hn _ => ?_⟩
  · rw [List.forall_mem_cons, List.forall_mem_append]
    exact ⟨by simp, plain_intercalate hfields fun h => h.plain, by simp⟩
  · rw [List.length_cons, List.length_append, List.length_singleton] at hn
    rw [List.cons_append, List.append_assoc, List.singleton_append]
    cases hfields with
    | nil => rfl
    | @cons field g texts ts hfirst htail =>
      have hread := fields?_spells (.cons hfirst htail) (List.cons_ne_nil _ _) hn rest
      obtain ⟨cs, hcs⟩ : ∃ cs, [','].intercalate (field :: texts) ++ '\x7d' :: rest = '"' :: cs := by
        obtain ⟨text, rfl, -⟩ := hfirst
        rw [fieldText, string_toList]
        cases texts with
        | nil =>
          rw [List.intercalate_singleton]
          exact ⟨_, rfl⟩
        | cons text' texts =>
          rw [List.intercalate_cons_cons]
          exact ⟨_, rfl⟩
      rw [hcs] at hread ⊢
      rw [value?, skip_cons (by decide)]
      show (fields? n ('"' :: cs)).map _ = _
      rw [hread]
      rfl

end ScriptMachine.Text.Json
