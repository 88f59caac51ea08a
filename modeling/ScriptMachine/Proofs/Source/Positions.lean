import Mathlib.Algebra.Group.Nat.Defs
import Mathlib.Data.List.DropRight
import Mathlib.Data.Prod.Lex
import Mathlib.Data.Set.Function
import Mathlib.Order.Interval.Set.Basic
import ScriptMachine.Proofs.Token.Places

/-!
# Positions in a source

The lines of a source are what its newline bytes say. The line of a byte offset is one more than
the number of newline bytes before it, the column counts the bytes behind the last of them, and the
text of a line is a piece of the source between newlines. Offsets inside a character count like any
other: the encoding of a character other than the newline holds no newline byte. The number of a line
has 32 bits, so a line has it as long as fewer than 2^32 lines start before its end.
-/

namespace ScriptMachine.Source

/-- The bytes that encode a text. -/
def encoding (source : String) : List UInt8 := source.toByteArray.data.toList

/-- The byte that encodes a newline. -/
def newline : UInt8 := 10

/-- The bytes behind the last newline. -/
def lastLine (bytes : List UInt8) : List UInt8 := bytes.rtakeWhile (· ≠ newline)

/-- A piece of a source without the line ends at its end. -/
def withoutEnds (piece : List Char) : List Char := piece.rdropWhile fun c => c = '\r' || c = '\n'

/-- The number of newlines before an offset. -/
def newlinesBefore (source : String) (offset : ℕ) : ℕ :=
  ((encoding source).take offset).count newline

/-- An offset of a source whose line has a number of 32 bits. -/
structure Numbered (source : String) (offset : ℕ) : Prop where
  inside : offset ≤ (encoding source).length
  fits : 1 + newlinesBefore source offset < 2 ^ 32

/-- Before a numbered offset all are. -/
theorem Numbered.of_le {source : String} {before offset : ℕ} (h : Numbered source offset)
    (hle : before ≤ offset) : Numbered source before := by
  refine ⟨hle.trans h.inside, lt_of_le_of_lt (Nat.add_le_add_left ?_ 1) h.fits⟩
  exact (List.take_sublist_take_left hle).count_le newline

/-- Lines that agree with the newlines of a source. -/
structure Lines.Exact (source : String) (m : Lines) : Prop where
  line : ∀ offset, Numbered source offset →
    (m.lineOf offset).toNat = 1 + newlinesBefore source offset
  column : ∀ offset, Numbered source offset → m.lookup offset =
    some ((m.lineOf offset).toNat, (lastLine ((encoding source).take offset)).length + 1)
  /-- The start that a column is counted from is that of a line, and not past the offset. -/
  start : ∀ offset, Numbered source offset →
    ∃ l, m.lines[(m.lineOf offset).toNat - 1]? = some l ∧ l.start ≤ offset
  increasing : ∀ offset, Numbered source offset → ∀ before < offset, ∃ p q,
    m.lookup before = some p ∧ m.lookup offset = some q ∧ Prod.Lex (· < ·) (· < ·) p q
  injective : Set.InjOn m.lookup {offset | Numbered source offset}
  /-- A source below 4 GiB has one offset at most that is not numbered: the end of a source of
  newlines alone, and of as many as there can be. -/
  numbered : (encoding source).length < 2 ^ 32 → ∀ offset ≤ (encoding source).length,
    Numbered source offset ∨
      encoding source = List.replicate (2 ^ 32 - 1) newline ∧ offset = 2 ^ 32 - 1
  count : m.count = 1 + (encoding source).count newline
  text : ∀ i < m.count, ∃ piece, (source.toList.splitOn '\n')[i]? = some piece ∧
    m.text (i + 1) = String.ofList (withoutEnds piece)
  outside : ∀ l, l = 0 ∨ m.count < l → m.text l = ""

variable {bytes bytes' : List UInt8} {cs : List Char} {c : Char}

/-! ### Bytes -/

/-- The bytes that encode a list of characters. -/
def encodingOf (cs : List Char) : List UInt8 := cs.flatMap String.utf8EncodeChar

/-- The bytes of a source are those of its characters. -/
theorem encoding_eq (source : String) : encoding source = encodingOf source.toList := by
  have h : (String.ofList source.toList).toByteArray = source.toList.utf8Encode :=
    String.toByteArray_ofList
  rw [String.ofList_toList] at h
  rw [encoding, h, List.utf8Encode, encodingOf, List.data_toByteArray]

/-- No character has no byte. -/
@[simp] theorem encodingOf_nil : encodingOf [] = [] := rfl

/-- The bytes of a text start with those of its first character. -/
@[simp] theorem encodingOf_cons :
    encodingOf (c :: cs) = String.utf8EncodeChar c ++ encodingOf cs := rfl

/-- A text has as many bytes as its length in bytes says. -/
@[simp] theorem length_encodingOf (cs : List Char) : (encodingOf cs).length = byteLength cs := by
  induction cs with
  | nil => rfl
  | cons c cs ih => simp [ih]

/-- A line break is one byte. -/
theorem encode_newline : String.utf8EncodeChar '\n' = [newline] := rfl

/-- No other character is encoded with a newline byte. -/
theorem newline_not_mem_encode (hc : c ≠ '\n') : newline ∉ String.utf8EncodeChar c := by
  have hvalue : c.val.toNat ≠ 10 := fun h => hc (Char.ext (UInt32.toNat_inj.mp h))
  have hbyte (n : ℕ) : newline = UInt8.ofNat n ↔ n % 256 = 10 := by
    rw [← UInt8.toNat_inj, UInt8.toNat_ofNat', eq_comm]
    rfl
  unfold String.utf8EncodeChar
  intro hmem
  simp only at hmem
  split at hmem
  · simp only [List.mem_singleton, hbyte] at hmem
    omega
  split at hmem
  · simp only [List.mem_cons, List.not_mem_nil, hbyte, or_false] at hmem
    omega
  split at hmem
  · simp only [List.mem_cons, List.not_mem_nil, hbyte, or_false] at hmem
    omega
  · simp only [List.mem_cons, List.not_mem_nil, hbyte, or_false] at hmem
    omega

/-- Bytes and characters have as many line breaks. -/
theorem count_encodingOf (cs : List Char) : (encodingOf cs).count newline = cs.count '\n' := by
  induction cs with
  | nil => rfl
  | cons c cs ih =>
    rw [encodingOf_cons, List.count_append, ih]
    by_cases hc : c = '\n'
    · subst hc
      rw [encode_newline, List.count_singleton_self, List.count_cons_self, Nat.add_comm]
    · rw [List.count_eq_zero_of_not_mem (newline_not_mem_encode hc), List.count_cons_of_ne hc,
        Nat.zero_add]

/-- Without a line break everything is the last line. -/
theorem lastLine_eq_self (h : newline ∉ bytes) : lastLine bytes = bytes := by
  refine List.rtakeWhile_eq_self_iff.mpr fun b hb => ?_
  simpa using fun heq : b = newline => h (heq ▸ hb)

/-- What stands before a line break is not of the last line. -/
theorem lastLine_cons_append (bytes bytes' : List UInt8) :
    lastLine (bytes ++ newline :: bytes') = lastLine bytes' := by
  unfold lastLine List.rtakeWhile
  rw [List.reverse_append, List.reverse_cons, List.append_assoc, List.singleton_append,
    List.takeWhile_append]
  split
  · next h =>
    rw [List.takeWhile_cons_of_neg (by simp), List.append_nil,
      List.IsPrefix.eq_of_length (List.takeWhile_prefix _) h]
  · rfl

/-- What stands behind the last newline grows with the text, as long as no newline follows. -/
theorem lastLine_append (h : newline ∉ bytes') :
    lastLine (bytes ++ bytes') = lastLine bytes ++ bytes' := by
  unfold lastLine List.rtakeWhile
  rw [List.reverse_append, List.takeWhile_append_of_pos, List.reverse_append, List.reverse_reverse]
  intro b hb
  simpa using fun heq : b = newline => h (heq ▸ List.mem_reverse.mp hb)

/-- Inside a character no newline byte is met. -/
theorem newline_not_mem_take {n : ℕ} (h : n < c.utf8Size) :
    newline ∉ (String.utf8EncodeChar c).take n := by
  by_cases hc : c = '\n'
  · subst hc
    have hsize : ('\n' : Char).utf8Size = 1 := rfl
    obtain rfl : n = 0 := by omega
    simp
  · exact fun hmem => newline_not_mem_encode hc (List.mem_of_mem_take hmem)

/-- The first bytes are of the first character. -/
theorem take_encodingOf_of_le {n : ℕ} (h : n ≤ c.utf8Size) :
    (encodingOf (c :: cs)).take n = (String.utf8EncodeChar c).take n := by
  rw [encodingOf_cons, List.take_append_of_le_length (by simpa using h)]

/-- Behind the first character stand the bytes of the others. -/
theorem take_encodingOf_add (n : ℕ) :
    (encodingOf (c :: cs)).take (c.utf8Size + n) =
      String.utf8EncodeChar c ++ (encodingOf cs).take n := by
  rw [encodingOf_cons, ← String.length_utf8EncodeChar c, List.take_length_add_append]

namespace Lines

/-! ### Lines and columns -/

/-- Up to an offset as many lines start as there are newline bytes before it, and one more. -/
theorem upTo_cutLines_take {start offset limit : ℕ} (text : List Char) (done : Array Line)
    (hstart : start ≤ offset) (hlow : offset ≤ limit) (hhigh : limit ≤ offset + byteLength cs) :
    upTo limit (cutLines start offset text done cs) =
      upTo limit done + 1 + ((encodingOf cs).take (limit - offset)).count newline := by
  induction cs generalizing start offset text done with
  | nil => simp [cutLines, upTo_push, hstart.trans hlow]
  | cons c cs ih =>
    rw [byteLength_cons, ← Nat.add_assoc] at hhigh
    rw [cutLines]
    rcases Nat.lt_or_ge limit (offset + c.utf8Size) with hinside | hbehind
    · rw [take_encodingOf_of_le (by omega),
        List.count_eq_zero_of_not_mem (newline_not_mem_take (by omega))]
      split
      · rw [upTo_cutLines_of_lt hinside, upTo_push, if_pos (hstart.trans hlow),
          if_neg (Nat.not_le.mpr hinside)]
      · rw [upTo_cutLines_of_lt hinside, if_pos (hstart.trans hlow)]
    · have htake : limit - offset = c.utf8Size + (limit - (offset + c.utf8Size)) := by omega
      rw [htake, take_encodingOf_add, List.count_append]
      split
      · next hc =>
        rw [ih _ _ le_rfl hbehind hhigh, upTo_push, if_pos (hstart.trans hlow), hc, encode_newline,
          List.count_singleton_self]
        omega
      · next hc =>
        rw [ih _ _ (by omega) hbehind hhigh,
          List.count_eq_zero_of_not_mem (newline_not_mem_encode hc), Nat.zero_add]

/-- The lines found stay as they are. -/
theorem getElem?_cutLines_of_lt {start offset i : ℕ} {text : List Char} {done : Array Line}
    (hi : i < done.size) : (cutLines start offset text done cs)[i]? = done[i]? := by
  induction cs generalizing start offset text done with
  | nil => rw [cutLines, Array.getElem?_push_lt hi, Array.getElem?_eq_getElem hi]
  | cons c cs ih =>
    rw [cutLines]
    split
    · rw [ih (by rw [Array.size_push]; omega), Array.getElem?_push_lt hi,
        Array.getElem?_eq_getElem hi]
    · rw [ih hi]

/-- The line that is being read keeps its start. -/
theorem start_cutLines (cs : List Char) (start offset : ℕ) (text : List Char) (done : Array Line) :
    ((cutLines start offset text done cs)[done.size]?).map Line.start = some start := by
  induction cs generalizing offset text with
  | nil => rw [cutLines, Array.getElem?_push_size]; rfl
  | cons c cs ih =>
    rw [cutLines]
    split
    · rw [getElem?_cutLines_of_lt (by rw [Array.size_push]; omega), Array.getElem?_push_size]
      rfl
    · exact ih _ _

/-- An offset before which the current line has no newline lies in that line, which starts as many
bytes before it as were passed. -/
theorem start_cutLines_here {start offset limit : ℕ} (text : List Char) (done : Array Line)
    {read : List UInt8} (hread : newline ∉ read) (hstart : start + read.length = offset)
    (hlow : offset ≤ limit) (hhigh : limit ≤ offset + byteLength cs)
    (hnone : newline ∉ (encodingOf cs).take (limit - offset)) :
    ∃ l, (cutLines start offset text done cs)[done.size +
        ((encodingOf cs).take (limit - offset)).count newline]? = some l ∧
      l.start + (lastLine (read ++ (encodingOf cs).take (limit - offset))).length = limit := by
  obtain ⟨l, hl, hlstart⟩ := Option.map_eq_some_iff.mp
    (start_cutLines cs start offset text done)
  refine ⟨l, by rwa [List.count_eq_zero_of_not_mem hnone], ?_⟩
  rw [lastLine_eq_self (by simp [hread, hnone]), List.length_append, List.length_take,
    length_encodingOf, hlstart]
  omega

/-- The line of an offset starts as many bytes before it as there are behind the last newline;
`read` are the bytes of the current line that are passed already. -/
theorem start_cutLines_take {start offset limit : ℕ} (text : List Char) (done : Array Line)
    {read : List UInt8} (hread : newline ∉ read) (hstart : start + read.length = offset)
    (hlow : offset ≤ limit) (hhigh : limit ≤ offset + byteLength cs) :
    ∃ l, (cutLines start offset text done cs)[done.size +
        ((encodingOf cs).take (limit - offset)).count newline]? = some l ∧
      l.start + (lastLine (read ++ (encodingOf cs).take (limit - offset))).length = limit := by
  induction cs generalizing start offset text done read with
  | nil => exact start_cutLines_here text done hread hstart hlow hhigh (by simp)
  | cons c cs ih =>
    rcases Nat.lt_or_ge limit (offset + c.utf8Size) with hinside | hbehind
    · refine start_cutLines_here text done hread hstart hlow hhigh ?_
      rw [take_encodingOf_of_le (by omega)]
      exact newline_not_mem_take (by omega)
    · rw [byteLength_cons, ← Nat.add_assoc] at hhigh
      have htake : limit - offset = c.utf8Size + (limit - (offset + c.utf8Size)) := by omega
      rw [htake, take_encodingOf_add, List.count_append, cutLines]
      split
      · next hc =>
        obtain ⟨l, hl, hlength⟩ := ih [] (done.push ⟨start, text.reverse⟩)
          (List.not_mem_nil : newline ∉ []) (Nat.add_zero (offset + c.utf8Size)) hbehind hhigh
        rw [hc] at hl hlength ⊢
        rw [Array.size_push, Nat.add_assoc] at hl
        refine ⟨l, ?_, ?_⟩
        · rwa [encode_newline, List.count_singleton_self]
        · rwa [encode_newline, List.singleton_append, lastLine_cons_append]
      · next hc =>
        have hencode := newline_not_mem_encode hc
        have hnone : newline ∉ read ++ String.utf8EncodeChar c := by simp [hread, hencode]
        have hnext : start + (read ++ String.utf8EncodeChar c).length = offset + c.utf8Size := by
          simp
          omega
        obtain ⟨l, hl, hlength⟩ := ih (c :: text) done hnone hnext hbehind hhigh
        refine ⟨l, ?_, ?_⟩
        · rwa [List.count_eq_zero_of_not_mem hencode, Nat.zero_add]
        · rwa [List.append_assoc] at hlength

/-! ### Pieces -/

/-- The texts of the lines that are cut off are the pieces between newlines. -/
theorem map_text_cutLines (cs : List Char) (start offset : ℕ) (text : List Char)
    (done : Array Line) : (cutLines start offset text done cs).toList.map Line.text =
      done.toList.map Line.text ++ List.splitOnPPrepend (· == '\n') cs text := by
  induction cs generalizing start offset text done with
  | nil => simp [cutLines]
  | cons c cs ih =>
    rw [cutLines, List.splitOnPPrepend_cons_eq_if]
    split
    · next hc => simp [ih, hc]
    · next hc => simp [ih, hc]

/-- A text has one piece more than line breaks. -/
theorem length_splitOnPPrepend (cs text : List Char) :
    (List.splitOnPPrepend (· == '\n') cs text).length = 1 + cs.count '\n' := by
  induction cs generalizing text with
  | nil => rfl
  | cons c cs ih =>
    rw [List.splitOnPPrepend_cons_eq_if]
    by_cases hc : c = '\n'
    · rw [if_pos (by simpa using hc), List.length_cons, ← List.splitOnPPrepend_nil_right, ih, hc,
        List.count_cons_self, Nat.add_assoc]
    · rw [if_neg (by simpa using hc), ih, List.count_cons_of_ne hc]

/-- No piece has a line break. -/
theorem newline_not_mem_splitOnPPrepend {cs text piece : List Char} (htext : '\n' ∉ text)
    (h : piece ∈ List.splitOnPPrepend (· == '\n') cs text) : '\n' ∉ piece := by
  induction cs generalizing text with
  | nil =>
    obtain rfl : piece = text.reverse := by simpa using h
    simpa using htext
  | cons c cs ih =>
    rw [List.splitOnPPrepend_cons_eq_if] at h
    split at h
    · rcases List.mem_cons.mp h with rfl | h
      · simpa using htext
      · exact ih (by simp) h
    · next hc =>
      have hne : c ≠ '\n' := by simpa using hc
      exact ih (by simp [htext, hne.symm]) h

/-- Where there is no line break, only carriage returns are dropped. -/
theorem dropWhile_ends {cs : List Char} (h : '\n' ∉ cs) :
    cs.dropWhile (fun c => c = '\r' || c = '\n') = cs.dropWhile (· = '\r') := by
  induction cs with
  | nil => rfl
  | cons c cs ih =>
    obtain ⟨hc, hcs⟩ := not_or.mp (List.mem_cons.not.mp h)
    simp [List.dropWhile_cons, ih hcs, Ne.symm hc]

/-- A piece has no newline to drop at its end. -/
theorem withoutEnds_eq {piece : List Char} (h : '\n' ∉ piece) :
    withoutEnds piece = (piece.reverse.dropWhile (· = '\r')).reverse := by
  rw [withoutEnds, List.rdropWhile, dropWhile_ends (by simpa using h)]

/-! ### The map of a source -/

variable {source : String} {offset before : ℕ}

/-- A source has as many bytes as its length in bytes says. -/
theorem length_encoding (source : String) : (encoding source).length = byteLength source.toList := by
  rw [encoding_eq, length_encodingOf]

/-- Up to an offset one line starts more than there are newlines before it. -/
theorem upTo_eq (h : offset ≤ (encoding source).length) :
    upTo offset (ofText source).lines = 1 + newlinesBefore source offset := by
  rw [length_encoding] at h
  have hupTo : upTo offset (cutLines 0 0 [] #[] source.toList) = _ :=
    upTo_cutLines_take [] #[] le_rfl (Nat.zero_le _) (by omega)
  rw [ofText, hupTo, newlinesBefore, encoding_eq, Nat.sub_zero]
  simp [upTo]

/-- The number of a line is that of the newlines before it, cut off. -/
theorem lineOf_eq (h : offset ≤ (encoding source).length) :
    (ofText source).lineOf offset = (1 + newlinesBefore source offset).toUInt32 := by
  rw [lineOf, upTo_eq h, Nat.max_eq_right (Nat.le_add_right 1 _)]

/-- Where the line has a number, nothing is cut off. -/
theorem toNat_lineOf (h : Numbered source offset) :
    ((ofText source).lineOf offset).toNat = 1 + newlinesBefore source offset := by
  rw [lineOf_eq h.inside]
  exact UInt32.toNat_ofNat_of_lt h.fits

/-- The line of an offset starts where its last newline says. -/
theorem exists_line (h : Numbered source offset) :
    ∃ l, (ofText source).lines[newlinesBefore source offset]? = some l ∧
      l.start + (lastLine ((encoding source).take offset)).length = offset := by
  have hinside := h.inside
  rw [length_encoding] at hinside
  have hnone : newline ∉ ([] : List UInt8) := List.not_mem_nil
  have hhigh : offset ≤ 0 + byteLength source.toList := by omega
  have hline := start_cutLines_take [] #[] hnone rfl (Nat.zero_le offset) hhigh
  simpa [newlinesBefore, encoding_eq, ofText] using hline

/-- The line and the column of a numbered offset. -/
theorem lookup_eq (h : Numbered source offset) : (ofText source).lookup offset =
    some (1 + newlinesBefore source offset,
      (lastLine ((encoding source).take offset)).length + 1) := by
  obtain ⟨l, hl, hstart⟩ := exists_line h
  rw [lookup, toNat_lineOf h, Nat.add_comm 1]
  dsimp only
  rw [hl, Option.map_some]
  congr 3
  omega

/-- A later offset is on a later line, or further behind on the same line. -/
theorem lookup_lt (h : Numbered source offset) (hlt : before < offset) :
    ∃ p q, (ofText source).lookup before = some p ∧ (ofText source).lookup offset = some q ∧
      Prod.Lex (· < ·) (· < ·) p q := by
  have hsplit : (encoding source).take offset =
      (encoding source).take before ++ ((encoding source).drop before).take (offset - before) := by
    rw [← List.take_add, Nat.add_sub_cancel' hlt.le]
  refine ⟨_, _, lookup_eq (h.of_le hlt.le), lookup_eq h, ?_⟩
  have hinside := h.inside
  rw [newlinesBefore, newlinesBefore, hsplit, List.count_append]
  by_cases hnone : newline ∈ ((encoding source).drop before).take (offset - before)
  · have hcount := List.count_pos_iff.mpr hnone
    exact Prod.Lex.left _ _ (by omega)
  · rw [List.count_eq_zero_of_not_mem hnone, lastLine_append hnone, List.length_append,
      List.length_take, List.length_drop]
    exact Prod.Lex.right _ (by omega)

/-- No two numbered offsets have the same line and column. -/
theorem lookup_injOn (source : String) :
    Set.InjOn (ofText source).lookup {offset | Numbered source offset} := by
  have hne {a b : ℕ} (hb : Numbered source b) (hab : a < b) :
      (ofText source).lookup a ≠ (ofText source).lookup b := by
    obtain ⟨p, q, hp, hq, hlex⟩ := lookup_lt hb hab
    intro heq
    obtain rfl := Option.some.inj (hp.symm.trans (heq.trans hq))
    rw [Prod.lex_def] at hlex
    omega
  intro a ha b hb heq
  rcases Nat.lt_trichotomy a b with hab | hab | hab
  · exact absurd heq (hne hb hab)
  · exact hab
  · exact absurd heq.symm (hne ha hab)

/-- As many newlines as bytes can be are needed for a line without a number. -/
theorem numbered_or (hlength : (encoding source).length < 2 ^ 32)
    (h : offset ≤ (encoding source).length) : Numbered source offset ∨
      encoding source = List.replicate (2 ^ 32 - 1) newline ∧ offset = 2 ^ 32 - 1 := by
  rcases Nat.lt_or_ge (1 + newlinesBefore source offset) (2 ^ 32) with hfits | hmany
  · exact .inl ⟨h, hfits⟩
  · have htake : newlinesBefore source offset ≤ ((encoding source).take offset).length :=
      List.count_le_length
    rw [List.length_take] at htake
    obtain rfl : offset = (encoding source).length := by omega
    have hall : (encoding source).count newline = (encoding source).length := by
      rw [newlinesBefore, List.take_length] at hmany
      exact le_antisymm List.count_le_length (by omega)
    have hsize : (encoding source).length = 2 ^ 32 - 1 := by
      rw [newlinesBefore, List.take_length] at hmany
      omega
    refine .inr ⟨List.eq_replicate_iff.mpr ⟨hsize, fun b hb => ?_⟩, hsize⟩
    exact (List.count_eq_length.mp hall b hb).symm

/-- The texts of the lines are the pieces between line breaks. -/
theorem map_text_ofText (source : String) :
    (ofText source).lines.toList.map Line.text = source.toList.splitOn '\n' := by
  rw [ofText, map_text_cutLines]
  rfl

/-- There is one line more than line breaks. -/
theorem count_eq (source : String) : (ofText source).count = 1 + (encoding source).count newline := by
  rw [count, ← Array.length_toList, ← List.length_map Line.text, map_text_ofText, encoding_eq,
    count_encodingOf]
  exact length_splitOnPPrepend source.toList []

/-- All offsets are numbered in a source whose lines all have numbers. -/
theorem numbered_of_count (hcount : (ofText source).count < 2 ^ 32)
    (h : offset ≤ (encoding source).length) : Numbered source offset := by
  rw [count_eq] at hcount
  have hbefore : newlinesBefore source offset ≤ (encoding source).count newline :=
    (List.take_sublist _ _).count_le newline
  exact ⟨h, by omega⟩

/-- Where all lines have numbers, the lines of tokens are counted from 1. -/
theorem one_le_of_stands {span : Span} {line : UInt32} {piece : List Char}
    (hcount : (ofText source).count < 2 ^ 32) (h : Stands source.toList span line piece) :
    1 ≤ line := by
  have hinside : span.start ≤ (encoding source).length := by
    rw [length_encoding]
    obtain ⟨before, after, hsource, hstart, -⟩ := h.place
    rw [hstart, hsource, byteLength_append, byteLength_append]
    omega
  rw [h.line_eq, UInt32.le_iff_toNat_le, toNat_lineOf (numbered_of_count hcount hinside)]
  exact Nat.le_add_right 1 _

/-- Lines that all have numbers have all offsets, those behind the end on the last line. -/
theorem exists_lookup (hcount : (ofText source).count < 2 ^ 32) (offset : ℕ) :
    ∃ line column, (ofText source).lookup offset = some (line, column) := by
  have hupTo (lines : List Line) (n : ℕ) :
      lines.foldl (fun n line => if line.start ≤ offset then n + 1 else n) n ≤ n + lines.length := by
    induction lines generalizing n with
    | nil => exact Nat.le_refl n
    | cons line lines ih =>
      rw [List.foldl_cons, List.length_cons]
      split
      · exact (ih _).trans (by omega)
      · exact (ih _).trans (by omega)
  have hle : upTo offset (ofText source).lines ≤ (ofText source).count := by
    have hall := hupTo (ofText source).lines.toList 0
    rwa [Array.foldl_toList, Nat.zero_add, Array.length_toList] at hall
  have hpos : 1 ≤ (ofText source).count := (count_eq source).symm ▸ Nat.le_add_right 1 _
  obtain ⟨index, hindex⟩ : ∃ index, max 1 (upTo offset (ofText source).lines) = index + 1 :=
    Nat.exists_eq_add_of_le' (Nat.le_max_left 1 _)
  have hline : ((ofText source).lineOf offset).toNat = index + 1 := by
    rw [lineOf, hindex]
    exact UInt32.toNat_ofNat_of_lt (by rw [UInt32.size]; omega)
  have hinside : index < (ofText source).lines.size := by
    rw [count] at hle hpos
    omega
  refine ⟨index + 1, offset - (ofText source).lines[index].start + 1, ?_⟩
  rw [lookup, hline]
  dsimp only
  rw [Array.getElem?_eq_getElem hinside, Option.map_some]

/-- The text of a line is its piece without the carriage returns at its end. -/
theorem text_eq {i : ℕ} (h : i < (ofText source).count) :
    ∃ piece, (source.toList.splitOn '\n')[i]? = some piece ∧
      (ofText source).text (i + 1) = String.ofList (withoutEnds piece) := by
  have hl : (ofText source).lines[i]? = some (ofText source).lines[i] :=
    Array.getElem?_eq_getElem h
  have hpiece : (source.toList.splitOn '\n')[i]? = some (ofText source).lines[i].text := by
    rw [← map_text_ofText, List.getElem?_map, Array.getElem?_toList, hl, Option.map_some]
  refine ⟨_, hpiece, ?_⟩
  rw [text, hl, withoutEnds_eq]
  exact newline_not_mem_splitOnPPrepend (by simp) (List.mem_of_getElem? hpiece)

/-- There is no text outside of the lines. -/
theorem text_outside {l : ℕ} (h : l = 0 ∨ (ofText source).count < l) :
    (ofText source).text l = "" := by
  cases l with
  | zero => rfl
  | succ i =>
    have hi : (ofText source).lines.size ≤ i := by
      simpa [count, Nat.lt_succ_iff] using h
    rw [text, Array.getElem?_eq_none hi]

/-- The lines of a source agree with its newlines, as far as their numbers have 32 bits. -/
theorem ofText_exact (source : String) : (ofText source).Exact source where
  line _ h := toNat_lineOf h
  column _ h := by rw [lookup_eq h, toNat_lineOf h]
  start _ h := by
    obtain ⟨l, hl, hstart⟩ := exists_line h
    exact ⟨l, by rwa [toNat_lineOf h, Nat.add_sub_cancel_left], by omega⟩
  increasing _ h _ hlt := lookup_lt h hlt
  injective := lookup_injOn source
  numbered hlength _ h := numbered_or hlength h
  count := count_eq source
  text _ h := text_eq h
  outside _ h := text_outside h

example : (ofText "é\r\n\nx").lookup 5 = some (3, 1) := by decide +kernel

/-! ### Too many newlines -/

/-- A source of newlines alone. -/
def newlines (n : ℕ) : String := String.ofList (List.replicate n '\n')

/-- Line breaks alone are that many bytes. -/
theorem encoding_newlines (n : ℕ) : encoding (newlines n) = List.replicate n newline := by
  rw [encoding_eq, newlines, String.toList_ofList]
  induction n with
  | zero => rfl
  | succ n ih => rw [List.replicate_succ, encodingOf_cons, ih, encode_newline, List.replicate_succ]; rfl

/-- The end of a source of 2^32 - 1 newlines is behind all of them. No number of 32 bits is left for
its line, which is given as zero, and there is no column. -/
theorem end_of_newlines_unnumbered :
    (encoding (newlines (2 ^ 32 - 1))).length = 2 ^ 32 - 1 ∧
      newlinesBefore (newlines (2 ^ 32 - 1)) (2 ^ 32 - 1) = 2 ^ 32 - 1 ∧
      ((ofText (newlines (2 ^ 32 - 1))).lineOf (2 ^ 32 - 1)).toNat = 0 ∧
      (ofText (newlines (2 ^ 32 - 1))).lookup (2 ^ 32 - 1) = none := by
  have hlength : (encoding (newlines (2 ^ 32 - 1))).length = 2 ^ 32 - 1 := by
    rw [encoding_newlines, List.length_replicate]
  have hbefore : newlinesBefore (newlines (2 ^ 32 - 1)) (2 ^ 32 - 1) = 2 ^ 32 - 1 := by
    rw [newlinesBefore, encoding_newlines, List.take_replicate, Nat.min_self,
      List.count_replicate_self]
  have hline : (ofText (newlines (2 ^ 32 - 1))).lineOf (2 ^ 32 - 1) = 0 := by
    rw [lineOf_eq hlength.ge, hbefore]
    rfl
  refine ⟨hlength, hbefore, by rw [hline]; rfl, ?_⟩
  rw [lookup, hline]
  rfl

end Lines

end ScriptMachine.Source
