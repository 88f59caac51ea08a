import ScriptMachine.Diagnostic.Terminal
import ScriptMachine.Proofs.Source.Positions

/-!
# What a terminal shows of a diagnostic

The excerpt of a diagnostic shows the line that its span starts in, and its carets stand under the
bytes of the shown line that the span takes, or where the span starts if it takes none of them: it
may start behind the shown text, at the end of a line or of the source. Colours add escape
sequences and change nothing else, so a diagnostic without escape characters of its own looks the
same once they are removed.
-/

namespace ScriptMachine

namespace Source

variable {source : String} {offset : ℕ}

/-! ### The text of a line in its source -/

/-- A text has as many bytes backward. -/
@[simp] theorem byteLength_reverse (cs : List Char) : byteLength cs.reverse = byteLength cs := by
  induction cs with
  | nil => rfl
  | cons c cs ih => simp [ih, Nat.add_comm]

/-- The line in place `i` among those that are cut off stands behind `i` newlines; `text` is the
part of the current line that is passed already. -/
theorem exists_of_getElem?_cutLines (cs : List Char) {start offset i : ℕ} {text : List Char}
    {done : Array Line} {l : Line} (hoffset : offset = start + byteLength text)
    (htext : '\n' ∉ text) (hl : (cutLines start offset text done cs)[done.size + i]? = some l) :
    ∃ before after, text.reverse ++ cs = before ++ l.text ++ after ∧
      l.start = start + byteLength before ∧ before.count '\n' = i := by
  induction cs generalizing start offset text done i with
  | nil =>
    rw [cutLines, Array.getElem?_push] at hl
    split at hl
    · next hi =>
      obtain rfl := Option.some.inj hl
      exact ⟨[], [], by simp, by simp, by simp; omega⟩
    · next hi =>
      rw [Array.getElem?_eq_none (by omega)] at hl
      cases hl
  | cons c cs ih =>
    rw [cutLines] at hl
    split at hl
    · next hc =>
      subst hc
      cases i with
      | zero =>
        rw [Lines.getElem?_cutLines_of_lt (by rw [Array.size_push]; omega), Nat.add_zero,
          Array.getElem?_push_size] at hl
        obtain rfl := Option.some.inj hl
        exact ⟨[], '\n' :: cs, by simp, by simp, by simp⟩
      | succ i =>
        have hi : done.size + (i + 1) = (done.push ⟨start, text.reverse⟩).size + i := by
          rw [Array.size_push]
          omega
        rw [hi] at hl
        obtain ⟨before, after, hsplit, hstart, hcount⟩ := ih (by simp) (by simp) hl
        refine ⟨text.reverse ++ '\n' :: before, after, ?_, ?_, ?_⟩
        · simpa using hsplit
        · simp [hstart, hoffset]
          omega
        · rw [List.count_append, List.count_cons_self, hcount,
            List.count_eq_zero_of_not_mem (by simpa using htext), Nat.zero_add]
    · next hc =>
      obtain ⟨before, after, hsplit, hstart, hcount⟩ := ih
        (by rw [byteLength_cons, hoffset]; omega) (by simp [htext, Ne.symm hc]) hl
      exact ⟨before, after, by simpa using hsplit, hstart, hcount⟩

/-- A line of a text stands in it behind as many newlines as there are lines before. -/
theorem exists_of_getElem?_ofText {source : String} {i : ℕ} {l : Line}
    (h : (Lines.ofText source).lines[i]? = some l) :
    ∃ before after, source.toList = before ++ l.text ++ after ∧
      l.start = byteLength before ∧ before.count '\n' = i := by
  have hcut : (cutLines 0 0 [] #[] source.toList)[(#[] : Array Line).size + i]? = some l := by
    simpa [Lines.ofText] using h
  simpa using exists_of_getElem?_cutLines source.toList (by simp) (by simp) hcut

/-- The number of bytes of its line that stand before an offset. -/
def bytesBefore (source : String) (offset : ℕ) : ℕ :=
  (lastLine ((encoding source).take offset)).length

/-- The text that is shown of the line of an offset stands in the source, as many bytes before the
offset as its column says. -/
theorem text_stands {line : ℕ} (h : Numbered source offset)
    (hline : line = 1 + newlinesBefore source offset) : bytesBefore source offset ≤ offset ∧
      Stands source.toList ⟨offset - bytesBefore source offset, offset - bytesBefore source offset +
        ((Lines.ofText source).text line).utf8ByteSize⟩ line.toUInt32
        ((Lines.ofText source).text line).toList := by
  obtain ⟨l, hl, hstart⟩ := Lines.exists_line h
  rw [← bytesBefore] at hstart
  obtain ⟨before, after, hsplit, hbefore, hcount⟩ := exists_of_getElem?_ofText hl
  refine ⟨by omega, ?_⟩
  rw [hline, Nat.add_comm 1, Lines.text, hl]
  dsimp only
  -- the carriage returns at the end of the line are not shown
  obtain ⟨returns, hreturns⟩ : (l.text.reverse.dropWhile (· = '\r')).reverse <+: l.text :=
    List.rdropWhile_prefix (· = '\r') l.text
  rw [show offset - bytesBefore source offset = l.start by omega]
  refine ⟨before, returns ++ after, ?_, hbefore, ?_, by rw [hcount, Nat.add_comm]⟩
  · rw [String.toList_ofList, List.append_assoc, ← List.append_assoc _ returns, hreturns,
      ← List.append_assoc, ← hsplit]
  · rw [String.toList_ofList, byteLength_append, utf8ByteSize_ofList, hbefore]

end Source

namespace Diagnostic

open Source Text

/-! ### Carets -/

/-- A row of blanks and carets with its carets in the marked columns, counted from zero, and nothing
behind the last caret. -/
structure Underlines (marked : ℕ → Prop) (row : List Char) : Prop where
  caret : ∀ k, row[k]? = some '^' ↔ marked k
  blank : ∀ c ∈ row, c ≠ '^' → c = ' '
  last : row.getLast? = some '^'

/-- The byte in column `k` of a text that stands at `start` in the source lies in a span. -/
def InSpan (span : Span) (start : ℕ) (text : String) (k : ℕ) : Prop :=
  k < text.utf8ByteSize ∧ span.start ≤ start + k ∧ start + k < span.stop

/-- The columns that carets stand in: those of the shown bytes that the span takes, or the one that
it starts in if there are none. -/
def Marked (span : Span) (start : ℕ) (text : String) (k : ℕ) : Prop :=
  InSpan span start text k ∨ (∀ j, ¬ InSpan span start text j) ∧ start + k = span.start

/-- The row of carets below a line. -/
def caretRow (span : Span) (text : String) (column : ℕ) : String :=
  repeated ' ' (column - 1) ++ repeated '^' (caretCount span text column)

/-- A row of carets behind blanks underlines what stands above them. -/
theorem underlines_replicate (m n : ℕ) (hn : 0 < n) :
    Underlines (fun k => m ≤ k ∧ k < m + n) (List.replicate m ' ' ++ List.replicate n '^') where
  caret k := by
    rw [List.getElem?_append, List.length_replicate, List.getElem?_replicate,
      List.getElem?_replicate]
    split
    · simp
      omega
    · split
      · simp
        omega
      · simp
        omega
  blank c hc hne := by
    rcases List.mem_append.mp hc with hc | hc
    · exact List.eq_of_mem_replicate hc
    · exact absurd (List.eq_of_mem_replicate hc) hne
  last := by
    obtain ⟨n, rfl⟩ := Nat.exists_eq_add_of_lt hn
    simp [List.replicate_succ']

/-- The row of carets underlines the bytes of the span that are shown. -/
theorem caretRow_underlines {span : Span} {text : String} {start column : ℕ}
    (hstart : start + (column - 1) = span.start) :
    Underlines (Marked span start text) (caretRow span text column).toList := by
  have hpos : 0 < caretCount span text column := by
    unfold caretCount
    dsimp only
    omega
  have hrow := underlines_replicate (column - 1) _ hpos
  have hmarked : Marked span start text =
      fun k => column - 1 ≤ k ∧ k < column - 1 + caretCount span text column := by
    funext k
    refine propext ?_
    unfold Marked InSpan caretCount
    dsimp only
    constructor
    · rintro (h | ⟨-, h⟩) <;> omega
    · intro h
      by_cases hin : k < text.utf8ByteSize ∧ span.start ≤ start + k ∧ start + k < span.stop
      · exact .inl hin
      · refine .inr ⟨fun j hj => hin ?_, ?_⟩ <;> omega
  rw [hmarked]
  simpa [caretRow, repeated] using hrow

example : caretRow ⟨6, 18⟩ "print \"abc" 7 = "      ^^^^" := by decide

/-! ### Excerpts -/

/-- The lines that show a line of a source: its position, its text, and what stands below it. -/
def excerpt (line column : ℕ) (text below : String) : String :=
  let number := toString line
  let pad := repeated ' ' number.length
  s!"  --> {line}:{column}\n" ++ s!"{pad} |\n" ++ s!"{number} | {text}\n" ++
    s!"{pad} | {below}\n" ++ s!"{pad} |\n"

/-- The message of a label behind its carets. -/
def behindCarets (label : Label) : String :=
  if label.message.isEmpty then "" else " " ++ label.message

/-- The excerpt of a label that starts in a line, without colours. -/
theorem snippet_plain {lines : Lines} {label : Label} {line column : ℕ}
    (h : lines.lookup label.span.start = some (line, column)) :
    snippet false lines label = some (excerpt line column (lines.text line)
      (caretRow label.span (lines.text line) column ++ behindCarets label)) := by
  simp only [snippet, h]
  refine congrArg some (String.toList_inj.mp ?_)
  simp [excerpt, caretRow, behindCarets, paint, arrow, toString]

/-! ### What can be shown -/

section

variable {d : Diagnostic} {source : Option Lines} (color : Bool)
  (h : ∀ lines ∈ source, ∀ offset, ∃ line column, lines.lookup offset = some (line, column))

include h

/-- The place of an error is always shown. -/
theorem exists_place : ∃ text, place color d source = some text := by
  unfold place
  split
  · next label lines _ =>
    obtain ⟨line, column, hlookup⟩ := h lines rfl label.span.start
    exact ⟨_, by rw [snippet, hlookup]; rfl⟩
  · exact ⟨_, rfl⟩
  · exact ⟨_, rfl⟩

/-- A further label is always shown. -/
theorem exists_secondary (label : Label) : ∃ text, secondary color source label = some text := by
  cases source with
  | none => exact ⟨_, rfl⟩
  | some lines =>
    obtain ⟨line, column, hlookup⟩ := h lines rfl label.span.start
    exact ⟨_, by rw [secondary, hlookup]; rfl⟩

/-- All further labels are shown, by induction on them. -/
theorem exists_secondaries (labels : List Label) :
    ∃ texts, labels.mapM (secondary color source) = some texts := by
  induction labels with
  | nil => exact ⟨[], rfl⟩
  | cons label labels ih =>
    obtain ⟨text, htext⟩ := exists_secondary color h label
    obtain ⟨texts, htexts⟩ := ih
    exact ⟨text :: texts, by rw [List.mapM_cons, htext, htexts]; rfl⟩

end

/-- The text of a diagnostic whose parts can be shown. -/
theorem render_eq {d : Diagnostic} {color : Bool} {shown : String} {others : List String}
    (hshown : place color d (d.source.map Lines.ofText) = some shown)
    (hothers : (d.labels.filter fun l => !l.primary).mapM
      (secondary color (d.source.map Lines.ofText)) = some others) :
    render d color = some (headline color d ++ shown ++ String.join others ++
      String.join (d.notes.map fun note => remarkLine color s!"note: {note}") ++
      String.join (d.suggestion.toList.map fun text => remarkLine color s!"help: {text}")) := by
  rw [render, hshown, hothers]
  rfl

/-! ### Colours -/

/-- The character that escape sequences begin with. -/
def escape : Char := '\x1b'

/-- The text behind a style's escape sequence whose first character is read. -/
def behindStyle? : List Char → Option (List Char)
  | '[' :: rest =>
    match rest.dropWhile fun c => c.isDigit || c = ';' with
    | 'm' :: rest => some rest
    | _ => none
  | _ => none

/-- A style takes a character at least. -/
theorem length_behindStyle? {cs rest : List Char} (h : behindStyle? cs = some rest) :
    rest.length < cs.length := by
  unfold behindStyle? at h
  split at h
  · next cs =>
    split at h
    · next found heq =>
      obtain rfl := Option.some.inj h
      have hle : (cs.dropWhile fun c => c.isDigit || c = ';').length ≤ cs.length :=
        (List.dropWhile_sublist _).length_le
      rw [heq, List.length_cons] at hle
      rw [List.length_cons]
      omega
    · cases h
  · cases h

/-- A text without the escape sequences of its styles. -/
def withoutStyles : List Char → List Char
  | [] => []
  | c :: cs =>
    if c = escape then
      match _hfound : behindStyle? cs with
      | some rest => withoutStyles rest
      | none => c :: withoutStyles cs
    else c :: withoutStyles cs
termination_by cs => cs.length
decreasing_by
  · exact Nat.lt_succ_of_lt (length_behindStyle? _hfound)
  · exact Nat.lt_succ_self _
  · exact Nat.lt_succ_self _

/-- A diagnostic none of whose texts has an escape character. -/
structure Plain (d : Diagnostic) : Prop where
  message : escape ∉ d.message.toList
  code : ∀ code ∈ d.code, escape ∉ code.toList
  labels : ∀ label ∈ d.labels, escape ∉ label.message.toList
  notes : ∀ note ∈ d.notes, escape ∉ note.toList
  suggestion : ∀ text ∈ d.suggestion, escape ∉ text.toList
  source : ∀ source ∈ d.source, escape ∉ source.toList

/-- A coloured text is a plain one once its escape sequences are removed, whatever follows it. -/
def Colors (colored plain : String) : Prop :=
  ∀ rest, withoutStyles (colored.toList ++ rest) = plain.toList ++ withoutStyles rest

/-- Coloured texts one behind the other are coloured. -/
theorem Colors.append {s t s' t' : String} (h : Colors s t) (h' : Colors s' t') :
    Colors (s ++ s') (t ++ t') := fun rest => by
  rw [String.toList_append, String.toList_append, List.append_assoc, h, h', List.append_assoc]

/-- A text without escape characters stays as it is. -/
theorem colors_plain {s : String} (hs : escape ∉ s.toList) : Colors s s := by
  intro rest
  generalize s.toList = cs at hs ⊢
  induction cs with
  | nil => rfl
  | cons c cs ih =>
    obtain ⟨hc, hcs⟩ := not_or.mp (List.mem_cons.not.mp hs)
    rw [List.cons_append, withoutStyles, if_neg (Ne.symm hc), ih hcs, List.cons_append]

/-- The escape sequence of a style disappears. -/
theorem withoutStyles_style (parameters : String)
    (h : parameters.toList.all (fun c => c.isDigit || c = ';') = true) (rest : List Char) :
    withoutStyles (escape :: '[' :: (parameters.toList ++ 'm' :: rest)) = withoutStyles rest := by
  have hbehind : behindStyle? ('[' :: (parameters.toList ++ 'm' :: rest)) = some rest := by
    rw [behindStyle?, List.dropWhile_append_of_pos (List.all_eq_true.mp h),
      List.dropWhile_cons_of_neg (by decide)]
    rfl
  rw [withoutStyles, if_pos rfl]
  split
  · next found heq =>
    rw [hbehind] at heq
    obtain rfl := Option.some.inj heq
    rfl
  · next heq =>
    rw [hbehind] at heq
    cases heq

/-- Painting a text adds escape sequences only. -/
theorem colors_paint (style : Style) {s : String} (hs : escape ∉ s.toList) :
    Colors (paint true style s) (paint false style s) := by
  have hopen : Colors s!"\x1b[{style.parameters}m" "" := fun rest => by
    have hparameters : style.parameters.toList.all (fun c => c.isDigit || c = ';') = true := by
      cases style <;> rfl
    simpa [toString, escape] using withoutStyles_style style.parameters hparameters rest
  have hclose : Colors "\x1b[0m" "" := fun rest =>
    withoutStyles_style "0" rfl rest
  have hpaint := (hopen.append (colors_plain hs)).append hclose
  simpa [paint, toString] using hpaint

/-- Colored texts that follow each other. -/
theorem colors_join {α : Type} (xs : List α) {f g : α → String} (h : ∀ x ∈ xs, Colors (f x) (g x)) :
    Colors (String.join (xs.map f)) (String.join (xs.map g)) := by
  induction xs with
  | nil => exact colors_plain (by simp)
  | cons x xs ih =>
    rw [List.map_cons, List.map_cons, String.join_cons, String.join_cons]
    exact (h x List.mem_cons_self).append (ih fun y hy => h y (List.mem_cons_of_mem _ hy))

/-- A number has no escape character. -/
theorem escape_not_mem_nat (n : ℕ) : escape ∉ (toString n).toList := by
  intro hmem
  have hdigit : escape.isDigit = true :=
    Nat.isDigit_of_mem_toDigits (b := 10) (by decide) (by decide)
      (by simpa [toString, Nat.repr] using hmem)
  exact absurd hdigit (by decide)

/-- A repeated character is no escape character, if it is another one. -/
theorem escape_not_mem_repeated {c : Char} (hc : c ≠ escape) (n : ℕ) :
    escape ∉ (repeated c n).toList := by
  rw [repeated, String.toList_ofList]
  exact fun h => hc (List.eq_of_mem_replicate h).symm

variable {d : Diagnostic} {source : String} {lines : Option Lines} {label : Label}

/-- The code and the message. -/
theorem colors_headline (h : d.Plain) : Colors (headline true d) (headline false d) := by
  have hcolon : Colors ": " ": " := colors_plain (by decide)
  have hend : Colors "\n" "\n" := colors_plain (by decide)
  have hline (head : String) (hhead : escape ∉ head.toList) :=
    (((colors_paint .boldRed hhead).append hcolon).append
      (colors_paint .bold h.message)).append hend
  cases hcode : d.code with
  | none => simpa [headline, hcode, toString] using hline "error" (by decide)
  | some code =>
    have hhead : escape ∉ s!"error[{code}]".toList := by
      simpa [toString, escape] using h.code code hcode
    simpa [headline, hcode, toString] using hline _ hhead

/-- An arrow in front of a text. -/
theorem colors_arrow {s : String} (hs : escape ∉ s.toList) :
    Colors s!"  {arrow true} {s}\n" s!"  {arrow false} {s}\n" := by
  have hblanks : Colors "  " "  " := colors_plain (by decide)
  have hblank : Colors " " " " := colors_plain (by decide)
  have hend : Colors "\n" "\n" := colors_plain (by decide)
  have harrow : Colors (arrow true) (arrow false) := colors_paint .cyan (by decide)
  simpa [toString] using
    (((hblanks.append harrow).append hblank).append (colors_plain hs)).append hend

/-- The excerpt of a label. -/
theorem colors_snippet {lines : Lines} {label : Label} {colored plain : String}
    (hlabel : escape ∉ label.message.toList) (hlines : ∀ line, escape ∉ (lines.text line).toList)
    (hcolored : snippet true lines label = some colored)
    (hplain : snippet false lines label = some plain) : Colors colored plain := by
  unfold snippet at hcolored hplain
  obtain ⟨⟨line, column⟩, hlookup, hcolored⟩ := Option.bind_eq_some_iff.mp hcolored
  rw [hlookup] at hplain
  obtain rfl := Option.some.inj hcolored
  obtain rfl := Option.some.inj hplain
  have htext := hlines line
  generalize lines.text line = text at htext ⊢
  have hblank : Colors " " " " := colors_plain (by decide)
  have hend : Colors "\n" "\n" := colors_plain (by decide)
  have hpipe : Colors (paint true .cyan "|") (paint false .cyan "|") :=
    colors_paint .cyan (by decide)
  have hrepeated (n : ℕ) : Colors (repeated ' ' n) (repeated ' ' n) :=
    colors_plain (escape_not_mem_repeated (by decide) n)
  have hgutter := ((hrepeated (toString line).length).append hblank).append hpipe
  have hnumber := (((colors_paint .cyan (escape_not_mem_nat line)).append hblank).append
    hpipe).append hblank
  have hcarets := colors_paint .boldRed (escape_not_mem_repeated (c := '^') (by decide)
    (caretCount label.span text column))
  have hremark : Colors (if label.message.isEmpty then "" else
      " " ++ paint true .boldRed label.message) (if label.message.isEmpty then "" else
      " " ++ paint false .boldRed label.message) := by
    split
    · exact colors_plain (by decide)
    · exact hblank.append (colors_paint .boldRed hlabel)
  have hposition : escape ∉ s!"{line}:{column}".toList := by
    have hnumbers := And.intro (escape_not_mem_nat line) (escape_not_mem_nat column)
    simpa [toString, escape] using hnumbers
  have hbelow := (((hgutter.append hblank).append (hrepeated (column - 1))).append hcarets).append
    hremark
  have hall := ((((colors_arrow hposition).append (hgutter.append hend)).append
    (hnumber.append ((colors_plain htext).append hend))).append (hbelow.append hend)).append
      (hgutter.append hend)
  simpa [toString, String.append_assoc] using hall

/-- A line below the excerpt. -/
theorem colors_remarkLine {text : String} (htext : escape ∉ text.toList) :
    Colors (remarkLine true text) (remarkLine false text) := by
  have hblanks : Colors "  " "  " := colors_plain (by decide)
  have hblank : Colors " " " " := colors_plain (by decide)
  have hend : Colors "\n" "\n" := colors_plain (by decide)
  have hmark : Colors (paint true .dim "=") (paint false .dim "=") := colors_paint .dim (by decide)
  simpa [remarkLine, toString] using
    (((hblanks.append hmark).append hblank).append (colors_plain htext)).append hend

/-- A label that is not primary. -/
theorem colors_secondary {lines : Option Lines} {label : Label} {colored plain : String}
    (hlabel : escape ∉ label.message.toList) (hcolored : secondary true lines label = some colored)
    (hplain : secondary false lines label = some plain) : Colors colored plain := by
  cases lines with
  | none =>
    obtain rfl := Option.some.inj hcolored
    obtain rfl := Option.some.inj hplain
    exact colors_remarkLine hlabel
  | some lines =>
    simp only [secondary] at hcolored hplain
    obtain ⟨⟨line, column⟩, hlookup, hcolored⟩ := Option.bind_eq_some_iff.mp hcolored
    rw [hlookup] at hplain
    obtain rfl := Option.some.inj hcolored
    obtain rfl := Option.some.inj hplain
    refine colors_remarkLine ?_
    have hall := And.intro hlabel (And.intro (escape_not_mem_nat line) (escape_not_mem_nat column))
    simpa [toString, escape] using hall

/-- Labels that are not primary, one behind the other. -/
theorem colors_secondaries {lines : Option Lines} {labels : List Label} {colored plain : List String}
    (hlabels : ∀ l ∈ labels, escape ∉ l.message.toList)
    (hcolored : labels.mapM (secondary true lines) = some colored)
    (hplain : labels.mapM (secondary false lines) = some plain) :
    Colors (String.join colored) (String.join plain) := by
  induction labels generalizing colored plain with
  | nil =>
    obtain rfl := Option.some.inj hcolored
    obtain rfl := Option.some.inj hplain
    exact colors_plain (by simp)
  | cons label labels ih =>
    rw [List.mapM_cons] at hcolored hplain
    obtain ⟨c, hc, hcolored⟩ := Option.bind_eq_some_iff.mp hcolored
    obtain ⟨cs, hcs, hcolored⟩ := Option.bind_eq_some_iff.mp hcolored
    obtain ⟨p, hp, hplain⟩ := Option.bind_eq_some_iff.mp hplain
    obtain ⟨ps, hps, hplain⟩ := Option.bind_eq_some_iff.mp hplain
    obtain rfl := Option.some.inj hcolored
    obtain rfl := Option.some.inj hplain
    rw [String.join_cons, String.join_cons]
    exact (colors_secondary (hlabels label List.mem_cons_self) hc hp).append
      (ih (fun l hl => hlabels l (List.mem_cons_of_mem _ hl)) hcs hps)

/-- What is shown of a line has no characters that the source does not have. -/
theorem escape_not_mem_text {source : String} (hsource : escape ∉ source.toList) (line : ℕ) :
    escape ∉ ((Lines.ofText source).text line).toList := by
  cases line with
  | zero => exact fun h => by cases h
  | succ i =>
    rw [Lines.text]
    split
    · exact fun h => by cases h
    · next l hl =>
      obtain ⟨before, after, hsplit, -, -⟩ := exists_of_getElem?_ofText hl
      rw [String.toList_ofList]
      intro hmem
      have hline := (List.dropWhile_sublist _).subset (List.mem_reverse.mp hmem)
      refine hsource ?_
      rw [show source.toList = before ++ l.text ++ after from hsplit]
      exact List.mem_append_left _ (List.mem_append_right _ (List.mem_reverse.mp hline))

/-- The place that a diagnostic is about. -/
theorem colors_place {colored plain : String} (h : d.Plain)
    (hcolored : place true d (d.source.map Lines.ofText) = some colored)
    (hplain : place false d (d.source.map Lines.ofText) = some plain) : Colors colored plain := by
  unfold place at hcolored hplain
  split at hcolored
  · next label lines hlabel hlines =>
    rw [hlabel, hlines] at hplain
    obtain ⟨source, hsource, rfl⟩ := Option.map_eq_some_iff.mp hlines
    exact colors_snippet (h.labels label (List.mem_of_find?_eq_some hlabel))
      (escape_not_mem_text (h.source source hsource)) hcolored hplain
  · next line hline hnone =>
    split at hplain
    · next label lines hlabel hlines => exact (hnone label lines hlabel hlines).elim
    · next line' hline' _ =>
      obtain rfl := Option.some.inj (hline.symm.trans hline')
      obtain rfl := Option.some.inj hcolored
      obtain rfl := Option.some.inj hplain
      have hline : escape ∉ s!"line {line}".toList := by
        have hnumber := escape_not_mem_nat line.toNat
        simpa [toString, escape] using hnumber
      have hsame (color : Bool) (position : String) (hposition : position = s!"line {line}") :
          s!"  {arrow color} line {line}\n" = s!"  {arrow color} {position}\n" := by
        subst hposition
        apply String.toList_inj.mp
        simp [toString]
      rw [hsame true _ rfl, hsame false _ rfl]
      exact colors_arrow hline
    · next hline' _ =>
      rw [hline] at hline'
      cases hline'
  · next hline hnone =>
    split at hplain
    · next label lines hlabel hlines => exact (hnone label lines hlabel hlines).elim
    · next line' hline' _ =>
      rw [hline] at hline'
      cases hline'
    · obtain rfl := Option.some.inj hcolored
      obtain rfl := Option.some.inj hplain
      exact colors_plain (by decide)

/-- A whole diagnostic. -/
theorem colors_render {shown shown' : String} {others others' : List String} (h : d.Plain)
    (hshown : Colors shown shown') (hothers : Colors (String.join others) (String.join others')) :
    Colors (headline true d ++ shown ++ String.join others ++
        String.join (d.notes.map fun note => remarkLine true s!"note: {note}") ++
        String.join (d.suggestion.toList.map fun text => remarkLine true s!"help: {text}"))
      (headline false d ++ shown' ++ String.join others' ++
        String.join (d.notes.map fun note => remarkLine false s!"note: {note}") ++
        String.join (d.suggestion.toList.map fun text => remarkLine false s!"help: {text}")) := by
  have hremark (what : String) {text : String} (hwhat : escape ∉ what.toList)
      (htext : escape ∉ text.toList) : escape ∉ s!"{what}: {text}".toList := by
    have hboth := And.intro hwhat htext
    simpa [toString, escape] using hboth
  have hnotes := colors_join d.notes (f := fun note => remarkLine true s!"note: {note}")
    (g := fun note => remarkLine false s!"note: {note}")
    fun note hnote => colors_remarkLine (hremark "note" (by decide) (h.notes note hnote))
  have hsuggestion := colors_join d.suggestion.toList
    (f := fun text => remarkLine true s!"help: {text}")
    (g := fun text => remarkLine false s!"help: {text}")
    fun text htext => colors_remarkLine
      (hremark "help" (by decide) (h.suggestion text (Option.mem_toList.mp htext)))
  exact ((((colors_headline h).append hshown).append hothers).append hnotes).append hsuggestion

/-- A diagnostic is shown with and without colours, if the lines of its source all have numbers. With
a source and a primary label that starts in it, it is shown without colours by the position of the
first such label, the text of that line as it stands in the source, and a row below it with carets
under exactly the shown bytes that the span takes, or one caret where the span starts if it takes
none. With colours it is shown the same but for the escape sequences, if it has no escape characters
of its own. -/
theorem render_points_at_span (d : Diagnostic)
    (h : ∀ source ∈ d.source, (Lines.ofText source).count < 2 ^ 32) :
    ∃ plain colored, render d false = some plain ∧ render d true = some colored ∧
      (∀ source label, d.source = some source → d.labels.find? Label.primary = some label →
        label.span.start ≤ source.utf8ByteSize → ∃ line column start text row below,
          (Lines.ofText source).lookup label.span.start = some (line, column) ∧
          text = (Lines.ofText source).text line ∧
          Stands source.toList ⟨start, start + text.utf8ByteSize⟩ line.toUInt32 text.toList ∧
          start + (column - 1) = label.span.start ∧
          Underlines (Marked label.span start text) row.toList ∧
          plain = headline false d ++ excerpt line column text (row ++ behindCarets label) ++ below) ∧
      (d.Plain → withoutStyles colored.toList = plain.toList) := by
  have hlookup : ∀ lines ∈ d.source.map Lines.ofText, ∀ offset,
      ∃ line column, lines.lookup offset = some (line, column) := by
    intro lines hlines offset
    obtain ⟨source, hsource, rfl⟩ := Option.map_eq_some_iff.mp hlines
    exact Lines.exists_lookup (h source hsource) offset
  obtain ⟨shown, hshown⟩ := exists_place (d := d) true hlookup
  obtain ⟨others, hothers⟩ := exists_secondaries true hlookup (d.labels.filter fun l => !l.primary)
  obtain ⟨shown', hshown'⟩ := exists_place (d := d) false hlookup
  obtain ⟨others', hothers'⟩ := exists_secondaries false hlookup (d.labels.filter fun l => !l.primary)
  refine ⟨_, _, render_eq hshown' hothers', render_eq hshown hothers,
    fun source label hsource hlabel hstart => ?_, fun hplain => ?_⟩
  · have hlength : label.span.start ≤ (encoding source).length := by
      rw [Lines.length_encoding, ← utf8ByteSize_ofList, String.ofList_toList]
      exact hstart
    have hnumbered := Lines.numbered_of_count (h source hsource) hlength
    have hposition : (Lines.ofText source).lookup label.span.start =
        some (1 + newlinesBefore source label.span.start, bytesBefore source label.span.start + 1) :=
      Lines.lookup_eq hnumbered
    obtain ⟨hle, hstands⟩ := text_stands hnumbered rfl
    have hcolumn : label.span.start - bytesBefore source label.span.start +
        (bytesBefore source label.span.start + 1 - 1) = label.span.start := by omega
    refine ⟨_, _, _, _, _, String.join others' ++
      String.join (d.notes.map fun note => remarkLine false s!"note: {note}") ++
      String.join (d.suggestion.toList.map fun text => remarkLine false s!"help: {text}"),
      hposition, rfl, hstands, hcolumn, caretRow_underlines hcolumn, ?_⟩
    have hplace : place false d (d.source.map Lines.ofText) =
        snippet false (Lines.ofText source) label := by
      unfold place
      rw [hsource, hlabel]
      rfl
    rw [hplace, snippet_plain hposition] at hshown'
    obtain rfl := Option.some.inj hshown'
    simp only [String.append_assoc]
  · have hcolors := colors_render hplain (colors_place hplain hshown hshown')
      (colors_secondaries (fun l hl => hplain.labels l (List.mem_of_mem_filter hl)) hothers hothers') []
    simpa [withoutStyles] using hcolors

/-- A label that starts in the second line of a source and runs past its end. -/
def pastEnd : Diagnostic where
  message := "expected ';'"
  code := some "NYR-C001"
  line := some 2
  labels := [⟨⟨17, 20⟩, "here", true⟩]
  notes := []
  suggestion := some "statements end with ';'"
  source := some "let a = 1;\nprint a\n"

/-- Of a span that runs past the end of its line one byte is shown there, with a caret below it. -/
theorem past_end_shown : ∃ plain colored start row below,
    render pastEnd false = some plain ∧ render pastEnd true = some colored ∧
      start + 6 = 17 ∧ Underlines (Marked ⟨17, 20⟩ start "print a") row.toList ∧
      plain = headline false pastEnd ++ excerpt 2 7 "print a" (row ++ " here") ++ below ∧
      withoutStyles colored.toList = plain.toList := by
  have hcount : ∀ source ∈ pastEnd.source, (Lines.ofText source).count < 2 ^ 32 := by
    rintro _ ⟨rfl⟩
    decide +kernel
  have hplain : pastEnd.Plain :=
    { message := by decide
      code := by rintro _ ⟨rfl⟩; decide
      labels := by
        intro label hlabel
        rw [List.mem_singleton.mp hlabel]
        decide
      notes := fun _ h => (List.not_mem_nil h).elim
      suggestion := by rintro _ ⟨rfl⟩; decide
      source := by rintro _ ⟨rfl⟩; decide }
  obtain ⟨plain, colored, hrender, hcolored, hshown, hsame⟩ := render_points_at_span pastEnd hcount
  have hstart : (17 : ℕ) ≤ "let a = 1;\nprint a\n".utf8ByteSize := by decide +kernel
  obtain ⟨line, column, start, text, row, below, hlookup, htext, -, hcolumn, hrow, hexcerpt⟩ :=
    hshown _ _ rfl rfl hstart
  have hposition : (Lines.ofText "let a = 1;\nprint a\n").lookup 17 = some (2, 7) := by
    decide +kernel
  obtain ⟨rfl, rfl⟩ := Prod.mk.inj (Option.some.inj (hlookup.symm.trans hposition))
  have hline : (Lines.ofText "let a = 1;\nprint a\n").text 2 = "print a" := by decide +kernel
  obtain rfl := htext.trans hline
  exact ⟨plain, colored, start, row, below, hrender, hcolored, hcolumn, hrow, hexcerpt, hsame hplain⟩

end Diagnostic

end ScriptMachine
