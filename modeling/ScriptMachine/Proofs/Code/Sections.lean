import ScriptMachine.Proofs.Code.Listing

/-!
# What a listing says

The listing of a well-formed function has a line for every word of its code, in order: a word at
which an instruction starts has a line with the instruction, and the words behind a closure
instruction that belong to it have a line each with what they capture. So no word is listed twice,
and which words are captures is read off the code as the machine reads it.
-/

namespace ScriptMachine

/-- `text` begins with `name`. -/
def Begins (text name : String) : Prop := ∃ rest, text = name ++ rest

/-- Every text begins with itself. -/
theorem Begins.refl (text : String) : Begins text text := ⟨"", String.append_empty.symm⟩

/-- A longer text begins alike. -/
theorem Begins.append {text name : String} (h : Begins text name) (more : String) :
    Begins (text ++ more) name := by
  obtain ⟨rest, rfl⟩ := h
  exact ⟨rest ++ more, String.append_assoc ..⟩

/-- Where an instruction at an offset may jump to. -/
def Instr.target? (offset : Nat) : Instr → Option Nat
  | .jump d | .jumpIfFalse d => some (offset + 1 + d.toNat)
  | .loop d => some (offset + 1 - d.toNat)
  | _ => none

/-- A line that begins with a column for the name of an instruction begins with the name. -/
theorem begins_nameColumn (i : Instr) : Begins (Chunk.nameColumn i.mnemonic) i.mnemonic := ⟨_, rfl⟩

/-- `text` is for the instruction `i` at an offset: it has its name, and says where it jumps to. -/
structure Instr.Shown (i : Instr) (offset : Nat) (text : String) : Prop where
  names : Begins text i.mnemonic
  jumps : ∀ t, i.target? offset = some t → text = Chunk.jumpLine i offset t

/-- What is listed of a word. -/
inductive ListedWord
  | instr (i : Instr) (text : String)
  | capture (c : Capture)

/-- A line of a listing; it starts with the offset of its word. -/
def ListedWord.display (c : Chunk) (offset : Nat) : ListedWord → String
  | .instr _ text => s!"{Chunk.offsetColumn offset} {c.lineColumn offset} {text}"
  | .capture taken => Chunk.captureLine offset taken

namespace Chunk

/-- The lines for words from an offset on. -/
def linesFrom (c : Chunk) (offset : Nat) (words : List ListedWord) : String :=
  String.join ((words.zipIdx offset).map fun word => word.1.display c word.2)

variable {c : Chunk} {words others : List ListedWord} {o : Nat}

/-- No words have no lines. -/
@[simp] theorem linesFrom_nil : c.linesFrom o [] = "" := rfl

/-- The first word has the first line. -/
theorem linesFrom_cons (word : ListedWord) :
    c.linesFrom o (word :: words) = word.display c o ++ c.linesFrom (o + 1) words := by
  rw [linesFrom, List.zipIdx_cons, List.map_cons, String.join_cons, linesFrom]

/-- Words in sequence have their lines in sequence. -/
theorem linesFrom_append :
    c.linesFrom o (words ++ others) =
      c.linesFrom o words ++ c.linesFrom (o + words.length) others := by
  simp only [linesFrom, List.zipIdx_append, List.map_append, String.join_append]

/-- The lines of captures are those of their words. -/
theorem captureLines_eq (stop : Nat) : c.captureLines o stop =
    c.linesFrom o ((c.code.extract o stop).toList.map fun w => .capture (Capture.decode w)) := by
  rw [linesFrom, List.zipIdx_map, List.map_map, String.join_eq_foldl, List.foldl_map, captureLines]
  simp only [Function.comp_apply, Prod.map, ListedWord.display, id_eq]

end Chunk

namespace Prototype

variable {W : World} {h : Heap} {f : Prototype} {o q : Nat} {i : Instr} {w : UInt32}

/-! ### Instructions and captures -/

/-- What is listed of the word at an offset: the instruction there, with its name and where it jumps
to, or the capture that it is in the instruction before. -/
inductive Lists (h : Heap) (f : Prototype) (q : Nat) : ListedWord → Prop
  | instr {i : Instr} {text : String} (at_ : f.At h q i) (shown : i.Shown q text) :
      Lists h f q (.instr i text)
  | capture {o n : Nat} {k : UInt16} {w : UInt32} (at_ : f.At h o (.closure k))
      (inside : n < f.captureCount h k) (offset : q = o + 1 + n)
      (word : f.chunk.code[q]? = some w) : Lists h f q (.capture (Capture.decode w))

/-- An instruction has a word at least. -/
theorem width_pos (o : Nat) : 0 < f.width h o := by
  unfold width
  cases f.instr? o with
  | none => exact Nat.one_pos
  | some i =>
    cases i with
    | closure k => exact Nat.lt_of_lt_of_le Nat.one_pos (Nat.le_add_right _ _)
    | _ => exact Nat.one_pos

/-- No instruction starts inside another one. -/
theorem Starts.behind {a b : Nat} (ha : f.Starts h a) (hb : f.Starts h b) (hlt : a < b) :
    a + f.width h a ≤ b := by
  induction hb generalizing a with
  | zero => exact absurd hlt (Nat.not_lt_zero a)
  | @next b start inside ih =>
    -- an instruction that starts behind this one is not before the next one
    have hnone : ¬ b < a := by
      intro hba
      induction ha with
      | zero => exact Nat.not_lt_zero b hba
      | @next a start' inside' ih' =>
        rcases Nat.lt_trichotomy a b with hab | rfl | hab
        · have := ih start' hab
          omega
        · omega
        · exact ih' (by omega) hab
    rcases Nat.eq_or_lt_of_le (Nat.le_of_not_lt hnone) with rfl | hab
    · exact Nat.le_refl _
    · have := ih ha hab
      omega

/-- No instruction starts at a word that belongs to a closure instruction. -/
theorem Starts.not_capture {o n : Nat} {k : UInt16} (hs : f.Starts h q)
    (hc : f.At h o (.closure k)) (hn : n < f.captureCount h k) : q ≠ o + 1 + n := by
  rintro rfl
  have hwidth : f.width h o = 1 + f.captureCount h k := by
    rw [width, hc.instr]
    rfl
  have := hc.start.behind hs (by omega)
  omega

/-- What is listed of words is what they are: each is an instruction or a capture, and not both. -/
structure Listed (h : Heap) (f : Prototype) (words : List ListedWord) : Prop where
  length : words.length = f.chunk.code.size
  lists : ∀ q l, words[q]? = some l → f.Lists h q l

/-- Every word of the code is listed. -/
theorem Listed.exists_word {words : List ListedWord} (hl : f.Listed h words)
    (hq : q < f.chunk.code.size) : ∃ l, words[q]? = some l ∧ f.Lists h q l := by
  rw [← hl.length] at hq
  exact ⟨_, List.getElem?_eq_getElem hq, hl.lists q _ (List.getElem?_eq_getElem hq)⟩

/-- The instructions that are listed are the instructions of the code. -/
theorem Listed.instr_iff {words : List ListedWord} (hl : f.Listed h words) :
    (∃ text, words[q]? = some (.instr i text)) ↔ f.At h q i := by
  constructor
  · rintro ⟨text, hword⟩
    cases hl.lists q _ hword with
    | instr at_ _ => exact at_
  · intro hi
    have hq : q < f.chunk.code.size := by
      obtain ⟨w, hw, -⟩ := Option.bind_eq_some_iff.mp hi.instr
      exact (Array.getElem?_eq_some_iff.mp hw).1
    obtain ⟨l, hword, hlists⟩ := hl.exists_word hq
    cases hlists with
    | @instr i' text at_ _ =>
      obtain rfl := Option.some.inj (at_.instr.symm.trans hi.instr)
      exact ⟨text, hword⟩
    | capture at_ inside offset _ => exact absurd offset (hi.start.not_capture at_ inside)

/-- The captures that are listed are the captures of the code. -/
theorem Listed.capture_iff {words : List ListedWord} (hl : f.Listed h words) {c : Capture} :
    words[q]? = some (.capture c) ↔ ∃ o k n w, f.At h o (.closure k) ∧ n < f.captureCount h k ∧
      q = o + 1 + n ∧ f.chunk.code[q]? = some w ∧ Capture.decode w = c := by
  constructor
  · intro hword
    cases hl.lists q _ hword with
    | capture at_ inside offset word => exact ⟨_, _, _, _, at_, inside, offset, word, rfl⟩
  · rintro ⟨o, k, n, w, hat, hinside, hoffset, hw, rfl⟩
    obtain ⟨l, hword, hlists⟩ := hl.exists_word (Array.getElem?_eq_some_iff.mp hw).1
    cases hlists with
    | instr at_ _ => exact absurd hoffset (at_.start.not_capture hat hinside)
    | capture _ _ _ word => rw [hword, Option.some.inj (hw.symm.trans word)]

/-! ### Lines -/

/-- The line of an instruction that is alone in its words. -/
theorem exists_line_plain (hw : W.Fits h) (hconstants : ∀ v ∈ f.chunk.constants, W.Holds v .any)
    (hi : Instr.decode? w = some i) (hplain : ∀ k, i ≠ .closure k) :
    ∃ text, f.chunk.operation h o w = .ok (text, o + 1) ∧ i.Shown o text := by
  have htext := Chunk.exists_constantText hw hconstants
  have hconstant (i : Instr) (k : UInt16) (hno : ∀ t, i.target? o ≠ some t) : ∃ text,
      (f.chunk.constantLine h i k >>= fun text => pure (text, o + 1)) = .ok (text, o + 1) ∧
        i.Shown o text := by
    obtain ⟨shown, hshown⟩ := htext k
    rw [Chunk.constantLine, hshown]
    exact ⟨_, rfl, (((((begins_nameColumn i).append _).append _).append _).append _).append _,
      fun t ht => absurd ht (hno t)⟩
  have hinvoke (i : Instr) (k : UInt16) (n : UInt8) (hno : ∀ t, i.target? o ≠ some t) : ∃ text,
      (f.chunk.invokeLine h i k n >>= fun text => pure (text, o + 1)) = .ok (text, o + 1) ∧
        i.Shown o text := by
    obtain ⟨shown, hshown⟩ := htext k
    rw [Chunk.invokeLine, hshown]
    exact ⟨_, rfl, (((((((begins_nameColumn i).append _).append _).append _).append _).append
      _).append _).append _, fun t ht => absurd ht (hno t)⟩
  unfold Chunk.operation
  rw [hi]
  cases i with
  | constant k | getGlobal k | defineGlobal k | setGlobal k | getProperty k | setProperty k
  | getSuper k | class_ k | method k => exact hconstant _ k fun t ht => by cases ht
  | invoke k n | superInvoke k n => exact hinvoke _ k n fun t ht => by cases ht
  | closure k => exact absurd rfl (hplain k)
  | jump d | jumpIfFalse d | loop d =>
    refine ⟨_, rfl, (((((begins_nameColumn _).append _).append _).append _).append _).append _, ?_⟩
    intro t ht
    rw [← Option.some.inj ht]
  | getLocal n | setLocal n | getUpvalue n | setUpvalue n | call n =>
    exact ⟨_, rfl, (((begins_nameColumn _).append _).append _).append _, fun t ht => by cases ht⟩
  | _ => exact ⟨_, rfl, (Begins.refl _).append _, fun t ht => by cases ht⟩

/-- The line of a closure instruction, and those of the captures that belong to it. -/
theorem operation_closure (hw : W.Fits h) (hconstants : ∀ v ∈ f.chunk.constants, W.Holds v .any)
    {k : UInt16} (hi : Instr.decode? w = some (.closure k)) (hk : f.Meets h k .function) :
    ∃ text, f.chunk.operation h o w = .ok (text ++ f.chunk.captureLines (o + 1)
      (o + 1 + f.captureCount h k), o + 1 + f.captureCount h k) ∧ (Instr.closure k).Shown o text := by
  obtain ⟨shown, hshown⟩ := Chunk.exists_constantText hw hconstants k
  unfold Chunk.operation
  rw [hi]
  simp only [hshown, captureCount_eq hk]
  exact ⟨_, rfl, (((((begins_nameColumn _).append _).append _).append _).append _).append _,
    fun t ht => by cases ht⟩

/-- An instruction has a line for each of its words. -/
theorem At.exists_lines (hi : f.At h o i) (hw : W.Fits h)
    (hconstants : ∀ v ∈ f.chunk.constants, W.Holds v .any)
    (hclosure : ∀ k, i = .closure k → f.Meets h k .function)
    (hroom : o + f.width h o ≤ f.chunk.code.size) :
    ∃ words, words.length = f.width h o ∧ (∀ n l, words[n]? = some l → f.Lists h (o + n) l) ∧
      f.chunk.listInstr h o = .ok (f.chunk.linesFrom o words, o + f.width h o) := by
  obtain ⟨w, hword, hdecode⟩ := Option.bind_eq_some_iff.mp hi.instr
  have hdisplay (text : String) : (ListedWord.instr i text).display f.chunk o =
      s!"{Chunk.offsetColumn o} {f.chunk.lineColumn o} {text}" := rfl
  by_cases hplain : ∀ k, i ≠ .closure k
  · obtain ⟨text, htext, hline⟩ := exists_line_plain (o := o) hw hconstants hdecode hplain
    have hwidth : f.width h o = 1 := by
      rw [width, hi.instr]
      revert hplain
      cases i with
      | closure k => exact fun hplain => absurd rfl (hplain k)
      | _ => exact fun _ => rfl
    refine ⟨[.instr i text], hwidth.symm, fun n l hl => ?_, ?_⟩
    · cases n with
      | zero => exact Option.some.inj hl ▸ .instr hi hline
      | succ n => cases hl
    · rw [Chunk.listInstr, hword, hwidth, Chunk.linesFrom_cons, Chunk.linesFrom_nil,
        String.append_empty, hdisplay]
      simp only [htext]
      rfl
  · obtain ⟨k, rfl⟩ := Classical.not_forall_not.mp hplain
    obtain ⟨text, htext, hline⟩ :=
      operation_closure (o := o) hw hconstants hdecode (hclosure k rfl)
    have hwidth : f.width h o = 1 + f.captureCount h k := by
      rw [width, hi.instr]
      rfl
    rw [hwidth] at hroom
    have hsize : (f.chunk.code.extract (o + 1) (o + 1 + f.captureCount h k)).size =
        f.captureCount h k := by
      rw [Array.size_extract]
      omega
    refine ⟨.instr (.closure k) text :: (f.chunk.code.extract (o + 1)
      (o + 1 + f.captureCount h k)).toList.map fun w => .capture (Capture.decode w), ?_,
      fun n l hl => ?_, ?_⟩
    · rw [List.length_cons, List.length_map, Array.length_toList, hsize, hwidth, Nat.add_comm]
    · cases n with
      | zero => exact Option.some.inj hl ▸ .instr hi hline
      | succ n =>
        rw [List.getElem?_cons_succ, List.getElem?_map, Array.getElem?_toList,
          Option.map_eq_some_iff] at hl
        obtain ⟨w, hw, rfl⟩ := hl
        obtain ⟨hlt, hw⟩ := Array.getElem?_eq_some_iff.mp hw
        rw [Array.getElem_extract] at hw
        exact .capture hi (hsize ▸ hlt) (by omega) (hw ▸ by
          rw [Nat.add_comm n 1, ← Nat.add_assoc]
          exact Array.getElem?_eq_getElem _)
    · rw [Chunk.listInstr, hword, hwidth, Chunk.linesFrom_cons, ← Chunk.captureLines_eq, hdisplay]
      simp only [htext]
      refine congrArg Except.ok (Prod.ext ?_ ?_)
      · exact (String.append_assoc ..).symm
      · show o + 1 + f.captureCount h k = o + (1 + f.captureCount h k)
        omega

/-- A well-formed function has a listing with a line for every word. -/
theorem WellFormed.exists_listed (hf : f.WellFormed h) (hw : W.Fits h)
    (hconstants : ∀ v ∈ f.chunk.constants, W.Holds v .any) :
    ∃ words, f.Listed h words ∧ ∀ title,
      f.chunk.listing h title = .ok (s!"== {title} ==\n" ++ f.chunk.linesFrom 0 words) := by
  have hfrom (fuel o : Nat) (ho : f.Starts h o) (hfuel : f.chunk.code.size - o ≤ fuel) :
      ∃ words, words.length = f.chunk.code.size - o ∧
        (∀ n l, words[n]? = some l → f.Lists h (o + n) l) ∧ ∀ text,
          f.chunk.listFrom h fuel o text = .ok (text ++ f.chunk.linesFrom o words) := by
    induction fuel generalizing o with
    | zero =>
      refine ⟨[], (Nat.le_zero.mp hfuel).symm, nofun, fun text => ?_⟩
      rw [Chunk.listFrom, Chunk.linesFrom_nil, String.append_empty]
    | succ fuel ih =>
      by_cases hin : o < f.chunk.code.size
      · obtain ⟨i, hi⟩ := hf.known o ho hin
        have hat : f.At h o i := ⟨ho, hi⟩
        have hnext := ho.next hin
        have hroom := hf.whole.2 _ hnext
        have hpos := f.width_pos (h := h) o
        obtain ⟨words, hlength, hwords, hline⟩ := hat.exists_lines hw hconstants
          (fun k hk => hf.constants o i k .function hat (hk ▸ rfl)) hroom
        obtain ⟨rest, hlength', hrest, htext⟩ := ih _ hnext (by omega)
        refine ⟨words ++ rest, ?_, fun n l hl => ?_, fun text => ?_⟩
        · rw [List.length_append]
          omega
        · rw [List.getElem?_append] at hl
          split at hl
          · exact hwords n l hl
          · next hn =>
            have hback : o + f.width h o + (n - words.length) = o + n := by omega
            exact hback ▸ hrest _ l hl
        · rw [Chunk.listFrom, if_pos hin, hline, Chunk.linesFrom_append, hlength,
            ← String.append_assoc]
          exact htext _
      · refine ⟨[], ?_, nofun, fun text => ?_⟩
        · rw [List.length_nil]
          omega
        · rw [Chunk.listFrom, if_neg hin, Chunk.linesFrom_nil, String.append_empty]
  obtain ⟨words, hlength, hwords, htext⟩ := hfrom _ 0 .zero (Nat.le_refl _)
  exact ⟨words, ⟨hlength, fun q l hl => Nat.zero_add q ▸ hwords q l hl⟩, fun title => htext _⟩

end Prototype

end ScriptMachine
