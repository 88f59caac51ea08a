import ScriptMachine.Bytecode.Listing
import ScriptMachine.Proofs.Heap.World

/-!
# Well-formed functions

What a function's words have to be for the machine to run them without a check: instructions one
after the other up to a final return, operands that name what the function has, jumps to
instructions, and one height of the stack for each instruction, whichever way control gets there.
Functions whose code was emitted form by form are well formed, because their layouts are.
-/

namespace ScriptMachine

/-! ### Operands -/

/-- What an instruction asks of the constant that it names. -/
inductive ConstantKind
  | value
  | text
  | function

namespace Instr

/-- The constant that an instruction names, and what it asks of it. -/
def constant? : Instr → Option (UInt16 × ConstantKind)
  | .constant k => some (k, .value)
  | getGlobal k | defineGlobal k | setGlobal k | getProperty k | setProperty k | getSuper k
  | invoke k _ | superInvoke k _ | class_ k | method k => some (k, .text)
  | closure k => some (k, .function)
  | _ => none

/-- The captured variable that an instruction names. -/
def upvalue? : Instr → Option UInt16
  | getUpvalue j | setUpvalue j => some j
  | _ => none

/-- The slot that an instruction names. -/
def slot? : Instr → Option UInt16
  | getLocal j | setLocal j => some j
  | _ => none

/-- The values on top of the stack that an instruction works on. -/
def operands : Instr → Nat
  | .constant _ | null | true_ | false_ | getLocal _ | getGlobal _ | getUpvalue _ | jump _ | loop _
  | closure _ | class_ _ => 0
  | pop | setLocal _ | defineGlobal _ | setGlobal _ | setUpvalue _ | getProperty _ | not | negate
  | print | jumpIfFalse _ | closeUpvalue | return_ | duplicate => 1
  | setProperty _ | getSuper _ | equal | greater | less | add | subtract | multiply | divide
  | inherit | method _ => 2
  | call n | invoke _ n => n.toNat + 1
  | superInvoke _ n => n.toNat + 2

/-- The values that an instruction leaves in their place. -/
def results : Instr → Nat
  | pop | defineGlobal _ | print | jump _ | loop _ | closeUpvalue | return_ => 0
  | .constant _ | null | true_ | false_ | getLocal _ | setLocal _ | getGlobal _ | setGlobal _
  | getUpvalue _ | setUpvalue _ | getProperty _ | setProperty _ | getSuper _ | equal | greater
  | less | add | subtract | multiply | divide | not | negate | jumpIfFalse _ | call _ | invoke _ _
  | superInvoke _ _ | closure _ | class_ _ | inherit | method _ => 1
  | duplicate => 2

/-- The words of an instruction, if a closure of the constant `k` has `count k` captures. -/
def width (count : UInt16 → Nat) : Instr → Nat
  | closure k => 1 + count k
  | _ => 1

/-- The offsets that control may go to from an instruction of `words` words at `offset`. -/
def successors (offset words : Nat) : Instr → List Nat
  | jump d => [offset + 1 + d.toNat]
  | jumpIfFalse d => [offset + 1, offset + 1 + d.toNat]
  | loop d => [offset + 1 - d.toNat]
  | return_ => []
  | .constant _ | null | true_ | false_ | pop | getLocal _ | setLocal _ | getGlobal _
  | defineGlobal _ | setGlobal _ | getUpvalue _ | setUpvalue _ | getProperty _ | setProperty _
  | getSuper _ | equal | greater | less | add | subtract | multiply | divide | not | negate | print
  | call _ | invoke _ _ | superInvoke _ _ | closure _ | closeUpvalue | class_ _ | inherit | method _
  | duplicate => [offset + words]

end Instr

/-! ### Well-formedness -/

namespace Prototype

/-- The instruction of the word at an offset. -/
def instr? (f : Prototype) (offset : Nat) : Option Instr :=
  f.chunk.code[offset]?.bind Instr.decode?

/-- The number of captures of the function among the constants. -/
def captureCount (h : Heap) (f : Prototype) (k : UInt16) : Nat :=
  (f.chunk.captureCount h k).toOption.getD 0

/-- The words of the instruction at an offset. -/
def width (h : Heap) (f : Prototype) (offset : Nat) : Nat :=
  ((f.instr? offset).map (Instr.width (f.captureCount h))).getD 1

/-- The offsets that stepping over whole instructions leads to, the end of the code included. -/
inductive Starts (h : Heap) (f : Prototype) : Nat → Prop
  | zero : Starts h f 0
  | next {offset : Nat} (start : Starts h f offset) (inside : offset < f.chunk.code.size) :
      Starts h f (offset + f.width h offset)

/-- The instruction `i` starts at an offset. -/
structure At (h : Heap) (f : Prototype) (offset : Nat) (i : Instr) : Prop where
  start : f.Starts h offset
  instr : f.instr? offset = some i

/-- The constant `k` exists and is what is asked of it. -/
def Meets (h : Heap) (f : Prototype) (k : UInt16) : ConstantKind → Prop
  | .value => ∃ v, f.chunk.constants[k.toNat]? = some v
  | .text => ∃ v r s, f.chunk.constants[k.toNat]? = some v ∧ v.toHandle? = some r ∧
      h.object? r = some (.string s)
  | .function => ∃ v r g, f.chunk.constants[k.toNat]? = some v ∧ v.toHandle? = some r ∧
      h.object? r = some (.function g)

/-- The captures of the instruction at an offset. -/
def Captures (h : Heap) (f : Prototype) (offset : Nat) (c : Capture) : Prop :=
  ∃ n word, n + 1 < f.width h offset ∧ f.chunk.code[offset + 1 + n]? = some word ∧
    Capture.decode word = c

/-- `height` gives each instruction the height of the stack there: it is the same whichever way
control gets there, no instruction works on slot zero or below, and the slots that instructions
and captures name are in the stack. A closure may capture the slot it is put in. -/
structure Heights (h : Heap) (f : Prototype) (height : Nat → Nat) : Prop where
  entry : height 0 = f.arity.toNat + 1
  operands : ∀ o i, f.At h o i → 0 < i.operands → i.operands < height o
  flow : ∀ o i, f.At h o i → ∀ t ∈ i.successors o (f.width h o),
    height t = height o - i.operands + i.results
  slots : ∀ o i j, f.At h o i → i.slot? = some j → j.toNat < height o
  captures : ∀ o i c, f.At h o i → f.Captures h o c → c.isLocal = true → c.index.toNat ≤ height o

/-- A function whose code the machine can run without checks. -/
structure WellFormed (h : Heap) (f : Prototype) : Prop where
  lines : f.chunk.lines.size = f.chunk.code.size
  whole : f.Starts h f.chunk.code.size ∧ ∀ o, f.Starts h o → o ≤ f.chunk.code.size
  last : ∃ o, f.At h o .return_ ∧ o + 1 = f.chunk.code.size
  known : ∀ o, f.Starts h o → o < f.chunk.code.size → ∃ i, f.instr? o = some i
  constants : ∀ o i k kind, f.At h o i → i.constant? = some (k, kind) → f.Meets h k kind
  upvalues : ∀ o i j, f.At h o i → i.upvalue? = some j → j.toNat < f.upvalueCount
  captures : ∀ o i c, f.At h o i → f.Captures h o c → c.isLocal = false →
    c.index.toNat < f.upvalueCount
  targets : ∀ o i, f.At h o i → ∀ t ∈ i.successors o (f.width h o),
    f.Starts h t ∧ t < f.chunk.code.size
  loops : ∀ o d, f.At h o (.loop d) → d.toNat ≤ o + 1
  heights : ∃ height, f.Heights h height

end Prototype

/-! ### From layouts -/

/-- Between shapes `A` and `B` of the stack, an instruction works on what is there, and leaves
what it says. -/
structure Instr.Checked (i : Instr) (A B : Shape) : Prop where
  operands : 0 < i.operands → i.operands < A.slots.length
  height : B.slots.length = A.slots.length - i.operands + i.results
  slot : ∀ j, i.slot? = some j → j.toNat < A.slots.length
  straight : ∀ o words, i.successors o words = [o + words]

/-- What an instruction names beside the stack exists in its context. -/
structure Instr.Refers (Γ : CodeContext) (i : Instr) : Prop where
  upvalue : ∀ j, i.upvalue? = some j → j.toNat < Γ.captures.length
  bound : ∀ k, i.constant? = some (k, .value) → k.toNat < Γ.constants.length
  name : ∀ k, i.constant? = some (k, .text) → ∃ s, Γ.Names k s
  plain : ∀ k, i.constant? ≠ some (k, .function)

/-- Values stand above the slots there were. -/
@[simp] theorem length_withValues (S : List Slot) (n : Nat) :
    (withValues S n).length = S.length + n := by simp [withValues]

/-- An instruction that treats all values alike works on what is there. -/
theorem Plain.checked {Γ : CodeContext} {i : Instr} {n k : Nat} {S : List Slot} {g : Option String}
    (h : Plain Γ i n k) (below : S ≠ []) :
    Instr.Checked i ⟨withValues S n, g⟩ (.plain (withValues S k)) := by
  have hpos := List.length_pos_iff.mpr below
  cases h <;> refine ⟨?_, ?_, ?_, ?_⟩ <;>
    simp [Instr.operands, Instr.results, Instr.slot?, Instr.successors, hpos]

/-- An instruction that treats all values alike refers to what exists. -/
theorem Plain.refers {Γ : CodeContext} {i : Instr} {n k : Nat} (h : Plain Γ i n k) :
    Instr.Refers Γ i := by
  cases h <;> refine ⟨?_, ?_, ?_, ?_⟩ <;> intro j hj <;> cases hj
  case setUpvalue.refine_1.refl variable_ => exact (List.getElem?_eq_some_iff.mp variable_).1
  case constant.refine_2.refl bound => exact bound
  all_goals exact ⟨_, ‹_›⟩

/-- Every instruction works on what is there. -/
theorem Effect.checked {Γ : CodeContext} {i : Instr} {A B : Shape} (h : Effect Γ i A B) :
    Instr.Checked i A B := by
  have hslot {S : List Slot} {j : UInt16} {a : Slot} (hj : S[j.toNat]? = some a) :
      j.toNat < S.length := (List.getElem?_eq_some_iff.mp hj).1
  have hpos {S : List Slot} (below : S ≠ []) : 0 < S.length := List.length_pos_iff.mpr below
  cases h with
  | plain hplain below => exact hplain.checked below
  | getLocal slot =>
    have := hslot slot
    refine ⟨?_, ?_, ?_, ?_⟩ <;> simp [Instr.operands, Instr.results, Instr.slot?, Instr.successors, this]
  | setLocal slot =>
    have := hslot slot
    refine ⟨?_, ?_, ?_, ?_⟩ <;>
      simp [Instr.operands, Instr.results, Instr.slot?, Instr.successors] <;> omega
  | superInvoke _ below =>
    have := hpos below
    refine ⟨?_, ?_, ?_, ?_⟩ <;>
      simp only [Instr.operands, Instr.results, Instr.slot?, Instr.successors, List.length_append,
        length_withValues, List.length_singleton, reduceCtorEq, false_implies, implies_true] <;>
      omega
  | defineClass _ below | inherit below | method _ below | getSuper _ below | closeUpvalue below =>
    have := hpos below
    refine ⟨?_, ?_, ?_, ?_⟩ <;> simp [Instr.operands, Instr.results, Instr.slot?, Instr.successors, this]
  | getUpvalue | getGlobal | getKnown | class_ =>
    refine ⟨?_, ?_, ?_, ?_⟩ <;> simp [Instr.operands, Instr.results, Instr.slot?, Instr.successors]

/-- Every instruction refers to what exists. -/
theorem Effect.refers {Γ : CodeContext} {i : Instr} {A B : Shape} (h : Effect Γ i A B) :
    Instr.Refers Γ i := by
  cases h with
  | plain hplain below => exact hplain.refers
  | _ =>
    refine ⟨?_, ?_, ?_, ?_⟩ <;> intro j hj <;> cases hj <;>
      first
      | exact ⟨_, ‹_›⟩
      | exact (List.getElem?_eq_some_iff.mp ‹_›).1

namespace Layout

variable {Γ : CodeContext} {a : Layout} {count : UInt16 → Nat}

/-- The words of an instruction word. -/
def widthOf (count : UInt16 → Nat) (word : UInt32) : Nat :=
  ((Instr.decode? word).map (Instr.width count)).getD 1

/-- An instruction starts at an offset of a layout, or the layout ends there. -/
def Starting (a : Layout) (o : Nat) : Prop := o = a.length ∨ ∃ w A, a[o]? = some (w, some A)

/-- In a layout without gaps the next instruction starts where the words of one end. -/
theorem Tiled.starting (ha : Tiled Γ a)
    (hcount : ∀ k contents, Γ.constants[k.toNat]? = some (some (.function contents)) →
      count k = contents.length) :
    Starting a 0 ∧ ∀ o w A, a[o]? = some (w, some A) → Starting a (o + widthOf count w) ∧
      ∀ n, 0 < n → n < widthOf count w → ∃ w', a[o + n]? = some (w', none) := by
  induction ha with
  | nil => exact ⟨.inl rfl, fun o w A ho => by simp at ho⟩
  | @instr i B rest hwidth _ ih =>
    have hone : widthOf count i.encode = 1 := by
      rw [widthOf, Instr.decode?_encode]
      cases i <;> first | rfl | exact absurd rfl (hwidth _)
    have hshift (o : Nat) (ho : Starting rest o) :
        Starting ((i.encode, some B) :: rest) (o + 1) := by
      rcases ho with rfl | ⟨w, A, hget⟩
      · exact .inl rfl
      · exact .inr ⟨w, A, hget⟩
    refine ⟨.inr ⟨_, _, rfl⟩, fun o w A ho => ?_⟩
    cases o with
    | zero =>
      simp only [List.getElem?_cons_zero, Option.some.injEq, Prod.mk.injEq] at ho
      rw [← ho.1, hone]
      exact ⟨hshift 0 ih.1, fun n hpos hlt => absurd hpos (by omega)⟩
    | succ o =>
      obtain ⟨hnext, hinside⟩ := ih.2 o w A ho
      refine ⟨?_, fun n hpos hlt => ?_⟩
      · rw [Nat.succ_add]
        exact hshift _ hnext
      · rw [Nat.succ_add]
        exact hinside n hpos hlt
  | @closure k cs contents B rest hfunction hwidth _ ih =>
    have hwords : widthOf count (Instr.closure k).encode = 1 + cs.length := by
      rw [widthOf, Instr.decode?_encode, hwidth, ← hcount k contents hfunction]
      rfl
    have hshift (o : Nat) (ho : Starting rest o) : Starting (((Instr.closure k).encode, some B) ::
        (cs.map fun c => (c.encode, none)) ++ rest) (1 + cs.length + o) := by
      rcases ho with rfl | ⟨w, A, hget⟩
      · left
        simp
        omega
      · right
        refine ⟨w, A, ?_⟩
        rw [List.getElem?_append_right (by simp; omega)]
        rw [← hget]
        congr 1
        simp
        omega
    have hget (o : Nat) : (((Instr.closure k).encode, some B) ::
        (cs.map fun c => (c.encode, none)) ++ rest)[1 + cs.length + o]? = rest[o]? := by
      rw [List.getElem?_append_right (by simp; omega)]
      congr 1
      simp
      omega
    have hinner (n : Nat) (hn : n < cs.length) : ∃ w', (((Instr.closure k).encode, some B) ::
        (cs.map fun c => (c.encode, none)) ++ rest)[n + 1]? = some (w', none) := by
      refine ⟨cs[n].encode, ?_⟩
      rw [List.getElem?_append_left (by simp; omega)]
      simp [hn]
    refine ⟨.inr ⟨_, _, rfl⟩, fun o w A ho => ?_⟩
    rcases Nat.lt_or_ge o (1 + cs.length) with hlt | hge
    · cases o with
      | zero =>
        simp only [List.cons_append, List.getElem?_cons_zero, Option.some.injEq,
          Prod.mk.injEq] at ho
        rw [← ho.1, hwords, Nat.zero_add]
        refine ⟨hshift 0 ih.1, fun n hpos hn => ?_⟩
        obtain ⟨n, rfl⟩ := Nat.exists_eq_succ_of_ne_zero (Nat.ne_of_gt hpos)
        rw [Nat.zero_add]
        exact hinner n (by omega)
      | succ o =>
        -- no instruction starts among the captures
        obtain ⟨w', hw'⟩ := hinner o (by omega)
        rw [hw'] at ho
        cases ho
    · obtain ⟨o, rfl⟩ := Nat.exists_eq_add_of_le hge
      obtain ⟨hnext, hinside⟩ := ih.2 o w A (by rwa [hget] at ho)
      refine ⟨?_, fun n hpos hn => ?_⟩
      · rw [Nat.add_assoc]
        exact hshift _ hnext
      · rw [Nat.add_assoc, hget]
        exact hinside n hpos hn

/-- The words without a shape are those of captures. -/
theorem Tiled.capture {w : UInt32} (ha : Tiled Γ a) (hw : (w, none) ∈ a) :
    ∃ c : Capture, w = c.encode := by
  induction ha with
  | nil => cases hw
  | instr _ _ ih =>
    rcases List.mem_cons.mp hw with heq | hw
    · cases heq
    · exact ih hw
  | closure _ _ _ ih =>
    rcases List.mem_append.mp hw with hw | hw
    · rcases List.mem_cons.mp hw with heq | hw
      · cases heq
      · obtain ⟨c, -, heq⟩ := List.mem_map.mp hw
        exact ⟨c, (Prod.mk.inj heq).1.symm⟩
    · exact ih hw

end Layout

/-- Read as an instruction, the word of a capture is a constant. -/
theorem Capture.decode?_encode (c : Capture) : ∃ k, Instr.decode? c.encode = some (.constant k) := by
  have hoperation : wordOperation c.encode = 0 := by
    obtain ⟨isLocal, index⟩ := c
    apply UInt8.toBitVec_inj.mp
    ext i hi
    have hhigh : index.toBitVec.getLsbD (24 + i) = false := BitVec.getLsbD_of_ge _ _ (by omega)
    have hflag : (256#32).getLsbD (24 + i) = false := by
      have hpow : 2 ^ 24 ≤ 2 ^ (24 + i) := Nat.pow_le_pow_right Nat.two_pos (Nat.le_add_right 24 i)
      exact Nat.testBit_lt_two_pow (Nat.lt_of_lt_of_le (by decide) hpow)
    cases isLocal <;> simp [wordOperation, encode, hhigh, hflag]
  exact ⟨wordOperand c.encode, by simp [Instr.decode?, hoperation]⟩

/-! ### Laid out functions -/

/-- `a` lays out the code of a function, from its entry to where it returns. -/
structure LaidOut (h : Heap) (Γ : CodeContext) (f : Prototype) (a : Layout) : Prop where
  words : a.words = f.chunk.code.toList
  valid : a.Valid Γ (.plain (entrySlots f.arity)) none
  count : ∀ k contents, Γ.constants[k.toNat]? = some (some (.function contents)) →
    f.captureCount h k = contents.length

namespace LaidOut

variable {h : Heap} {Γ : CodeContext} {f : Prototype} {a : Layout} {o : Nat} {i : Instr}
  {w : UInt32} {A : Shape}

/-- Code is as long as its layout. -/
theorem size (hl : LaidOut h Γ f a) : f.chunk.code.size = a.length := by
  rw [← Array.length_toList, ← hl.words, Layout.length_words]

/-- The words of a function are those of its layout. -/
theorem word (hl : LaidOut h Γ f a) {e : Option Shape} (ho : a[o]? = some (w, e)) :
    f.chunk.code[o]? = some w := by
  rw [← Array.getElem?_toList, ← hl.words, Layout.words, List.getElem?_map, ho]
  rfl

/-- The words of an instruction are counted as in the layout. -/
theorem width (hl : LaidOut h Γ f a) {e : Option Shape} (ho : a[o]? = some (w, e)) :
    f.width h o = Layout.widthOf (f.captureCount h) w := by
  rw [Prototype.width, Prototype.instr?, hl.word ho]
  rfl

/-- Stepping over instructions leads to where instructions start, or to the end. -/
theorem starting (hl : LaidOut h Γ f a) (hs : f.Starts h o) : a.Starting o := by
  obtain ⟨hzero, hnext⟩ := hl.valid.tiled.starting hl.count
  induction hs with
  | zero => exact hzero
  | @next p _ hinside ih =>
    rcases ih with rfl | ⟨w, A, hget⟩
    · exact absurd hinside (by rw [hl.size]; omega)
    · rw [hl.width hget]
      exact (hnext p w A hget).1

/-- Every offset is in an instruction that stepping leads to, or behind the end. -/
theorem exists_start (hl : LaidOut h Γ f a) (o : Nat) :
    ∃ p, f.Starts h p ∧ p ≤ o ∧ (p = a.length ∨ o < p + f.width h p) := by
  have hpos (p : Nat) : 0 < f.width h p := by
    unfold Prototype.width
    cases f.instr? p with
    | none => exact Nat.one_pos
    | some i =>
      cases i with
      | closure k => exact Nat.lt_of_lt_of_le Nat.one_pos (Nat.le_add_right _ _)
      | _ => exact Nat.one_pos
  induction o with
  | zero => exact ⟨0, .zero, Nat.le_refl 0, .inr (by have := hpos 0; omega)⟩
  | succ o ih =>
    obtain ⟨p, hp, hle, hend⟩ := ih
    by_cases hlt : o + 1 < p + f.width h p ∨ p = a.length
    · exact ⟨p, hp, by omega, hlt.symm⟩
    · have hback : p + f.width h p = o + 1 := by omega
      have hin : p < f.chunk.code.size := by
        rcases hl.starting hp with hlast | ⟨w, A, hget⟩
        · omega
        · rw [hl.size]
          exact (List.getElem?_eq_some_iff.mp hget).1
      refine ⟨o + 1, hback ▸ hp.next hin, Nat.le_refl _, .inr ?_⟩
      have := hpos (o + 1)
      omega

/-- Stepping over instructions leads to every instruction. -/
theorem starts (hl : LaidOut h Γ f a) (ho : a[o]? = some (w, some A)) : f.Starts h o := by
  obtain ⟨-, hnext⟩ := hl.valid.tiled.starting hl.count
  have hlt : o < a.length := (List.getElem?_eq_some_iff.mp ho).1
  obtain ⟨p, hp, hle, hend⟩ := hl.exists_start o
  rcases Nat.eq_or_lt_of_le hle with rfl | hless
  · exact hp
  · -- no instruction starts inside another one
    rcases hl.starting hp with rfl | ⟨w', A', hget⟩
    · omega
    · have hinside := (hnext p w' A' hget).2 (o - p) (by omega) (by
        rw [← hl.width hget]
        omega)
      obtain ⟨w'', hw''⟩ := hinside
      rw [Nat.add_sub_cancel' hle, ho] at hw''
      cases hw''

/-- What is read as an instruction other than a constant is one. -/
theorem at_of_instr (hl : LaidOut h Γ f a) (hi : f.instr? o = some i)
    (hplain : ∀ k, i ≠ .constant k) : f.At h o i := by
  obtain ⟨w, hword, hdecode⟩ := Option.bind_eq_some_iff.mp hi
  rw [← Array.getElem?_toList, ← hl.words, Layout.words, List.getElem?_map,
    Option.map_eq_some_iff] at hword
  obtain ⟨⟨w', shape⟩, hget, rfl⟩ := hword
  cases shape with
  | some A => exact ⟨hl.starts hget, hi⟩
  | none =>
    obtain ⟨c, rfl⟩ := hl.valid.tiled.capture (List.mem_of_getElem? hget)
    obtain ⟨k, hk⟩ := c.decode?_encode
    exact absurd (Option.some.inj (hdecode.symm.trans hk)) (hplain k)

/-- Stepping over instructions leads to the end. -/
theorem starts_end (hl : LaidOut h Γ f a) : f.Starts h f.chunk.code.size := by
  obtain ⟨p, hp, hle, hend⟩ := hl.exists_start a.length
  rw [hl.size]
  rcases Nat.eq_or_lt_of_le hle with rfl | hless
  · exact hp
  · have hin : p < f.chunk.code.size := hl.size ▸ hless
    have hnext := hp.next hin
    have hbound : p + f.width h p ≤ a.length := by
      rcases hl.starting hnext with heq | ⟨w, A, hget⟩
      · omega
      · exact Nat.le_of_lt (List.getElem?_eq_some_iff.mp hget).1
    have : p + f.width h p = a.length := by omega
    exact this ▸ hnext

/-- An instruction that starts somewhere may run there. -/
theorem step (hl : LaidOut h Γ f a) (hi : f.At h o i) :
    ∃ A, a[o]? = some (i.encode, some A) ∧ Layout.Step Γ a.words (a.Lands none) o i A := by
  have hinstr := hi.instr
  rcases hl.starting hi.start with rfl | ⟨w, A, hget⟩
  · rw [Prototype.instr?, ← hl.size, Array.getElem?_eq_none (Nat.le_refl _)] at hinstr
    cases hinstr
  · obtain ⟨i', rfl, hstep⟩ := hl.valid.steps o w A hget
    rw [Prototype.instr?, hl.word hget, Option.bind_some, Instr.decode?_encode,
      Option.some.injEq] at hinstr
    subst hinstr
    rw [Nat.zero_add] at hstep
    exact ⟨A, hget, hstep⟩

/-- The height of the stack at an offset. -/
def heightAt (a : Layout) (o : Nat) : Nat :=
  ((a[o]?.bind Prod.snd).map fun A => A.slots.length).getD 0

/-- The height at an instruction is that of its shape. -/
theorem heightAt_eq {e : UInt32} (ho : a[o]? = some (e, some A)) : heightAt a o = A.slots.length := by
  rw [heightAt, ho]
  rfl

/-- Control goes to instructions only, with the height that they have. -/
theorem lands (hl : LaidOut h Γ f a) (ho : a.Lands none o A) :
    (f.Starts h o ∧ o < f.chunk.code.size) ∧ heightAt a o = A.slots.length := by
  rcases ho with ⟨w, E, hget, hfits⟩ | ⟨-, E, hnone, -⟩
  · refine ⟨⟨hl.starts hget, ?_⟩, ?_⟩
    · rw [hl.size]
      exact (List.getElem?_eq_some_iff.mp hget).1
    · rw [heightAt_eq hget, hfits.slots.length_eq]
  · cases hnone

/-- What an instruction that may run somewhere does to the height of the stack. -/
structure Flow (h : Heap) (f : Prototype) (a : Layout) (o : Nat) (i : Instr) : Prop where
  operands : 0 < i.operands → i.operands < heightAt a o
  slot : ∀ j, i.slot? = some j → j.toNat < heightAt a o
  goes : ∀ t ∈ i.successors o (f.width h o), (f.Starts h t ∧ t < f.chunk.code.size) ∧
    heightAt a t = heightAt a o - i.operands + i.results

/-- Control flows from an instruction as its layout says. -/
theorem flow (hl : LaidOut h Γ f a) (hi : f.At h o i) : Flow h f a o i := by
  obtain ⟨A, hget, hstep⟩ := hl.step hi
  have hheight := heightAt_eq hget
  have hwidth : f.width h o = i.width (f.captureCount h) := by
    rw [hl.width hget, Layout.widthOf, Instr.decode?_encode]
    rfl
  cases hstep with
  | @effect i A B heffect hnext =>
    have hc := heffect.checked
    have hone : i.width (f.captureCount h) = 1 := by
      cases i <;> first | rfl | exact absurd rfl (heffect.refers.plain _)
    refine ⟨fun hpos => hheight ▸ hc.operands hpos, fun j hj => hheight ▸ hc.slot j hj,
      fun t ht => ?_⟩
    rw [hc.straight, hwidth, hone, List.mem_singleton] at ht
    obtain ⟨hstart, hto⟩ := hl.lands hnext
    subst ht
    exact ⟨hstart, by rw [hto, hheight, hc.height]⟩
  | @closure k cs contents S x g hfunction hfits hcaptures hwords hnext =>
    refine ⟨fun hpos => absurd hpos (Nat.lt_irrefl 0), fun j hj => (by cases hj), fun t ht => ?_⟩
    have hcount : f.captureCount h k = cs.length := by
      rw [hl.count k contents hfunction, hcaptures.length_eq]
    obtain rfl : t = o + (1 + cs.length) := by
      rw [hwidth, Instr.width, hcount] at ht
      exact List.mem_singleton.mp ht
    obtain ⟨hstart, hto⟩ := hl.lands hnext
    rw [← Nat.add_assoc]
    refine ⟨hstart, ?_⟩
    rw [hto, hheight]
    simp [Instr.operands, Instr.results]
  | @return_ S g below =>
    refine ⟨fun _ => ?_, fun j hj => (by cases hj), fun t ht => (by cases ht)⟩
    have := List.length_pos_iff.mpr below
    rw [hheight]
    simpa [Instr.operands] using this
  | @jump d A hnext =>
    refine ⟨fun hpos => absurd hpos (Nat.lt_irrefl 0), fun j hj => (by cases hj), fun t ht => ?_⟩
    obtain rfl := List.mem_singleton.mp ht
    obtain ⟨hstart, hto⟩ := hl.lands hnext
    exact ⟨hstart, hto.trans hheight.symm⟩
  | @jumpIfFalse d S g below hnext htarget =>
    have hpos := List.length_pos_iff.mpr below
    have hsame : heightAt a o - Instr.operands (.jumpIfFalse d) + Instr.results (.jumpIfFalse d) =
        heightAt a o := by
      rw [hheight]
      simp [Instr.operands, Instr.results]
    refine ⟨fun _ => ?_, fun j hj => (by cases hj), fun t ht => ?_⟩
    · rw [hheight]
      simpa [Instr.operands] using hpos
    · rw [hsame, hheight]
      rcases List.mem_cons.mp ht with rfl | ht
      · obtain ⟨hstart, hto⟩ := hl.lands hnext
        exact ⟨hstart, hto⟩
      · obtain rfl := List.mem_singleton.mp ht
        obtain ⟨hstart, hto⟩ := hl.lands htarget
        exact ⟨hstart, hto⟩
  | @loop d A hback hnext =>
    refine ⟨fun hpos => absurd hpos (Nat.lt_irrefl 0), fun j hj => (by cases hj), fun t ht => ?_⟩
    obtain rfl := List.mem_singleton.mp ht
    obtain ⟨hstart, hto⟩ := hl.lands hnext
    exact ⟨hstart, hto.trans hheight.symm⟩

/-- The captures of a closure name slots of the stack or captured variables. -/
theorem captures (hl : LaidOut h Γ f a) (hi : f.At h o i) {c : Capture} (hc : f.Captures h o c) :
    (c.isLocal = true → c.index.toNat ≤ heightAt a o) ∧
      (c.isLocal = false → c.index.toNat < Γ.captures.length) := by
  obtain ⟨A, hget, hstep⟩ := hl.step hi
  obtain ⟨n, word, hn, hword, rfl⟩ := hc
  have hwidth : f.width h o = i.width (f.captureCount h) := by
    rw [hl.width hget, Layout.widthOf, Instr.decode?_encode]
    rfl
  cases hstep with
  | @closure k cs contents S x g hfunction hfits hcaptures hwords hnext =>
    have hcount : f.captureCount h k = cs.length := by
      rw [hl.count k contents hfunction, hcaptures.length_eq]
    have hlt : n < cs.length := by
      rw [hwidth, Instr.width, hcount] at hn
      omega
    have hcode : f.chunk.code[o + 1 + n]? = some cs[n].encode := by
      obtain ⟨rest, hrest⟩ := hwords
      rw [← Array.getElem?_toList, ← hl.words, ← List.getElem?_drop, ← hrest,
        List.getElem?_append_left (by simpa using hlt)]
      simp [hlt]
    rw [hcode, Option.some.injEq] at hword
    subst hword
    rw [Capture.decode_encode]
    have hcap := (List.forall₂_iff_get.mp hcaptures).2 n hlt (hcaptures.length_eq ▸ hlt)
    rw [List.get_eq_getElem] at hcap
    rw [heightAt_eq hget]
    generalize cs[n] = c at hcap
    cases hcap with
    | slot hslot =>
      refine ⟨fun _ => ?_, fun h => (by cases h)⟩
      have := (List.getElem?_eq_some_iff.mp hslot).1
      rw [List.length_append, List.length_singleton] at this
      exact Nat.lt_succ_iff.mp this
    | variable_ hvariable =>
      exact ⟨fun h => (by cases h), fun _ => (List.getElem?_eq_some_iff.mp hvariable).1⟩
  | effect heffect =>
    exfalso
    have hone : i.width (f.captureCount h) = 1 := by
      cases i <;> first | rfl | exact absurd rfl (heffect.refers.plain _)
    omega
  | _ => exact absurd hn (by rw [hwidth]; simp [Instr.width])

end LaidOut

namespace World

variable {W : World} {h : Heap} {f : Prototype} {captures : List Content} {k : UInt16}

/-- A constant of a known type refers to an object of that type. -/
theorem exists_constant {t : ObjectType} (hw : W.Fits h)
    (ht : (f.chunk.constants.toList.map W.typeOf)[k.toNat]? = some (some t)) :
    ∃ v r o, f.chunk.constants[k.toNat]? = some v ∧ v.toHandle? = some r ∧ h.object? r = some o ∧
      W.Describes t o := by
  rw [List.getElem?_map, Array.getElem?_toList, Option.map_eq_some_iff] at ht
  obtain ⟨v, hv, ht⟩ := ht
  obtain ⟨r, hr, hwr⟩ := Option.bind_eq_some_iff.mp ht
  obtain ⟨o, ho, hd⟩ := hw r t hwr
  exact ⟨v, r, o, hv, hr, ho, hd⟩

/-- A known function among the constants has the captures that are known of it. -/
theorem captureCount_eq {contents : List Content} (hw : W.Fits h)
    (hk : (f.chunk.constants.toList.map W.typeOf)[k.toNat]? = some (some (.function contents))) :
    f.captureCount h k = contents.length := by
  obtain ⟨v, r, o, hv, hr, ho, hd⟩ := exists_constant hw hk
  cases hd with
  | function _ _ code =>
    rw [Prototype.captureCount, Chunk.captureCount, hv]
    simp only [Option.bind_some, hr, Heap.prototype, Heap.object, ho]
    exact code.captures.symm

/-- A described function has a layout. -/
theorem laidOut (hw : W.Fits h) (hc : FunctionCode (W.context f captures) f) :
    ∃ a R, LaidOut h (W.context f captures) f (a ++ [(Instr.return_.encode, some R)]) := by
  obtain ⟨a, R, hwords, hvalid⟩ := hc.layout
  refine ⟨a, R, ?_, hvalid, fun k contents hk => captureCount_eq hw hk⟩
  rw [Layout.words_append, ← hwords]
  rfl

/-- A described function is well formed. -/
theorem wellFormed (hw : W.Fits h) (hc : FunctionCode (W.context f captures) f) :
    f.WellFormed h := by
  obtain ⟨a, R, hl⟩ := laidOut hw hc
  have hreturn : (a ++ [(Instr.return_.encode, some R)])[a.length]? =
      some (Instr.return_.encode, some R) := by simp
  have hcaptures : captures.length = f.upvalueCount := hc.captures
  refine
    { lines := hc.lines.size
      whole := ⟨hl.starts_end, fun o ho => ?_⟩
      last := ⟨a.length, ⟨hl.starts hreturn, ?_⟩, ?_⟩
      known := fun o ho hlt => ?_
      constants := fun o i k kind hi hk => ?_
      upvalues := fun o i j hi hj => ?_
      captures := fun o i c hi hc hlocal => hcaptures ▸ (hl.captures hi hc).2 hlocal
      targets := fun o i hi t ht => ((hl.flow hi).goes t ht).1
      loops := fun o d hi => ?_
      heights := ⟨LaidOut.heightAt _,
        { entry := ?_
          operands := fun o i hi => (hl.flow hi).operands
          flow := fun o i hi t ht => ((hl.flow hi).goes t ht).2
          slots := fun o i j hi => (hl.flow hi).slot j
          captures := fun o i c hi hc => (hl.captures hi hc).1 }⟩ }
  · rw [hl.size]
    rcases hl.starting ho with rfl | ⟨w, A, hget⟩
    · exact Nat.le_refl _
    · exact Nat.le_of_lt (List.getElem?_eq_some_iff.mp hget).1
  · rw [Prototype.instr?, hl.word hreturn, Option.bind_some, Instr.decode?_encode]
  · rw [hl.size, List.length_append, List.length_singleton]
  · rcases hl.starting ho with rfl | ⟨w, A, hget⟩
    · exact absurd hlt (by rw [hl.size]; omega)
    · obtain ⟨i, rfl, -⟩ := hl.valid.steps o w A hget
      exact ⟨i, by rw [Prototype.instr?, hl.word hget, Option.bind_some, Instr.decode?_encode]⟩
  · obtain ⟨A, -, hstep⟩ := hl.step hi
    cases hstep with
    | effect heffect =>
      cases kind with
      | value =>
        have hbound := heffect.refers.bound k hk
        rw [context, List.length_map, Array.length_toList] at hbound
        exact ⟨_, Array.getElem?_eq_getElem hbound⟩
      | text =>
        obtain ⟨s, hs⟩ := heffect.refers.name k hk
        obtain ⟨v, r, o, hv, hr, ho, hd⟩ := exists_constant hw hs
        cases hd with
        | text => exact ⟨v, r, _, hv, hr, ho⟩
      | function => exact absurd hk (heffect.refers.plain k)
    | closure hfunction =>
      cases hk
      obtain ⟨v, r, o, hv, hr, ho, hd⟩ := exists_constant hw hfunction
      cases hd with
      | function => exact ⟨v, r, _, hv, hr, ho⟩
    | _ => cases hk
  · obtain ⟨A, -, hstep⟩ := hl.step hi
    cases hstep with
    | effect heffect => exact hcaptures ▸ heffect.refers.upvalue j hj
    | _ => cases hj
  · obtain ⟨A, -, hstep⟩ := hl.step hi
    cases hstep with
    | effect heffect =>
      -- a loop goes back, so it does not go on behind its words
      have hon : 0 + 1 - d.toNat = 0 + 2 := List.singleton_inj.mp (heffect.checked.straight 0 2)
      omega
    | loop hback => exact hback
  · rw [(hl.lands hl.valid.entry).2]
    simp [entrySlots]

end World

end ScriptMachine
