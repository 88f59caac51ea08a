import ScriptMachine.Bytecode.Chunk
import ScriptMachine.Proofs.Code.Shape

/-!
# Well-formed fragments of code and their layouts

Which words of code take a stack of one shape to a stack of another. Single instructions come
first, then the structured forms that the language has: straight code, code that may be skipped,
branches and loops. The rules say nothing about how code is emitted.

A layout gives each word that starts an instruction the shape of the stack there, and capture
words none. In a valid layout every instruction may run on its shape, and wherever control goes
from it the shape asked for there is met. Every fragment has a valid layout.
-/

namespace ScriptMachine

/-! ### Fragments -/

/-- An instruction that takes `n` values and leaves `k` values of which nothing is known. -/
inductive Plain (Γ : CodeContext) : Instr → Nat → Nat → Prop
  | constant {k : UInt16} (bound : k.toNat < Γ.constants.length) : Plain Γ (.constant k) 0 1
  | null : Plain Γ .null 0 1
  | true_ : Plain Γ .true_ 0 1
  | false_ : Plain Γ .false_ 0 1
  | pop : Plain Γ .pop 1 0
  | defineGlobal {k : UInt16} {s : String} (name : Γ.Names k s) : Plain Γ (.defineGlobal k) 1 0
  | setGlobal {k : UInt16} {s : String} (name : Γ.Names k s) : Plain Γ (.setGlobal k) 1 1
  | setUpvalue {j : UInt16} (variable_ : Γ.captures[j.toNat]? = some .any) :
      Plain Γ (.setUpvalue j) 1 1
  | getProperty {k : UInt16} {s : String} (name : Γ.Names k s) : Plain Γ (.getProperty k) 1 1
  | setProperty {k : UInt16} {s : String} (name : Γ.Names k s) : Plain Γ (.setProperty k) 2 1
  | equal : Plain Γ .equal 2 1
  | greater : Plain Γ .greater 2 1
  | less : Plain Γ .less 2 1
  | add : Plain Γ .add 2 1
  | subtract : Plain Γ .subtract 2 1
  | multiply : Plain Γ .multiply 2 1
  | divide : Plain Γ .divide 2 1
  | not : Plain Γ .not 1 1
  | negate : Plain Γ .negate 1 1
  | print : Plain Γ .print 1 0
  | call {n : UInt8} : Plain Γ (.call n) (n.toNat + 1) 1
  | invoke {k : UInt16} {n : UInt8} {s : String} (name : Γ.Names k s) :
      Plain Γ (.invoke k n) (n.toNat + 1) 1
  | duplicate : Plain Γ .duplicate 1 2

/-- The stack with `n` temporary values on top. -/
def withValues (S : List Slot) (n : Nat) : List Slot := S ++ List.replicate n .value

/-- What an instruction that is followed by the next one does to the shape of the stack. -/
inductive Effect (Γ : CodeContext) : Instr → Shape → Shape → Prop
  | plain {i : Instr} {n k : Nat} {S : List Slot} {g : Option String} (plain : Plain Γ i n k)
      (below : S ≠ []) : Effect Γ i ⟨withValues S n, g⟩ (.plain (withValues S k))
  | getLocal {j : UInt16} {S : List Slot} {a : Slot} {g : Option String}
      (slot : S[j.toNat]? = some a) :
      Effect Γ (.getLocal j) ⟨S, g⟩ ⟨S ++ [⟨a.content, false⟩], g⟩
  | setLocal {j : UInt16} {S : List Slot} {a : Slot} {g : Option String}
      (slot : S[j.toNat]? = some a) (content : a.content = .any) :
      Effect Γ (.setLocal j) ⟨S ++ [.value], g⟩ (.plain (S ++ [.value]))
  | getUpvalue {j : UInt16} {S : List Slot} {c : Content} {g : Option String}
      (variable_ : Γ.captures[j.toNat]? = some c) :
      Effect Γ (.getUpvalue j) ⟨S, g⟩ ⟨S ++ [⟨c, false⟩], g⟩
  | getGlobal {k : UInt16} {s : String} {S : List Slot} {g : Option String}
      (name : Γ.Names k s) : Effect Γ (.getGlobal k) ⟨S, g⟩ ⟨S ++ [.value], g⟩
  | getKnown {k : UInt16} {s : String} {S : List Slot} (name : Γ.Names k s) :
      Effect Γ (.getGlobal k) ⟨S, some s⟩ ⟨S ++ [.aClass], some s⟩
  | defineClass {k : UInt16} {s : String} {S : List Slot} {g : Option String}
      (name : Γ.Names k s) (below : S ≠ []) :
      Effect Γ (.defineGlobal k) ⟨S ++ [.aClass], g⟩ ⟨S, some s⟩
  | class_ {k : UInt16} {s : String} {S : List Slot} {g : Option String}
      (name : Γ.Names k s) : Effect Γ (.class_ k) ⟨S, g⟩ (.plain (S ++ [.aClass]))
  | inherit {S : List Slot} {g : Option String} (below : S ≠ []) :
      Effect Γ .inherit ⟨S ++ [.value, .aClass], g⟩ ⟨S ++ [.aClass], g⟩
  | method {k : UInt16} {s : String} {S : List Slot} {g : Option String} (name : Γ.Names k s)
      (below : S ≠ []) :
      Effect Γ (.method k) ⟨S ++ [.aClass, .aClosure], g⟩ (.plain (S ++ [.aClass]))
  | getSuper {k : UInt16} {s : String} {S : List Slot} {g : Option String}
      (name : Γ.Names k s) (below : S ≠ []) :
      Effect Γ (.getSuper k) ⟨S ++ [.value, .aClass], g⟩ (.plain (S ++ [.value]))
  | superInvoke {k : UInt16} {n : UInt8} {s : String} {S : List Slot} {g : Option String}
      (name : Γ.Names k s) (below : S ≠ []) :
      Effect Γ (.superInvoke k n) ⟨withValues S (n.toNat + 1) ++ [.aClass], g⟩
        (.plain (S ++ [.value]))
  | closeUpvalue {a : Slot} {S : List Slot} {g : Option String} (below : S ≠ []) :
      Effect Γ .closeUpvalue ⟨S ++ [a], g⟩ (.plain S)

/-- Where a closure finds a captured variable with content `c`: in a slot that an upvalue may
stand for, or among the captures of the function that makes it. `S` has the closure's own slot
on top, because a local function can capture itself. -/
inductive Captures (Γ : CodeContext) (S : List Slot) : Capture → Content → Prop
  | slot {j : UInt8} {c : Content} (slot : S[j.toNat]? = some ⟨c, true⟩) :
      Captures Γ S ⟨true, j⟩ c
  | variable_ {j : UInt8} {c : Content} (variable_ : Γ.captures[j.toNat]? = some c) :
      Captures Γ S ⟨false, j⟩ c

/-- The words of a jump whose distance is a number of words. -/
def jumpWord (jump : UInt16 → Instr) (distance : Nat) : UInt32 := (jump distance.toUInt16).encode

/-- From a stack of shape `A`, the words lead to a stack of shape `B` at their end. -/
inductive Fragment (Γ : CodeContext) : Shape → List UInt32 → Shape → Prop
  | nil {A B : Shape} (fits : A.Fits B) : Fragment Γ A [] B
  | append {A B C : Shape} {v w : List UInt32} (first : Fragment Γ A v B)
      (second : Fragment Γ B w C) : Fragment Γ A (v ++ w) C
  | instr {i : Instr} {A B : Shape} (effect : Effect Γ i A B) : Fragment Γ A [i.encode] B
  | closure {k : UInt16} {cs : List Capture} {contents : List Content} {S : List Slot} {x : Slot}
      {g : Option String} (function : Γ.constants[k.toNat]? = some (some (.function contents)))
      (fits : Slot.aClosure.Fits x) (captures : List.Forall₂ (Captures Γ (S ++ [x])) cs contents) :
      Fragment Γ ⟨S, g⟩ ((Instr.closure k).encode :: cs.map Capture.encode) (.plain (S ++ [x]))
  | return_ {S : List Slot} {g : Option String} {B : Shape} (below : S ≠ []) :
      Fragment Γ ⟨S ++ [.value], g⟩ [Instr.return_.encode] B
  | skip {S : List Slot} {g : Option String} {body : List UInt32} (below : S ≠ [])
      (inner : Fragment Γ (.plain (S ++ [.value])) body (.plain (S ++ [.value])))
      (near : body.length ≤ Chunk.maxDistance) :
      Fragment Γ ⟨S ++ [.value], g⟩ (jumpWord .jumpIfFalse body.length :: body)
        (.plain (S ++ [.value]))
  | branch {S : List Slot} {g : Option String} {yes no : List UInt32} {B : Shape}
      (below : S ≠ []) (taken : Fragment Γ (.plain (S ++ [.value])) yes B)
      (other : Fragment Γ (.plain (S ++ [.value])) no B)
      (near : yes.length + 1 ≤ Chunk.maxDistance) (near' : no.length ≤ Chunk.maxDistance) :
      Fragment Γ ⟨S ++ [.value], g⟩ (jumpWord .jumpIfFalse (yes.length + 1) :: yes ++
        jumpWord .jump no.length :: no) B
  | loop {A : Shape} {S : List Slot} {test body : List UInt32} (below : S ≠ [])
      (before : Fragment Γ A test (.plain (S ++ [.value])))
      (inner : Fragment Γ (.plain (S ++ [.value])) body A)
      (near : body.length + 1 ≤ Chunk.maxDistance)
      (near' : test.length + body.length + 2 ≤ Chunk.maxDistance) :
      Fragment Γ A (test ++ jumpWord .jumpIfFalse (body.length + 1) :: body ++
        [jumpWord .loop (test.length + body.length + 2)]) (.plain (S ++ [.value]))
  | forever {A B : Shape} {body : List UInt32} (inner : Fragment Γ A body A)
      (near : body.length + 1 ≤ Chunk.maxDistance) :
      Fragment Γ A (body ++ [jumpWord .loop (body.length + 1)]) B
  | stepLoop {A B : Shape} {step body : List UInt32} (advance : Fragment Γ A step A)
      (inner : Fragment Γ A body A) (near : step.length + 2 ≤ Chunk.maxDistance)
      (near' : step.length + body.length + 2 ≤ Chunk.maxDistance) :
      Fragment Γ A (jumpWord .jump (step.length + 1) :: step ++
        jumpWord .loop (step.length + 2) :: body ++
        [jumpWord .loop (step.length + body.length + 2)]) B
  | testLoop {A C : Shape} {S : List Slot} {test enter step body : List UInt32} (below : S ≠ [])
      (before : Fragment Γ A test (.plain (S ++ [.value])))
      (entering : Fragment Γ (.plain (S ++ [.value])) enter C)
      (advance : Fragment Γ C step A) (inner : Fragment Γ C body C)
      (near : enter.length + step.length + body.length + 3 ≤ Chunk.maxDistance)
      (near' : test.length + enter.length + step.length + 3 ≤ Chunk.maxDistance) :
      Fragment Γ A (test ++
        jumpWord .jumpIfFalse (enter.length + step.length + body.length + 3) :: enter ++
        jumpWord .jump (step.length + 1) :: step ++
        jumpWord .loop (test.length + enter.length + step.length + 3) :: body ++
        [jumpWord .loop (step.length + body.length + 2)]) (.plain (S ++ [.value]))

/-! ### Layouts -/

/-- Words of code, those that start an instruction with the shape of the stack there. -/
abbrev Layout := List (UInt32 × Option Shape)

namespace Layout

variable {Γ : CodeContext} {a b c p q : Layout} {A B D E : Shape} {e : Option Shape}

/-- The words of a layout. -/
def words (a : Layout) : List UInt32 := a.map Prod.fst

/-- Layouts in sequence have their words in sequence. -/
@[simp] theorem words_append : (a ++ b).words = a.words ++ b.words := List.map_append

/-- A layout has as many words as entries. -/
@[simp] theorem length_words : a.words.length = a.length := List.length_map _

/-- With a stack of shape `D`, control may go to offset `t`: an instruction there takes the
shape, or the layout ends there and its e does. -/
def Lands (a : Layout) (e : Option Shape) (t : Nat) (D : Shape) : Prop :=
  (∃ w E, a[t]? = some (w, some E) ∧ D.Fits E) ∨
    (t = a.length ∧ ∃ E, e = some E ∧ D.Fits E)

/-- Knowing more than is asked for is enough. -/
theorem Lands.of_fits {t : Nat} (h : Lands a e t E) (hfits : D.Fits E) :
    Lands a e t D := by
  rcases h with ⟨w, F, hget, hf⟩ | ⟨ht, F, hexit, hf⟩
  · exact .inl ⟨w, F, hget, hfits.trans hf⟩
  · exact .inr ⟨ht, F, hexit, hfits.trans hf⟩

/-- On a stack of shape `A`, the instruction at offset `o` may run, and control goes on only
where `goes` allows. -/
inductive Step (Γ : CodeContext) (code : List UInt32) (goes : Nat → Shape → Prop) (o : Nat) :
    Instr → Shape → Prop
  | effect {i : Instr} {A B : Shape} (effect : Effect Γ i A B) (next : goes (o + 1) B) :
      Step Γ code goes o i A
  | closure {k : UInt16} {cs : List Capture} {contents : List Content} {S : List Slot} {x : Slot}
      {g : Option String} (function : Γ.constants[k.toNat]? = some (some (.function contents)))
      (fits : Slot.aClosure.Fits x) (captures : List.Forall₂ (Captures Γ (S ++ [x])) cs contents)
      (words : cs.map Capture.encode <+: code.drop (o + 1))
      (next : goes (o + 1 + cs.length) (.plain (S ++ [x]))) :
      Step Γ code goes o (.closure k) ⟨S, g⟩
  | return_ {S : List Slot} {g : Option String} (below : S ≠ []) :
      Step Γ code goes o .return_ ⟨S ++ [.value], g⟩
  | jump {d : UInt16} {A : Shape} (next : goes (o + 1 + d.toNat) A) :
      Step Γ code goes o (.jump d) A
  | jumpIfFalse {d : UInt16} {S : List Slot} {g : Option String} (below : S ≠ [])
      (next : goes (o + 1) (.plain (S ++ [.value])))
      (target : goes (o + 1 + d.toNat) (.plain (S ++ [.value]))) :
      Step Γ code goes o (.jumpIfFalse d) ⟨S ++ [.value], g⟩
  | loop {d : UInt16} {A : Shape} (back : d.toNat ≤ o + 1) (next : goes (o + 1 - d.toNat) A) :
      Step Γ code goes o (.loop d) A

/-- An instruction moves with its code. -/
theorem Step.shift {u code v : List UInt32} {goes G : Nat → Shape → Prop} {o : Nat}
    {i : Instr} (h : Step Γ code goes o i A)
    (hgoes : ∀ t D, goes t D → G (u.length + t) D) :
    Step Γ (u ++ code ++ v) G (u.length + o) i A := by
  cases h with
  | effect effect next => exact .effect effect (hgoes _ _ next)
  | closure function fits captures words next =>
    refine .closure function fits captures ?_ ?_
    · obtain ⟨rest, hrest⟩ := words
      have hle : o + 1 ≤ code.length ∨ code.drop (o + 1) = [] := by
        rcases Nat.lt_or_ge code.length (o + 1) with hlt | hle
        · exact .inr (List.drop_eq_nil_of_le (Nat.le_of_lt hlt))
        · exact .inl hle
      rcases hle with hle | hnil
      · refine ⟨rest ++ v, ?_⟩
        have hdrop : (u ++ code ++ v).drop (u.length + (o + 1)) =
            code.drop (o + 1) ++ v := by
          rw [List.append_assoc, List.drop_length_add_append, List.drop_append_of_le_length hle]
        rw [Nat.add_assoc, hdrop, ← List.append_assoc, hrest]
      · rw [hnil] at hrest
        obtain ⟨hcs, -⟩ := List.append_eq_nil_iff.mp hrest
        rw [hcs]
        exact List.nil_prefix
    · have := hgoes _ _ next
      rwa [← Nat.add_assoc, ← Nat.add_assoc] at this
  | return_ below => exact .return_ below
  | jump next =>
    have := hgoes _ _ next
    rw [← Nat.add_assoc, ← Nat.add_assoc] at this
    exact .jump this
  | jumpIfFalse below next target =>
    have := hgoes _ _ target
    rw [← Nat.add_assoc, ← Nat.add_assoc] at this
    exact .jumpIfFalse below (hgoes _ _ next) this
  | loop back next =>
    have := hgoes _ _ next
    rw [← Nat.add_sub_assoc back] at this
    exact .loop (by omega) this

/-- Every instruction of the segment `a`, which stands at offset `n` of `code`, may run. -/
def StepsAt (Γ : CodeContext) (code : List UInt32) (goes : Nat → Shape → Prop) (n : Nat)
    (a : Layout) : Prop :=
  ∀ o w C, a[o]? = some (w, some C) → ∃ i, w = i.encode ∧ Step Γ code goes (n + o) i C

/-- No entry makes no step. -/
theorem stepsAt_nil {code : List UInt32} {goes : Nat → Shape → Prop} {n : Nat} :
    StepsAt Γ code goes n [] := by simp [StepsAt]

/-- Entries in sequence make their steps, the second part behind the first. -/
theorem StepsAt.append {code : List UInt32} {goes : Nat → Shape → Prop} {n : Nat}
    (ha : StepsAt Γ code goes n a) (hb : StepsAt Γ code goes (n + a.length) b) :
    StepsAt Γ code goes n (a ++ b) := by
  intro o w C ho
  rcases Nat.lt_or_ge o a.length with hlt | hge
  · exact ha o w C (by rwa [List.getElem?_append_left hlt] at ho)
  · rw [List.getElem?_append_right hge] at ho
    obtain ⟨i, hi, hstep⟩ := hb _ w C ho
    exact ⟨i, hi, by rwa [Nat.add_assoc, Nat.add_sub_cancel' hge] at hstep⟩

/-- An instruction makes its step, and the others theirs behind it. -/
theorem StepsAt.cons {code : List UInt32} {goes : Nat → Shape → Prop} {n : Nat} {i : Instr}
    (h : Step Γ code goes n i A) (ha : StepsAt Γ code goes (n + 1) a) :
    StepsAt Γ code goes n ((i.encode, some A) :: a) := by
  intro o w C ho
  match o with
  | 0 =>
    simp only [List.getElem?_cons_zero, Option.some.injEq, Prod.mk.injEq] at ho
    exact ⟨i, ho.1.symm, ho.2 ▸ h⟩
  | o + 1 =>
    obtain ⟨i, hi, hstep⟩ := ha o w C (by simpa using ho)
    exact ⟨i, hi, by rwa [Nat.add_assoc, Nat.add_comm 1 o] at hstep⟩

/-- Layouts whose instructions follow one another without a gap. -/
inductive Tiled (Γ : CodeContext) : Layout → Prop
  | nil : Tiled Γ []
  | instr {i : Instr} {A : Shape} {rest : Layout} (width : ∀ k, i ≠ .closure k)
      (tail : Tiled Γ rest) : Tiled Γ ((i.encode, some A) :: rest)
  | closure {k : UInt16} {cs : List Capture} {contents : List Content} {A : Shape} {rest : Layout}
      (function : Γ.constants[k.toNat]? = some (some (.function contents)))
      (width : cs.length = contents.length) (tail : Tiled Γ rest) :
      Tiled Γ (((Instr.closure k).encode, some A) ::
        (cs.map fun c => (c.encode, none)) ++ rest)

/-- Layouts in sequence are tiled if both are. -/
theorem Tiled.append (ha : Tiled Γ a) (hb : Tiled Γ b) : Tiled Γ (a ++ b) := by
  induction ha with
  | nil => exact hb
  | instr width _ ih => exact .instr width ih
  | closure function width _ ih =>
    rw [List.append_assoc]
    exact .closure function width ih

/-- A layout of code that is entered with shape `A` and left at its end with shape `e`; with
no e, control never reaches the end. -/
structure Valid (Γ : CodeContext) (a : Layout) (A : Shape) (e : Option Shape) : Prop where
  entry : Lands a e 0 A
  steps : StepsAt Γ a.words (Lands a e) 0 a
  tiled : Tiled Γ a

/-- A valid segment of a larger layout: control enters it at its offset, and its instructions may
run there, if control may go on behind it. -/
theorem Valid.within {inner : Option Shape} (h : Valid Γ a A inner)
    (hc : c = p ++ a ++ q)
    (hexit : ∀ B, inner = some B → Lands c e (p.length + a.length) B) :
    Lands c e p.length A ∧ StepsAt Γ c.words (Lands c e) p.length a := by
  have hgoes (t : Nat) (D : Shape) (hl : Lands a inner t D) :
      Lands c e (p.length + t) D := by
    rcases hl with ⟨w, E, hget, hf⟩ | ⟨rfl, E, hE, hf⟩
    · refine .inl ⟨w, E, ?_, hf⟩
      have hlt : t < a.length := (List.getElem?_eq_some_iff.mp hget).1
      rw [hc, List.append_assoc, List.getElem?_append_right (Nat.le_add_right _ _),
        Nat.add_sub_cancel_left, List.getElem?_append_left hlt, hget]
    · exact (hexit E hE).of_fits hf
  refine ⟨hgoes 0 A h.entry, fun o w C ho => ?_⟩
  obtain ⟨i, hi, hstep⟩ := h.steps o w C ho
  have hshift := hstep.shift (u := p.words) (v := q.words)
    (G := Lands c e) (by simpa using hgoes)
  refine ⟨i, hi, ?_⟩
  rw [hc, words_append, words_append]
  rw [length_words, Nat.zero_add] at hshift
  rwa [hc] at hshift

/-- A valid segment with an e of shape `B`, where control may go on behind it with `B`. -/
theorem Valid.inside (h : Valid Γ a A (some B)) (hc : c = p ++ a ++ q)
    (hexit : Lands c e (p.length + a.length) B) :
    Lands c e p.length A ∧ StepsAt Γ c.words (Lands c e) p.length a :=
  h.within hc fun E hE => by
    rw [Option.some.injEq] at hE
    exact hE ▸ hexit

/-- Control may go to an instruction of the layout. -/
theorem lands_at {j : UInt32 × Option Shape} {t : Nat} (hc : c = p ++ j :: q)
    (ht : t = p.length) (hj : j.2 = some A) : Lands c e t A := by
  obtain ⟨w, shape⟩ := j
  subst hc ht hj
  exact .inl ⟨w, A, by simp, .refl A⟩

/-- Control may go to the end of the layout. -/
theorem lands_end {t : Nat} (ht : t = c.length) : Lands c (some B) t B :=
  .inr ⟨ht, B, rfl, .refl B⟩

end Layout

end ScriptMachine
