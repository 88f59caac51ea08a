import ScriptMachine.Bytecode.Instr
import ScriptMachine.Proofs.Compile.Picture

/-!
# Emitting code

The operand of a word is its low half, so setting it keeps the operation and the argument count:
a forward jump that was emitted without its distance becomes the jump by the distance.

Reading tokens changes nothing that the picture is about. Emitting a word adds it to the code of
the innermost function, and if the word may run on the stack as it is pictured, now and after any
growth of the picture, the code stays well formed.
-/

namespace ScriptMachine

/-- The mask that clears an operand. -/
def operandMask : UInt32 := 0xFFFF0000

/-- The mask keeps the two upper bytes of a word. -/
theorem operandMask_bits : ∀ i : Fin 32, operandMask.toBitVec[i.val] = decide (16 ≤ i.val) := by
  decide

/-- The bits of the mask, by their number. -/
theorem getElem_operandMask (i : Nat) (hi : i < 32) :
    operandMask.toBitVec[i] = decide (16 ≤ i) := operandMask_bits ⟨i, hi⟩

/-- The mask clears an operand. -/
theorem operand_and_mask (x : UInt16) : x.toUInt32 &&& operandMask = 0 := by
  apply UInt32.toBitVec_inj.mp
  ext i hi
  simp only [UInt32.toBitVec_and, BitVec.getElem_and, UInt16.toBitVec_toUInt32,
    BitVec.getElem_setWidth, getElem_operandMask i hi]
  by_cases hlow : 16 ≤ i
  · simp [BitVec.getLsbD_of_ge x.toBitVec i hlow]
  · simp [hlow]

/-- The mask keeps what stands above an operand. -/
theorem operation_and_mask (o c : UInt8) :
    (o.toUInt32 <<< 24 ||| c.toUInt32 <<< 16) &&& operandMask =
      o.toUInt32 <<< 24 ||| c.toUInt32 <<< 16 := by
  apply UInt32.toBitVec_inj.mp
  ext i hi
  rw [UInt32.toBitVec_and, BitVec.getElem_and, getElem_operandMask i hi]
  by_cases hlow : 16 ≤ i
  · simp [hlow]
  · have h24 : i < 24 := by omega
    have h16 : i < 16 := by omega
    simp [h24, h16]

/-- The operand of a word can be set whatever it was. -/
theorem setWordOperand_packWord (o c : UInt8) (x y : UInt16) :
    setWordOperand (packWord o c x) y = packWord o c y := by
  have hsplit : packWord o c x &&& operandMask =
      (o.toUInt32 <<< 24 ||| c.toUInt32 <<< 16) &&& operandMask ||| x.toUInt32 &&& operandMask :=
    UInt32.toBitVec_inj.mp BitVec.and_or_distrib_right
  show packWord o c x &&& operandMask ||| y.toUInt32 = packWord o c y
  rw [hsplit, operand_and_mask, operation_and_mask, UInt32.or_zero]
  rfl

/-- The instructions that jump forward. -/
inductive Forward : (UInt16 → Instr) → Prop
  | jump : Forward .jump
  | jumpIfFalse : Forward .jumpIfFalse

/-- Patching a forward jump gives the jump by another distance. -/
theorem Forward.patch {jump : UInt16 → Instr} (hj : Forward jump) (x y : UInt16) :
    setWordOperand (jump x).encode y = (jump y).encode := by
  cases hj <;> exact setWordOperand_packWord _ _ _ _

end ScriptMachine

namespace ScriptMachine.Compile

variable {W W' W'' : World} {s s' s'' : State} {before : Heap} {α β : Type}
  {pre mid post : List Slot}

/-- A step that emits `code` and adds no local. -/
structure Carries (before : Heap) (W W' : World) (s s' : State) (code : List UInt32) : Prop where
  emits : Emits before W W' s s' code
  locals : LocalsLe s.draft.locals s'.draft.locals

/-- Code emitted behind code is carried as one piece. -/
theorem Carries.trans {v w : List UInt32} (h : Carries before W W' s s' v)
    (h' : Carries before W' W'' s' s'' w) : Carries before W W'' s s'' (v ++ w) :=
  ⟨h.emits.trans h'.emits, h.locals.trans h'.locals⟩

/-- The state is ready for more code. -/
theorem Carries.ready {v : List UInt32} (h : Carries before W W' s s' v) : s'.Ready W' :=
  h.emits.ready

/-- The code grows by the words emitted. -/
theorem Carries.size {v : List UInt32} (h : Carries before W W' s s' v) :
    s'.draft.chunk.code.size = s.draft.chunk.code.size + v.length := by
  rw [← Array.length_toList, h.emits.code, List.length_append, Array.length_toList]

/-- What the code has shown before, it still shows. -/
theorem Carries.view_le {v : List UInt32} (h : Carries before W W' s s' v) (hr : s.Ready W) :
    (s.view W).Le (s'.view W') := h.emits.view_le hr h.locals

/-- A step that emits code of which `Q` holds, for the picture after the step and for every
picture that it grows to. -/
structure Compiles (before : Heap) (W W' : World) (s s' : State) (code : List UInt32)
    (Q : View → List UInt32 → Prop) : Prop extends Carries before W W' s s' code where
  runs : ∀ V, (s'.view W').Le V → Q V code

/-- Pieces of code compiled one after the other compile to both, if what they show joins. -/
theorem Compiles.trans {v w : List UInt32} {Q R S : View → List UInt32 → Prop}
    (h : Compiles before W W' s s' v Q) (h' : Compiles before W' W'' s' s'' w R)
    (hjoin : ∀ V v w, Q V v → R V w → S V (v ++ w)) : Compiles before W W'' s s'' (v ++ w) S where
  toCarries := h.toCarries.trans h'.toCarries
  runs := fun V hV => hjoin V v w (h.runs V ((h'.view_le h.ready).trans hV)) (h'.runs V hV)

/-- On a stack with `pre` on top of the locals and of any temporaries, code leads to `post`
instead. -/
def Through (pre post : List Slot) (V : View) (code : List UInt32) : Prop :=
  ∀ T, Fragment V.context (.plain (V.slots ++ T ++ pre)) code (.plain (V.slots ++ T ++ post))

/-- The height behind one piece is the height before the next. -/
theorem Through.append {V : View} {v w : List UInt32} (h : Through pre mid V v)
    (h' : Through mid post V w) : Through pre post V (v ++ w) := fun T => .append (h T) (h' T)

/-- Temporaries below stay where they are. -/
theorem Through.frame {V : View} {v : List UInt32} (h : Through pre post V v)
    (below : List Slot) : Through (below ++ pre) (below ++ post) V v := fun T => by
  have := h (T ++ below)
  simpa only [List.append_assoc] using this

/-- Something known of a state that stays known while code is emitted. -/
class Stable (K : World → State → Prop) : Prop where
  carry : ∀ {before : Heap} {W W' : World} {s s' : State} {code : List UInt32},
    Carries before W W' s s' code → s.Ready W → K W s → K W' s'

/-- Nothing is known. -/
def Always : World → State → Prop := fun _ _ => True

instance : Stable Always := ⟨fun _ _ _ => trivial⟩

/-- The constant `k` is the name `chars`. -/
def Named (k : UInt16) (chars : String) : World → State → Prop := fun W s =>
  (s.view W).context.Names k chars

/-- A name stays a name. -/
theorem names_mono {Γ Δ : CodeContext} {k : UInt16} {chars : String} (h : Γ.Names k chars)
    (hle : Γ.Le Δ) : Δ.Names k chars := by
  obtain ⟨more, hmore⟩ := hle.constants
  rw [CodeContext.Names, ← hmore, List.getElem?_append_left (List.getElem?_eq_some_iff.mp h).1]
  exact h

instance (k : UInt16) (chars : String) : Stable (Named k chars) :=
  ⟨fun hc hr hk => names_mono hk (hc.view_le hr).context⟩

/-- The innermost class has a superclass. -/
def InSubclass : World → State → Prop := fun _ s => true ∈ s.classes

instance : Stable InSubclass := ⟨fun hc _ hk => by
  rw [InSubclass, hc.emits.classes]
  exact hk⟩

/-- Both of two facts. -/
def Both (K L : World → State → Prop) : World → State → Prop := fun W s => K W s ∧ L W s

instance (K L : World → State → Prop) [Stable K] [Stable L] : Stable (Both K L) :=
  ⟨fun hc hr hk => ⟨Stable.carry hc hr hk.1, Stable.carry hc hr hk.2⟩⟩

/-- Knowing `K`, a step without errors emits code of which `Q` holds. -/
def Codes (K : World → State → Prop) (before : Heap) (s : State) (Q : View → List UInt32 → Prop) :
    α → State → Prop := fun _ s' =>
  ∀ W, s.Ready W → K W s → s'.errors = #[] → ∃ W' code, Compiles before W W' s s' code Q

/-- Knowing `K`, a step without errors emits nothing and finds out `P` of its answer. -/
def Learns (P : α → World → State → Prop) (K : World → State → Prop) (before : Heap) (s : State) :
    α → State → Prop := fun a s' =>
  ∀ W, s.Ready W → K W s → s'.errors = #[] → ∃ W', Carries before W W' s s' [] ∧ P a W' s'

/-- Knowing `K`, a step without errors emits code of which `Q` holds for its answer. -/
def Writes (before : Heap) (K : World → State → Prop) (x : Compiler α)
    (Q : α → View → List UInt32 → Prop) : Prop :=
  ∀ s, s.Live before → Does before s (x s) fun a => Codes K before s (Q a) a

/-- Knowing `K`, a step turns the temporaries `pre` into `post`. -/
abbrev Turns (before : Heap) (K : World → State → Prop) (x : Compiler α) (pre post : List Slot) :
    Prop := Writes before K x fun _ => Through pre post

/-- Knowing `K`, a step finds out `P` of its answer. -/
def Finds (before : Heap) (K : World → State → Prop) (x : Compiler α)
    (P : α → World → State → Prop) : Prop :=
  ∀ s, s.Live before → Does before s (x s) (Learns P K before s)

section Sequences

variable {K L : World → State → Prop} {x : Compiler α} {f : α → Compiler β}

/-- The code of one step after that of another. -/
theorem Writes.bind [Stable K] {Q : α → View → List UInt32 → Prop}
    {R : α → β → View → List UInt32 → Prop} {S : β → View → List UInt32 → Prop}
    (hx : Writes before K x Q) (hf : ∀ a, Writes before K (f a) (R a))
    (hjoin : ∀ a b V v w, Q a V v → R a b V w → S b V (v ++ w)) :
    Writes before K (x >>= f) S := by
  intro s hl
  refine (hx s hl).bind fun a s' hl' _ hc => (hf a s' hl').imp fun b s'' _ hlater hc' => ?_
  intro W hr hk hclean
  obtain ⟨W', v, hv⟩ := hc W hr hk (hlater.clean hclean)
  obtain ⟨W'', w, hw⟩ := hc' W' hv.ready (Stable.carry hv.toCarries hr hk) hclean
  exact ⟨W'', v ++ w, hv.trans hw (hjoin a b)⟩

/-- The effect of one step after that of another, which depends on its answer. -/
theorem Writes.turns [Stable K] {M : α → List Slot}
    (hx : Writes before K x fun a => Through pre (M a))
    (hf : ∀ a, Turns before K (f a) (M a) post) : Turns before K (x >>= f) pre post :=
  hx.bind hf fun _ _ _ _ _ => Through.append

/-- The effect of one step after that of another. -/
theorem Turns.bind [Stable K] (hx : Turns before K x pre mid)
    (hf : ∀ a, Turns before K (f a) mid post) : Turns before K (x >>= f) pre post :=
  Writes.turns hx hf

/-- What one step finds out is known in the next. -/
theorem Finds.bind [Stable K] {P : α → World → State → Prop} {Q : β → View → List UInt32 → Prop}
    (hx : Finds before K x P) (hf : ∀ a, Writes before (Both K (P a)) (f a) Q) :
    Writes before K (x >>= f) Q := by
  intro s hl
  refine (hx s hl).bind fun a s' hl' _ hc => (hf a s' hl').imp fun b s'' _ hlater hc' => ?_
  intro W hr hk hclean
  obtain ⟨W', hv, hp⟩ := hc W hr hk (hlater.clean hclean)
  obtain ⟨W'', w, hw⟩ := hc' W' hv.ready ⟨Stable.carry hv hr hk, hp⟩ hclean
  exact ⟨W'', w, ⟨hv.trans hw.toCarries, hw.runs⟩⟩

/-- Less may be said of the code. -/
theorem Writes.imp {Q R : α → View → List UInt32 → Prop} (hx : Writes before K x Q)
    (himp : ∀ a V w, Q a V w → R a V w) : Writes before K x R := by
  refine fun s hl => (hx s hl).imp fun a s' _ _ hc W hr hk hclean => ?_
  obtain ⟨W', w, hw⟩ := hc W hr hk hclean
  exact ⟨W', w, hw.toCarries, fun V hV => himp a V w (hw.runs V hV)⟩

/-- Temporaries below stay where they are. -/
theorem Turns.frame (hx : Turns before K x pre post) (below : List Slot) :
    Turns before K x (below ++ pre) (below ++ post) := hx.imp fun _ _ _ h => h.frame below

/-- More may be known. -/
theorem Writes.given {Q : α → View → List UInt32 → Prop} (hx : Writes before L x Q)
    (himp : ∀ W s, K W s → L W s) : Writes before K x Q :=
  fun s hl => (hx s hl).imp fun _ _ _ _ hc W hr hk => hc W hr (himp W s hk)

/-- A step that needs to know nothing. -/
theorem Writes.always {Q : α → View → List UInt32 → Prop} (hx : Writes before Always x Q) :
    Writes before K x Q := hx.given fun _ _ _ => trivial

/-- A step that stops emits whatever is asked for. -/
theorem writes_failBefore {p : Problem} {Q : α → View → List UInt32 → Prop} :
    Writes before K (failBefore p : Compiler α) Q := fun _ hl => does_failBefore hl

/-- A step that stops emits whatever is asked for. -/
theorem writes_failHere {p : Problem} {Q : α → View → List UInt32 → Prop} :
    Writes before K (failHere p : Compiler α) Q := fun _ hl => does_failHere hl

end Sequences

/-! ### Reading tokens -/

/-- Only the place among the tokens is another one. -/
def State.Moved (s s' : State) : Prop := ∃ pos, s' = { s with pos := pos }

/-- Every state has moved from itself by no token. -/
@[refl] theorem State.Moved.refl (s : State) : s.Moved s := ⟨s.pos, rfl⟩

/-- Moving twice is moving. -/
theorem State.Moved.trans (h : s.Moved s') (h' : s'.Moved s'') : s.Moved s'' := by
  obtain ⟨_, rfl⟩ := h
  obtain ⟨pos, rfl⟩ := h'
  exact ⟨pos, rfl⟩

/-- Moving leaves the code. -/
theorem State.Moved.draft (h : s.Moved s') : s'.draft = s.draft := by
  obtain ⟨_, rfl⟩ := h
  rfl

/-- Moving leaves the state ready. -/
theorem State.Moved.ready (h : s.Moved s') (hr : s.Ready W) : s'.Ready W := by
  obtain ⟨_, rfl⟩ := h
  exact ⟨hr.fits, hr.clean, hr.tokens, hr.drafts, hr.enclosing, hr.captures, hr.global, hr.super,
    hr.planted⟩

/-- Drafts stay as they are. -/
theorem outgrown_refl (ds : List Draft) : List.Forall₂ (Outgrown W W) ds ds :=
  List.forall₂_same.mpr fun _ _ =>
    ⟨⟨rfl, rfl, rfl, rfl, List.prefix_rfl, List.prefix_rfl⟩, rfl, rfl, .refl _⟩

/-- Moving emits nothing. -/
theorem State.Moved.emits (h : s.Moved s') (hr : s.Ready W) : Emits before W W s s' [] := by
  have hready := h.ready hr
  obtain ⟨_, rfl⟩ := h
  exact ⟨hready, rfl, ⟨rfl, rfl, rfl, rfl, List.prefix_rfl, List.prefix_rfl⟩, by simp,
    outgrown_refl _, rfl, fun _ _ _ ht => ht⟩

/-- Moving carries no word. -/
theorem State.Moved.carries (h : s.Moved s') (hr : s.Ready W) : Carries before W W s s' [] :=
  ⟨h.emits hr, h.draft ▸ .refl _⟩

/-- A form one level deeper emits what it emits. -/
theorem Writes.nested {K : World → State → Prop} {x : Compiler α}
    {Q : α → View → List UInt32 → Prop} (hx : Writes before K x Q)
    (hK : ∀ W s, K W s → K W s.deeper) : Writes before K (nested x) Q := by
  refine fun s hl => does_nested hl fun hl' => (hx s.deeper hl').imp fun a s' _ _ hc => ?_
  intro W hr hk hclean
  obtain ⟨W', code, h⟩ := hc W (hr.level _) (hK W s hk) hclean
  exact ⟨W', code, ⟨h.emits.shallower, h.locals⟩, h.runs⟩

/-- A step that only reads tokens. -/
def Reads (s : State) : α → State → Prop := fun _ s' => s.Moved s'

/-- What holds of no code holds after a step that only reads tokens. -/
theorem writes_of_reads {K : World → State → Prop} {x : Compiler α}
    {Q : α → View → List UInt32 → Prop} (hx : ∀ s, s.Live before → Does before s (x s) (Reads s))
    (hQ : ∀ a V, Q a V []) : Writes before K x Q :=
  fun s hl => (hx s hl).imp fun a _ _ _ hm _ hr _ _ => ⟨_, _, hm.carries hr, fun V _ => hQ a V⟩

/-- A step after one that only reads tokens. -/
theorem Writes.after_reads {K : World → State → Prop} [Stable K] {x : Compiler α}
    {f : α → Compiler β} {Q : β → View → List UInt32 → Prop}
    (hx : ∀ s, s.Live before → Does before s (x s) (Reads s))
    (hf : ∀ a, Writes before K (f a) Q) : Writes before K (x >>= f) Q :=
  (writes_of_reads (Q := fun _ _ w => w = []) hx fun _ _ => rfl).bind hf
    fun _ _ _ _ _ hv hw => hv ▸ hw

/-- What holds of no code holds when nothing is done. -/
theorem writes_pure {K : World → State → Prop} {a : α} {Q : α → View → List UInt32 → Prop}
    (hQ : ∀ V, Q a V []) : Writes before K (pure a) Q := fun _ hl =>
  does_pure hl fun W hr _ _ => ⟨W, _, State.Moved.carries (.refl _) hr, fun V _ => hQ V⟩

/-- What only reads tokens leaves the height. -/
theorem turns_of_reads {K : World → State → Prop} {x : Compiler α}
    (hx : ∀ s, s.Live before → Does before s (x s) (Reads s)) : Turns before K x pre pre :=
  writes_of_reads hx fun _ _ _ => .nil (.refl _)

/-- Going past a token only reads. -/
theorem does_advance (hl : s.Live before) : Does before s (advance s) (Reads s) :=
  does_modify hl (.refl _) ⟨rfl, rfl, Nat.le_refl _⟩ (fun d hd => ⟨d, hd, rfl, fun _ => id⟩)
    ⟨_, rfl⟩

/-- A step that reads tokens before one that reads tokens. -/
theorem Does.then_reads {x : Compiler α} {f : α → Compiler β} (hx : Does before s (x s) (Reads s))
    (hf : ∀ a s', s'.Live before → Does before s' (f a s') (Reads s')) :
    Does before s ((x >>= f) s) (Reads s) :=
  hx.bind fun a s' hl' _ hm => (hf a s' hl').imp fun _ _ _ _ hm' => hm.trans hm'

/-- A look only reads. -/
theorem does_look_reads {f : State → α} (hl : s.Live before) :
    Does before s (look f s) (Reads s) := does_look hl (.refl s)

/-- Giving a value back only reads. -/
theorem does_pure_reads {a : α} (hl : s.Live before) :
    Does before s ((pure a : Compiler α) s) (Reads s) := does_pure hl (.refl s)

/-- A symbol or a reserved word is gone past if it was found. -/
theorem does_advanceIf {hit : Bool} (hl : s.Live before) :
    Does before s ((do
      if hit then advance
      return hit : Compiler Bool) s) (Reads s) := by
  cases hit with
  | true => exact (does_advance hl).then_reads fun _ _ hl' => does_pure_reads hl'
  | false => exact does_pure_reads hl

/-- A look for a symbol only reads. -/
theorem does_check {symbol : Symbol} (hl : s.Live before) :
    Does before s (check symbol s) (Reads s) := does_look_reads hl

/-- Going past a symbol that may be there only reads. -/
theorem does_accept {symbol : Symbol} (hl : s.Live before) :
    Does before s (accept symbol s) (Reads s) :=
  (does_check hl).then_reads fun _ _ hl' => does_advanceIf hl'

/-- Going past a reserved word that may be there only reads. -/
theorem does_acceptKeyword {keyword : Keyword} (hl : s.Live before) :
    Does before s (acceptKeyword keyword s) (Reads s) :=
  (does_look_reads hl).then_reads fun _ _ hl' => does_advanceIf hl'

/-- Going past a symbol where it is allowed only reads. -/
theorem does_acceptIf {allowed : Bool} {symbol : Symbol} (hl : s.Live before) :
    Does before s (acceptIf allowed symbol s) (Reads s) := by
  unfold acceptIf
  split
  · exact does_accept hl
  · exact does_pure_reads hl

/-- Going past a symbol that has to be there only reads. -/
theorem does_expect {symbol : Symbol} {what : Expectation} (hl : s.Live before) :
    Does before s (expect symbol what s) (Reads s) :=
  (does_accept hl).then_reads fun hit _ hl' => by
    cases hit with
    | true => exact does_pure_reads hl'
    | false => exact does_failExpected hl'

/-- Going past a reserved word that has to be there only reads. -/
theorem does_expectKeyword {keyword : Keyword} {what : Expectation} (hl : s.Live before) :
    Does before s (expectKeyword keyword what s) (Reads s) :=
  (does_acceptKeyword hl).then_reads fun hit _ hl' => by
    cases hit with
    | true => exact does_pure_reads hl'
    | false => exact does_failExpected hl'

/-- Every token that is a name is one that a source can spell. -/
theorem State.Ready.peek {spelling : String} (hr : s.Ready W)
    (hpeek : s.peek? = some (.name spelling)) : Spelled spelling := by
  obtain ⟨l, hlexeme, hl⟩ := Option.map_eq_some_iff.mp hpeek
  exact (hr.tokens l (Array.mem_of_getElem? hlexeme)).name spelling hl

/-- A name that is read is spelled as names are. -/
theorem does_expectName {what : Expectation} (hl : s.Live before) :
    Does before s (expectName what s) fun name s' =>
      s.Moved s' ∧ ∀ W, s.Ready W → Spelled name := by
  refine (does_look (f := State.peek?) (Q := fun t s' => s.Moved s' ∧ t = s.peek?) hl
    ⟨.refl s, rfl⟩).bind fun token s' hl' _ htoken => ?_
  obtain ⟨hm, htoken⟩ := htoken
  split
  · exact (does_advance hl').bind fun _ s'' hl'' _ hm' =>
      does_pure hl'' ⟨hm.trans hm', fun W hr => hr.peek htoken.symm⟩
  · exact does_failExpected hl'

/-- The next token, where it is a name, is spelled as names are. -/
theorem does_next? (hl : s.Live before) : Does before s (next? s) fun token s' =>
    s.Moved s' ∧ ∀ W, s.Ready W → ∀ spelling, token = some (.name spelling) → Spelled spelling := by
  refine (does_look (f := State.peek?) (Q := fun t s' => s.Moved s' ∧ t = s.peek?) hl
    ⟨.refl s, rfl⟩).bind fun token s' hl' _ htoken => ?_
  obtain ⟨hm, htoken⟩ := htoken
  have hname (W : World) (hr : s.Ready W) (spelling : String)
      (hspelling : token = some (.name spelling)) : Spelled spelling :=
    hr.peek (htoken ▸ hspelling)
  cases token with
  | none => exact does_pure hl' ⟨hm, hname⟩
  | some token =>
    exact (does_advance hl').bind fun _ s'' hl'' _ hm' => does_pure hl'' ⟨hm.trans hm', hname⟩

/-- The operator of a compound assignment takes two operands. -/
theorem plain_of_compound {t : Token} {i : Instr} (h : compound? t = some i) (Γ : CodeContext) :
    Plain Γ i 2 1 := by
  unfold compound? at h
  split at h
  · exact Option.some.inj h ▸ .add
  · exact Option.some.inj h ▸ .subtract
  · exact Option.some.inj h ▸ .multiply
  · exact Option.some.inj h ▸ .divide
  · cases h

/-- The instruction of an assignment by an operator takes two values and leaves one. -/
theorem does_acceptCompound {allowed : Bool} (hl : s.Live before) :
    Does before s (acceptCompound allowed s) fun op s' =>
      s.Moved s' ∧ ∀ i, op = some i → ∀ Γ, Plain Γ i 2 1 := by
  unfold acceptCompound
  split
  · refine (does_look (f := fun s => s.peek?.bind compound?)
      (Q := fun op s' => s.Moved s' ∧ ∀ i, op = some i → ∀ Γ, Plain Γ i 2 1) hl
      ⟨.refl s, fun i hi => ?_⟩).bind fun op s' hl' _ h => ?_
    · obtain ⟨t, -, ht⟩ := Option.bind_eq_some_iff.mp hi
      exact plain_of_compound ht
    · cases op with
      | none => exact does_pure hl' h
      | some op =>
        exact (does_advance hl').bind fun _ s'' hl'' _ hm => does_pure hl'' ⟨h.1.trans hm, h.2⟩
  · exact does_pure hl ⟨.refl s, by simp⟩

/-! ### Emitting words -/

/-- The state with other code in its innermost draft. -/
def State.recode (s : State) (code : Array UInt32) (lines : Array UInt32) : State :=
  { s with draft := { s.draft with
      chunk := { s.draft.chunk with code := code, lines := lines } } }

/-- A change of the code alone leaves the constants live. -/
theorem State.Live.recode (hl : s.Live before) (code : Array UInt32) (lines : Array UInt32) :
    (s.recode code lines).Live before := by
  refine hl.change (.refl _) rfl ?_
  intro d hd
  rcases List.mem_cons.mp hd with rfl | hd
  · exact ⟨s.draft, List.mem_cons_self, rfl, fun _ => id⟩
  · exact ⟨d, List.mem_cons_of_mem _ hd, rfl, fun _ => id⟩

/-- A change of the code alone leaves the heap. -/
theorem State.Later.recode (code : Array UInt32) (lines : Array UInt32) :
    s.Later (s.recode code lines) := ⟨rfl, rfl, Nat.le_refl _⟩

/-- `lines` are those of the innermost draft and, for `n` more words, the line that code is emitted
for. -/
def State.Relines (s : State) (n : Nat) (lines : Array UInt32) : Prop :=
  lines = s.draft.chunk.lines ++ Array.replicate n s.line

/-- Words that are emitted with their lines leave each word with its line. -/
theorem State.Relines.lined {code : Array UInt32} {lines : Array UInt32} {n : Nat}
    (h : s.Relines n lines) (hr : s.Ready W) (hcode : code.size = s.draft.chunk.code.size + n) :
    { s.draft.chunk with code := code, lines := lines }.Lined :=
  h ▸ (hr.drafts s.draft List.mem_cons_self).lines.append hcode

/-- Emitting goes on for the same line. -/
theorem State.Relines.trans {code : Array UInt32} {lines lines' : Array UInt32} {n k : Nat}
    (h : s.Relines n lines) (h' : (s.recode code lines).Relines k lines') :
    s.Relines (n + k) lines' := by
  rw [State.Relines, ← Array.replicate_append_replicate, ← Array.append_assoc, ← h]
  exact h'

/-- Code with a line for each word leaves the state ready. -/
theorem State.Ready.recode {code : Array UInt32} {lines : Array UInt32} (hr : s.Ready W)
    (hlines : { s.draft.chunk with code := code, lines := lines }.Lined) :
    (s.recode code lines).Ready W := by
  have hd := hr.drafts s.draft List.mem_cons_self
  exact hr.redraft ⟨hd.name, hd.constants, hd.pool, hd.few, hlines, hd.slots, hd.variables_,
    hd.settled, hd.inhabited, hd.depth⟩ hr.captures.1 hr.global (fun l hl hname => ⟨l, hl, hname⟩)
    (hr.replanted rfl)

/-- The picture is not about the code. -/
@[simp] theorem State.view_recode (s : State) (code : Array UInt32) (lines : Array UInt32) :
    (s.recode code lines).view W = s.view W := rfl

/-- Words put behind the code, with their lines, are emitted. -/
theorem emits_recode {code : Array UInt32} {lines : Array UInt32} {w : List UInt32} (hr : s.Ready W)
    (hcode : code.toList = s.draft.chunk.code.toList ++ w) (hlines : s.Relines w.length lines) :
    Emits before W W s (s.recode code lines) w :=
  ⟨hr.recode (hlines.lined hr (by rw [← Array.length_toList, hcode]; simp)), rfl, ⟨rfl, rfl, rfl, rfl, List.prefix_rfl, List.prefix_rfl⟩, hcode,
    outgrown_refl _, rfl, fun _ _ _ ht => ht⟩

/-- A word was emitted. -/
def State.Emitted (s : State) (w : UInt32) : α → State → Prop := fun _ s' =>
  ∃ lines, s.Relines 1 lines ∧ s' = s.recode (s.draft.chunk.code.push w) lines

/-- An instruction is emitted as the word it is encoded by. -/
theorem does_emit {i : Instr} (hl : s.Live before) :
    Does before s (emit i s) (s.Emitted i.encode) :=
  .ok (hl.recode _ _) (.recode _ _) ⟨_, rfl, rfl⟩

/-- A word emitted is carried. -/
theorem State.Emitted.carries {w : UInt32} {a : α} (h : s.Emitted w a s') (hr : s.Ready W) :
    Carries before W W s s' [w] := by
  obtain ⟨lines, hlines, rfl⟩ := h
  exact ⟨emits_recode hr (by simp) hlines, .refl _⟩

/-- What has to hold of an instruction for it to be emitted: it turns `pre` into `post` on the
stack as it is pictured, now or later. -/
def May (K : World → State → Prop) (i : Instr) (pre post : List Slot) : Prop :=
  ∀ W s, s.Ready W → K W s → ∀ V, (s.view W).Le V → Through pre post V [i.encode]

/-- An instruction turns the height as it is allowed to. -/
theorem turns_emit {K : World → State → Prop} {i : Instr} (hi : May K i pre post) :
    Turns before K (emit i) pre post := by
  intro s hl
  refine (does_emit hl).imp fun a s' _ _ he W hr hk _ => ⟨W, [i.encode], he.carries hr, ?_⟩
  obtain ⟨lines, -, rfl⟩ := he
  exact hi W s hr hk

/-- The stack as it is pictured has at least slot zero. -/
theorem State.Ready.slots_ne_nil {V : View} (hr : s.Ready W) (hV : (s.view W).Le V) :
    V.slots ≠ [] := by
  have hd := (hr.drafts s.draft List.mem_cons_self).inhabited
  intro h
  have := hV.slots.length_eq
  rw [h, List.length_nil, List.length_eq_zero_iff] at this
  exact hd this

/-- An instruction that takes and leaves temporaries may be emitted. -/
theorem may_of_plain {K : World → State → Prop} {i : Instr} (n k : Nat)
    (h : ∀ W s, s.Ready W → K W s → ∀ V, (s.view W).Le V → Plain V.context i n k) :
    May K i (List.replicate n .value) (List.replicate k .value) := by
  intro W s hr hk V hV T
  have hne : V.slots ++ T ≠ [] := by simp [hr.slots_ne_nil hV]
  exact .instr (.plain (g := none) (h W s hr hk V hV) hne)

/-- An instruction that needs no context may always be emitted. -/
theorem may_of_simple {K : World → State → Prop} {i : Instr} (n k : Nat)
    (h : ∀ Γ, Plain Γ i n k) : May K i (List.replicate n .value) (List.replicate k .value) :=
  may_of_plain n k fun _ _ _ _ V _ => h V.context

/-! ### Jumps -/

/-- The place reached is the size of the code. -/
theorem does_here (hl : s.Live before) :
    Does before s (here s) fun at_ s' => s' = s ∧ at_ = s.draft.chunk.code.size :=
  does_look hl ⟨rfl, rfl⟩

/-- A jump without its distance was emitted at the offset answered. -/
theorem does_emitJump {jump : UInt16 → Instr} (hl : s.Live before) :
    Does before s (emitJump jump s) fun at_ s' =>
      at_ = s.draft.chunk.code.size ∧ s.Emitted (jump 0xFFFF).encode at_ s' := by
  refine (does_here hl).bind fun at_ s' hl' _ hat => ?_
  obtain ⟨rfl, rfl⟩ := hat
  exact (does_emit hl').bind fun _ s'' hl'' _ he => does_pure hl'' ⟨rfl, he⟩

/-- The jump at an offset got its distance to the end of the code. -/
def State.Patched (s : State) (at_ : Nat) : Unit → State → Prop := fun _ s' =>
  s.draft.chunk.code.size - at_ - 1 ≤ Chunk.maxDistance ∧
    s' = s.recode (s.draft.chunk.code.modify at_
      (setWordOperand · (s.draft.chunk.code.size - at_ - 1).toUInt16)) s.draft.chunk.lines

/-- A jump is patched where it stands, or is too long. -/
theorem does_patchJump {at_ : Nat} (hl : s.Live before) :
    Does before s (patchJump at_ s) (s.Patched at_) := by
  refine (does_here hl).bind fun size s' hl' _ hsize => ?_
  obtain ⟨rfl, rfl⟩ := hsize
  by_cases hfar : s'.draft.chunk.code.size - at_ - 1 > Chunk.maxDistance
  · rw [if_pos hfar]
    exact (does_failBefore (Q := fun _ _ => False) hl').bind fun _ _ _ _ h => h.elim
  · rw [if_neg hfar]
    exact .ok (hl'.recode _ _) (.recode _ _) ⟨Nat.le_of_not_lt hfar, rfl⟩

/-- A change in the middle of a list leaves both sides. -/
theorem modify_middle {α : Type} (a : List α) (x : α) (b : List α) (f : α → α) :
    (a ++ x :: b).modify a.length f = a ++ f x :: b := by
  induction a with
  | nil => rfl
  | cons y a ih => simpa using ih

/-- Patching a jump completes the code that it is part of. -/
theorem Carries.patch {jump : UInt16 → Instr} {v w : List UInt32} {at_ : Nat} (hj : Forward jump)
    (h : Carries before W W' s s' (v ++ (jump 0xFFFF).encode :: w))
    (hat : at_ = s.draft.chunk.code.size + v.length) (hp : s'.Patched at_ () s'') :
    w.length ≤ Chunk.maxDistance ∧
      Carries before W W' s s'' (v ++ jumpWord jump w.length :: w) := by
  obtain ⟨hnear, rfl⟩ := hp
  have hcode := h.emits.code
  have hsize : s'.draft.chunk.code.size - at_ - 1 = w.length := by
    rw [← Array.length_toList, hcode, hat]
    simp
    omega
  rw [hsize] at hnear ⊢
  have hmodify : (s'.draft.chunk.code.modify at_
      (setWordOperand · w.length.toUInt16)).toList =
      s.draft.chunk.code.toList ++ (v ++ jumpWord jump w.length :: w) := by
    have hlength : at_ = (s.draft.chunk.code.toList ++ v).length := by simp [hat]
    rw [Array.toList_modify, hcode, ← List.append_assoc, hlength, modify_middle, hj.patch]
    simp [jumpWord]
  have hlines := (h.ready.drafts s'.draft List.mem_cons_self).lines
  have hd := h.emits.draft
  exact ⟨hnear, ⟨⟨h.ready.recode ⟨by simpa using hlines.size⟩, h.emits.outer,
    ⟨hd.kind, hd.name, hd.arity, hd.scopeDepth, hd.constants, hd.captures⟩, hmodify,
    h.emits.enclosing, h.emits.classes, h.emits.kept⟩, h.locals⟩⟩

/-- A patched jump leaves the picture as it is. -/
theorem State.Patched.view {at_ : Nat} (hp : s.Patched at_ () s') : s'.view W = s.view W := by
  obtain ⟨-, rfl⟩ := hp
  rfl

/-- A jump back over the code from `start` on was emitted. -/
def State.Looped (s : State) (start : Nat) : Unit → State → Prop := fun a s' =>
  s.draft.chunk.code.size + 1 - start ≤ Chunk.maxDistance ∧
    s.Emitted (jumpWord .loop (s.draft.chunk.code.size + 1 - start)) a s'

/-- A jump backward is emitted, or is too long. -/
theorem does_emitLoop {start : Nat} (hl : s.Live before) :
    Does before s (emitLoop start s) (s.Looped start) := by
  refine (does_here hl).bind fun size s' hl' _ hsize => ?_
  obtain ⟨rfl, rfl⟩ := hsize
  by_cases hfar : s'.draft.chunk.code.size + 1 - start > Chunk.maxDistance
  · rw [if_pos hfar]
    exact (does_failBefore (Q := fun _ _ => False) hl').bind fun _ _ _ _ h => h.elim
  · rw [if_neg hfar]
    exact (does_emit hl').imp fun _ _ _ _ he => ⟨Nat.le_of_not_lt hfar, he⟩

end ScriptMachine.Compile
