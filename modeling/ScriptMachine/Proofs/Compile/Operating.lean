import ScriptMachine.Proofs.Compile.Script
import ScriptMachine.Proofs.Heap.Account
import ScriptMachine.Proofs.Source.Positions

/-!
# Compiling works by heap operations

The compiler touches its heap where it interns a text, allocates a function or keeps an event.
Every form of the grammar is composed of such steps, so whatever it compiles, and whether it
compiles, the heap afterwards is what some operations made of the heap before. What it emits is
emitted for the lines of its tokens: where these are counted from 1, so are the lines of every
function that it allocates.
-/

namespace ScriptMachine.Compile

/-- Whether a stop is a fault. -/
def Stop.IsFault : Stop → Prop
  | .problem _ => False
  | .fault _ => True

/-- The heap of the compiler beside the globals of its caller. -/
def State.memory (g : Table) (s : State) : Memory := ⟨s.heap, g⟩

/-- Every line that code is emitted for, or was emitted for, is counted from 1. -/
structure State.LinesFromOne (s : State) : Prop where
  tokens : ∀ l ∈ s.tokens, 1 ≤ l.line
  drafts : ∀ d ∈ s.drafts, d.chunk.LinesFromOne
  heap : s.heap.LinesFromOne

/-- Operations lead from the heap of one state to that of another, and the lines are still counted
from 1. -/
structure State.Evolves (g : Table) (s s' : State) : Prop where
  path : (s.memory g).Path (s'.memory g)
  lines : s.LinesFromOne → s'.LinesFromOne

/-- Every state evolves to itself. -/
theorem State.Evolves.refl (g : Table) (s : State) : s.Evolves g s := ⟨.refl _, id⟩

/-- Evolving twice is evolving. -/
theorem State.Evolves.trans {g : Table} {s s' s'' : State} (h : s.Evolves g s')
    (h' : s'.Evolves g s'') : s.Evolves g s'' := ⟨h.path.trans h'.path, h'.lines ∘ h.lines⟩

/-- The states that a state evolves into follow it. -/
@[reducible] def State.evolving (g : Table) : Preorder State where
  le := State.Evolves g
  le_refl := .refl g
  le_trans _ _ _ h h' := State.Evolves.trans h h'

/-- A step of the compiler works by heap operations, unless it faults. -/
abbrev Works {α : Type} (g : Table) (x : Compiler α) : Prop :=
  Operates Stop.IsFault (State.evolving g) x

variable {α : Type} (g : Table)

/-! ### Steps -/

/-- The line that code is emitted for is that of a token, or the first one. -/
theorem State.LinesFromOne.line {s : State} (hs : s.LinesFromOne) : 1 ≤ s.line := by
  have htoken {i : Nat} {l : Lexeme} (hl : s.tokens[i]? = some l) : 1 ≤ l.line :=
    hs.tokens l (Array.mem_of_getElem? hl)
  unfold State.line State.previous?
  split
  · next hl =>
    split at hl
    · cases hl
    · exact htoken hl
  · cases hfirst : s.tokens[0]? with
    | none => exact UInt32.le_refl 1
    | some l => exact htoken hfirst

/-- A change of the drafts in which every draft has the lines of one that was there. -/
theorem State.LinesFromOne.change {s : State} {draft : Draft} {enclosing : List Draft}
    (hs : s.LinesFromOne)
    (hd : ∀ d ∈ draft :: enclosing, ∃ d₀ ∈ s.drafts, d.chunk.lines = d₀.chunk.lines) :
    { s with draft := draft, enclosing := enclosing }.LinesFromOne where
  tokens := hs.tokens
  drafts d hmem := by
    obtain ⟨d₀, hd₀, hlines⟩ := hd d hmem
    rw [Chunk.LinesFromOne, hlines]
    exact hs.drafts d₀ hd₀
  heap := hs.heap

/-- A change of the innermost draft. -/
theorem State.LinesFromOne.draft {s : State} {d : Draft} (hs : s.LinesFromOne)
    (hd : d.chunk.LinesFromOne) : { s with draft := d }.LinesFromOne where
  tokens := hs.tokens
  drafts := List.forall_mem_cons.mpr ⟨hd, (List.forall_mem_cons.mp hs.drafts).2⟩
  heap := hs.heap

/-- A word more, emitted for a line. -/
theorem Chunk.LinesFromOne.push {c : Chunk} {line : UInt32} (hc : c.LinesFromOne)
    (hline : 1 ≤ line) (word : UInt32) : (c.push word line).LinesFromOne := by
  intro l hl
  rcases Array.mem_push.mp hl with hl | rfl
  · exact hc l hl
  · exact hline

instance works_look (f : State → α) : Works g (look f) := operates_of_ok fun s =>
  ⟨f s, s, rfl, .refl g s⟩

instance works_failHere (p : Problem) : Works g (failHere p : Compiler α) where
  ok h := by cases h
  error h _ := by
    cases h
    exact .refl g _

instance works_nested (form : Compiler α) [hform : Works g form] : Works g (nested form) where
  ok {s _ _} h := by
    obtain ⟨-, s₁, hr, rfl⟩ := nested_ok_iff.mp h
    have hevolves : s.deeper.Evolves g s₁ := hform.ok hr
    refine ⟨hevolves.path, fun hs => ?_⟩
    obtain ⟨htokens, hdrafts, hheap⟩ := hevolves.lines ⟨hs.tokens, hs.drafts, hs.heap⟩
    exact ⟨htokens, hdrafts, hheap⟩
  error {s _ _} h hkept := by
    rcases nested_error_iff.mp h with ⟨-, -, rfl⟩ | ⟨-, s₁, hr, rfl⟩
    · exact .refl g _
    · have hevolves : s.deeper.Evolves g s₁ := hform.error hr hkept
      refine ⟨hevolves.path, fun hs => ?_⟩
      obtain ⟨htokens, hdrafts, hheap⟩ := hevolves.lines ⟨hs.tokens, hs.drafts, hs.heap⟩
      exact ⟨htokens, hdrafts, hheap⟩

instance works_failBefore (p : Problem) : Works g (failBefore p : Compiler α) where
  ok h := by cases h
  error h _ := by
    cases h
    exact .refl g _

instance works_advance : Works g advance :=
  operates_modify fun _ => ⟨.refl _, fun hs => ⟨hs.tokens, hs.drafts, hs.heap⟩⟩

/-- A change of a draft that emits nothing. -/
class Lineless (f : Draft → Draft) : Prop where
  lines : ∀ d, (f d).chunk.lines = d.chunk.lines

instance works_modifyDraft (f : Draft → Draft) [hf : Lineless f] : Works g (modifyDraft f) :=
  operates_modify fun s => ⟨.refl _, fun hs => hs.change <| List.forall_mem_cons.mpr
    ⟨⟨s.draft, List.mem_cons_self, hf.lines s.draft⟩,
      fun d hd => ⟨d, List.mem_cons_of_mem _ hd, rfl⟩⟩⟩

instance lineless_arity (arity : UInt8) : Lineless fun d => { d with arity := arity } :=
  ⟨fun _ => rfl⟩

instance lineless_scopeDepth (f : Draft → Nat) : Lineless fun d => { d with scopeDepth := f d } :=
  ⟨fun _ => rfl⟩

instance lineless_locals (ls : List Local) : Lineless fun d => { d with locals := ls } :=
  ⟨fun _ => rfl⟩

instance lineless_patch (at_ : Nat) (operand : UInt16) :
    Lineless fun d => { d with chunk := d.chunk.patch at_ operand } := ⟨fun _ => rfl⟩

instance lineless_pushConstant (v : Value) (index : UInt16) : Lineless fun d =>
    { d with chunk := d.chunk.pushConstant v, pool := d.pool.insert v.bits index } := ⟨fun _ => rfl⟩

instance lineless_declare (name : String) (span : Source.Span) :
    Lineless (·.declare name span) := ⟨fun _ => rfl⟩

instance lineless_markInitialized : Lineless Draft.markInitialized := ⟨fun d => by
  unfold Draft.markInitialized
  split
  · rfl
  · split <;> rfl⟩

instance works_next : Works g next? := by
  dsimp only [next?]
  infer_instance

instance works_check (symbol : Symbol) : Works g (check symbol) := works_look g _

instance works_accept (symbol : Symbol) : Works g (accept symbol) := by
  dsimp only [accept]
  infer_instance

instance works_acceptKeyword (keyword : Keyword) : Works g (acceptKeyword keyword) := by
  dsimp only [acceptKeyword]
  infer_instance

instance works_acceptIf (allowed : Bool) (symbol : Symbol) : Works g (acceptIf allowed symbol) := by
  dsimp only [acceptIf]
  infer_instance

instance works_failExpected (what : Expectation) : Works g (failExpected what : Compiler α) := by
  dsimp only [failExpected]
  infer_instance

instance works_expect (symbol : Symbol) (what : Expectation) : Works g (expect symbol what) := by
  dsimp only [expect]
  infer_instance

instance works_expectKeyword (keyword : Keyword) (what : Expectation) :
    Works g (expectKeyword keyword what) := by
  dsimp only [expectKeyword]
  infer_instance

instance works_expectName (what : Expectation) : Works g (expectName what) :=
  (works_look g _).bind fun token => by split <;> infer_instance

instance works_emit (i : Instr) : Works g (emit i) := operates_of_ok fun _ =>
  ⟨(), _, rfl, .refl _, fun hs => hs.draft
    (Chunk.LinesFromOne.push (hs.drafts _ List.mem_cons_self) hs.line i.encode)⟩

instance works_emitAll (code : List Instr) : Works g (emitAll code) := by
  induction code with
  | nil => exact operates_pure ()
  | cons i rest ih =>
    rw [emitAll]
    infer_instance

instance works_here : Works g here := works_look g _

instance works_emitJump (jump : UInt16 → Instr) : Works g (emitJump jump) := by
  dsimp only [emitJump]
  infer_instance

instance works_patchJump (at_ : Nat) : Works g (patchJump at_) := by
  dsimp only [patchJump]
  infer_instance

instance works_emitLoop (start : Nat) : Works g (emitLoop start) := by
  dsimp only [emitLoop]
  infer_instance

instance works_emitReturn : Works g emitReturn := by
  dsimp only [emitReturn]
  infer_instance

instance works_makeConstant (v : Value) : Works g (makeConstant v) :=
  (works_look g _).bind fun index => by
    split
    · infer_instance
    · dsimp only
      infer_instance

instance works_emitConstant (v : Value) : Works g (emitConstant v) := by
  dsimp only [emitConstant]
  infer_instance

instance works_intern (chars : String) : Works g (intern chars) where
  ok {s r s'} h := by
    unfold intern at h
    dsimp only at h
    split at h
    · next hdone =>
      obtain ⟨rfl, rfl⟩ := EStateM.Result.ok.inj h
      have hevolves : Memory.Evolves ⟨s.heap, g⟩ ⟨_, g⟩ := Memory.evolves_intern g hdone
      exact ⟨hevolves.path, fun hs => ⟨hs.tokens, hs.drafts, hevolves.lines hs.heap⟩⟩
    · cases h
  error {s e s'} h hkept := by
    unfold intern at h
    dsimp only at h
    split at h
    · cases h
    · cases h
      exact absurd trivial hkept

instance works_nameConstant (name : String) : Works g (nameConstant name) := by
  dsimp only [nameConstant]
  infer_instance

instance works_beginFunction (kind : FunctionKind) (name : Handle) :
    Works g (beginFunction kind name) := operates_modify fun _ => ⟨.refl _, fun hs =>
  { tokens := hs.tokens
    drafts := List.forall_mem_cons.mpr ⟨fun _ hl => absurd hl (Array.not_mem_empty _), hs.drafts⟩
    heap := hs.heap }⟩

instance works_finishFunction : Works g finishFunction where
  ok {s r s'} h := by
    unfold finishFunction at h
    dsimp only at h
    split at h
    · cases h
    · split at h
      · cases h
      · next hdone =>
        have hnoted := Memory.evolves_note s.heap g .debug
        have hpath := (hnoted _).path.trans (Memory.path_alloc g hdone)
        have hheap (hs : s.LinesFromOne) := Heap.LinesFromOne.alloc
          (o := .function s.draft.prototype) ((hnoted _).lines hs.heap)
          (hs.drafts _ List.mem_cons_self) hdone
        split at h
        · obtain ⟨rfl, rfl⟩ := EStateM.Result.ok.inj h
          exact ⟨hpath, fun hs => ⟨hs.tokens, hs.drafts, hheap hs⟩⟩
        · next heq =>
          obtain ⟨rfl, rfl⟩ := EStateM.Result.ok.inj h
          refine ⟨hpath, fun hs => ⟨hs.tokens, fun d hd => ?_, hheap hs⟩⟩
          exact hs.drafts d (List.mem_cons_of_mem _ (heq ▸ hd))
  error {s e s'} h hkept := by
    unfold finishFunction at h
    dsimp only at h
    split at h
    · cases h
      exact absurd trivial hkept
    · split at h
      · cases h
        exact absurd trivial hkept
      · split at h <;> cases h

/-! ### Scopes and names -/

instance works_beginScope : Works g beginScope := works_modifyDraft g _

instance works_endScope : Works g endScope := by
  dsimp only [endScope]
  infer_instance

instance works_addLocal (name : String) (span : Source.Span) : Works g (addLocal name span) := by
  dsimp only [addLocal]
  infer_instance

instance works_declareVariable (name : String) : Works g (declareVariable name) := by
  dsimp only [declareVariable]
  refine (works_look g _).bind fun depth => ?_
  split
  · exact (works_look g _).bind fun first => by split <;> infer_instance
  · infer_instance

instance works_declareName (what : Expectation) : Works g (declareName what) := by
  dsimp only [declareName]
  infer_instance

instance works_markInitialized : Works g markInitialized := works_modifyDraft g _

instance works_defineVariable (global : UInt16) : Works g (defineVariable global) := by
  dsimp only [defineVariable]
  infer_instance

/-- Captures emit nothing. -/
theorem evolves_captured (s : State) (name : String) : s.Evolves g { s with
    draft := (Draft.resolveCapture name s.draft s.enclosing).2.1
    enclosing := (Draft.resolveCapture name s.draft s.enclosing).2.2 } where
  path := .refl _
  lines hs := by
    have hcaptured := resolveCapture_spec name s.enclosing s.draft
    obtain ⟨captures, hinner, -⟩ := hcaptured.innermost
    refine hs.change (List.forall_mem_cons.mpr ⟨⟨s.draft, List.mem_cons_self, by rw [hinner]⟩, ?_⟩)
    intro d hd
    obtain ⟨d₀, hd₀, locals, captures, rfl, -⟩ := exists_of_mem_right hcaptured.around hd
    exact ⟨d₀, List.mem_cons_of_mem _ hd₀, rfl⟩

instance works_captureVariable (name : String) : Works g (captureVariable name) where
  ok {s r s'} h := by
    have hevolves := evolves_captured g s name
    unfold captureVariable at h
    dsimp only at h
    split at h
    · obtain ⟨rfl, rfl⟩ := EStateM.Result.ok.inj h
      exact hevolves
    · cases h
  error {s e s'} h hkept := by
    have hevolves := evolves_captured g s name
    unfold captureVariable at h
    dsimp only at h
    split at h
    · cases h
    · cases h
      exact hevolves

instance works_resolve (name : String) : Works g (resolve name) := by
  refine (works_look g _).bind fun found => ?_
  split
  · infer_instance
  · infer_instance
  · exact (works_captureVariable g name).bind fun index => by split <;> infer_instance

/-! ### Expressions -/

instance works_acceptCompound (allowed : Bool) : Works g (acceptCompound allowed) := by
  dsimp only [acceptCompound]
  infer_instance

section Expressions

variable (nested : Precedence → Compiler Unit) [∀ p, Works g (nested p)]

instance works_nestedExpression : Works g (nestedExpression nested) := by
  dsimp only [nestedExpression]
  infer_instance

instance works_namedVariable (name : String) (canAssign : Bool) :
    Works g (namedVariable nested name canAssign) := by
  dsimp only [namedVariable]
  refine (works_resolve g name).bind fun access => (works_acceptIf g _ _).bind fun assigns => ?_
  split
  · infer_instance
  · exact (works_acceptCompound g canAssign).bind fun op => by split <;> infer_instance

instance works_arguments (room : Nat) : Works g (arguments nested room) := by
  induction room with
  | zero =>
    rw [arguments]
    infer_instance
  | succ room ih =>
    rw [arguments]
    infer_instance

instance works_argumentList : Works g (argumentList nested) := by
  dsimp only [argumentList]
  infer_instance

instance works_property (canAssign : Bool) : Works g (property nested canAssign) := by
  dsimp only [property]
  refine (works_expectName g _).bind fun name => (works_nameConstant g name).bind fun constant =>
    (works_acceptIf g _ _).bind fun assigns => ?_
  split
  · infer_instance
  · exact (works_acceptCompound g canAssign).bind fun op => by split <;> infer_instance

instance works_superProperty : Works g (superProperty nested) := by
  dsimp only [superProperty]
  refine (works_look g _).bind fun has => ?_
  split
  · infer_instance
  · infer_instance
  · refine (works_expect g _ _).bind fun _ => (works_expectName g _).bind fun name =>
      (works_nameConstant g name).bind fun constant => ?_
    infer_instance

instance works_receiver : Works g (receiver nested) := by
  dsimp only [receiver]
  infer_instance

instance works_operand (token : Token) (canAssign : Bool) :
    Works g (operand nested token canAssign) := by
  unfold operand
  split <;> infer_instance

instance works_conjunction : Works g (conjunction nested) := by
  dsimp only [conjunction]
  infer_instance

instance works_disjunction : Works g (disjunction nested) := by
  dsimp only [disjunction]
  infer_instance

instance works_continuation (symbol : Symbol) (canAssign : Bool) :
    Works g (continuation nested symbol canAssign) := by
  unfold continuation
  split
  case h_5 => split <;> infer_instance
  all_goals infer_instance

instance works_continuations (precedence : Precedence) (canAssign : Bool) (fuel : Nat) :
    Works g (continuations nested precedence canAssign fuel) := by
  induction fuel with
  | zero => exact operates_pure ()
  | succ fuel ih => exact (works_look g _).bind fun symbol => by split <;> infer_instance

instance works_expressionBody (precedence : Precedence) :
    Works g (expressionBody nested precedence) := by
  dsimp only [expressionBody]
  exact (works_next g).bind fun token => by split <;> infer_instance

end Expressions

/-! ### Statements and declarations -/

/-- Going on after an error keeps an event and changes the heap in no other way. -/
theorem evolves_recover (s : State) (e : CompileError) (back : Checkpoint) :
    s.Evolves g (s.recover e back) := by
  have hnoted := Memory.evolves_note s.heap g .debug fun _ => s!"compile error: {e.display}"
  have hreport : (s.report e).heap = s.heap.note .debug (fun _ => s!"compile error: {e.display}") ∧
      (s.report e).tokens = s.tokens ∧ (s.report e).drafts = s.drafts := by
    unfold State.report
    dsimp only
    split <;> exact ⟨rfl, rfl, rfl⟩
  obtain ⟨hheap, htokens, hdrafts⟩ := hreport
  obtain ⟨draft, enclosing, hkeep⟩ := (s.report e).keepDrafts_eq back.depth
  have hrecover : (s.recover e back).heap = s.heap.note .debug fun _ =>
      s!"compile error: {e.display}" := by
    unfold State.recover
    rw [hkeep]
    exact hheap
  refine ⟨?_, fun hs => ⟨?_, ?_, hrecover ▸ hnoted.lines hs.heap⟩⟩
  · rw [State.memory, State.memory, hrecover]
    exact hnoted.path
  · unfold State.recover
    rw [hkeep]
    exact htokens ▸ hs.tokens
  · have hkept (d : Draft) (hd : d ∈ draft :: enclosing) : d.chunk.LinesFromOne := by
      refine hs.drafts d (hdrafts ▸ State.mem_keepDrafts (n := back.depth) ?_)
      rw [hkeep]
      exact hd
    unfold State.recover
    rw [hkeep]
    exact List.forall_mem_cons.mpr ⟨hkept draft List.mem_cons_self, fun d hd =>
      hkept d (List.mem_cons_of_mem _ hd)⟩

instance works_recovering (body : Compiler Unit) [hbody : Works g body] :
    Works g (recovering body) where
  ok {s a s'} h := by
    unfold recovering at h
    dsimp only at h
    split at h
    · next hr =>
      obtain ⟨-, rfl⟩ := EStateM.Result.ok.inj h
      exact hbody.ok hr
    · next e s₁ hr =>
      obtain ⟨-, rfl⟩ := EStateM.Result.ok.inj h
      exact State.Evolves.trans (hbody.error hr id) (evolves_recover g s₁ e s.checkpoint)
    · cases h
  error {s e s'} h hkept := by
    unfold recovering at h
    dsimp only at h
    split at h
    · cases h
    · cases h
    · cases h
      exact absurd trivial hkept

section Statements

variable (inner : Parsers) [Works g inner.declaration] [Works g inner.statement]
  [∀ p, Works g (inner.expression p)]

instance works_expression : Works g (expression inner) := by
  dsimp only [expression]
  infer_instance

omit [Works g inner.statement] [∀ p, Works g (inner.expression p)] in
/-- Declarations work, by induction on how many may follow. -/
theorem works_declarations (fuel : Nat) : Works g (declarations inner fuel) := by
  induction fuel with
  | zero => exact operates_pure ()
  | succ fuel ih =>
    rw [declarations]
    infer_instance

instance works_block : Works g (block inner) := by
  have hd := works_declarations g inner
  dsimp only [block]
  infer_instance

instance works_parameters (room : Nat) : Works g (parameters room) := by
  induction room with
  | zero => exact works_failHere g _
  | succ room ih =>
    rw [parameters]
    infer_instance

omit [Works g inner.declaration] [Works g inner.statement] [∀ p, Works g (inner.expression p)] in
/-- The words of captures are emitted for one line. -/
theorem linesFromOne_emitted {line : UInt32} {d : Draft} (hline : 1 ≤ line)
    (captures : Array Capture) (hd : d.chunk.LinesFromOne) :
    (captures.foldl (fun d c => d.emit c.encode line) d).chunk.LinesFromOne := by
  rw [← Array.foldl_toList]
  induction captures.toList generalizing d with
  | nil => exact hd
  | cons c rest ih => exact ih (Chunk.LinesFromOne.push hd hline c.encode)

instance works_emitClosure (function : UInt16) (captures : Array Capture) :
    Works g (emitClosure function captures) :=
  (works_emit g _).bind fun _ => operates_of_ok fun _ => ⟨(), _, rfl, .refl _, fun hs =>
    hs.draft (linesFromOne_emitted hs.line captures (hs.drafts _ List.mem_cons_self))⟩

instance works_functionRest (kind : FunctionKind) (name : String) :
    Works g (functionRest inner kind name) := by
  dsimp only [functionRest]
  have hrest : Works g (do
      expect .rightParen .parametersClose
      expect .leftBrace .bodyOpen
      block inner
      emitReturn
      let made ← finishFunction
      let constant ← makeConstant (.ofHandle made.1)
      emitClosure constant made.2) := by infer_instance
  refine (works_intern g name).bind fun r => (works_beginFunction g kind r).bind fun _ =>
    (works_beginScope g).bind fun _ => (works_expect g _ _).bind fun _ =>
    (works_check g _).bind fun _ => ?_
  split
  · exact (works_parameters g 255).bind fun arity => (works_modifyDraft g _).bind fun _ => hrest
  · exact hrest

instance works_functionDeclaration : Works g (functionDeclaration inner) := by
  dsimp only [functionDeclaration]
  infer_instance

instance works_method : Works g (method inner) := by
  dsimp only [method]
  infer_instance

instance works_methods (fuel : Nat) : Works g (methods inner fuel) := by
  induction fuel with
  | zero => exact operates_pure ()
  | succ fuel ih =>
    rw [methods]
    infer_instance

instance works_modifyClasses (f : State → List Bool) :
    Works g (modify fun s => { s with classes := f s }) :=
  operates_modify fun _ => ⟨.refl _, fun hs => ⟨hs.tokens, hs.drafts, hs.heap⟩⟩

instance works_superclass (className : String) : Works g (superclass inner className) := by
  dsimp only [superclass]
  have hrest : Works g (do
      beginScope
      addLocal "super" Source.Span.none
      defineVariable 0
      namedVariable inner.expression className false
      emit .inherit
      modify fun s => { s with classes := true :: s.classes.tail }) := by infer_instance
  refine (works_expectName g _).bind fun name => (works_namedVariable g _ _ _).bind fun _ => ?_
  split <;> infer_instance

instance works_classDeclaration : Works g (classDeclaration inner) := by
  dsimp only [classDeclaration]
  have hend : Works g (do
      emit .pop
      let hasSuperclass ← look fun s => s.classes.head?.getD false
      modify fun s => { s with classes := s.classes.tail }
      if hasSuperclass then endScope) := by infer_instance
  have hbody (name : String) : Works g (do
      namedVariable inner.expression name false
      expect .leftBrace .classOpen
      let left ← look State.remaining
      methods inner left
      expect .rightBrace .classClose
      emit .pop
      let hasSuperclass ← look fun s => s.classes.head?.getD false
      modify fun s => { s with classes := s.classes.tail }
      if hasSuperclass then endScope) :=
    (works_namedVariable g _ _ _).bind fun _ => (works_expect g _ _).bind fun _ =>
      (works_look g _).bind fun left => (works_methods g inner left).bind fun _ =>
      (works_expect g _ _).bind fun _ => hend
  refine (works_expectName g _).bind fun name => (works_nameConstant g name).bind fun constant =>
    (works_declareVariable g name).bind fun _ => (works_emit g _).bind fun _ =>
    (works_defineVariable g constant).bind fun _ => (works_modifyClasses g _).bind fun _ =>
    (works_accept g _).bind fun _ => ?_
  have := hbody name
  split <;> infer_instance

instance works_letDeclaration : Works g (letDeclaration inner) := by
  dsimp only [letDeclaration]
  infer_instance

instance works_condition (open_ : Expectation) : Works g (condition inner open_) := by
  dsimp only [condition]
  infer_instance

instance works_ifStatement : Works g (ifStatement inner) := by
  dsimp only [ifStatement]
  refine (works_condition g inner _).bind fun _ => (works_emitJump g _).bind fun otherwise =>
    (works_emit g _).bind fun _ => ?_
  infer_instance

instance works_whileStatement : Works g (whileStatement inner) := by
  dsimp only [whileStatement]
  infer_instance

instance works_doWhileStatement : Works g (doWhileStatement inner) := by
  dsimp only [doWhileStatement]
  refine (works_here g).bind fun start => .bind inferInstance fun _ =>
    (works_expectKeyword g _ _).bind fun _ => (works_condition g inner _).bind fun _ => ?_
  infer_instance

instance works_forStart : Works g (forStart inner) := by
  dsimp only [forStart]
  infer_instance

instance works_forCondition : Works g (forCondition inner) := by
  dsimp only [forCondition]
  infer_instance

instance works_forStep (start : Nat) : Works g (forStep inner start) := by
  dsimp only [forStep]
  refine (works_accept g _).bind fun closed => ?_
  split
  · infer_instance
  · refine (works_emitJump g _).bind fun body => (works_here g).bind fun step => ?_
    infer_instance

instance works_forStatement : Works g (forStatement inner) := by
  dsimp only [forStatement]
  refine (works_beginScope g).bind fun _ => (works_expect g _ _).bind fun _ =>
    (works_forStart g inner).bind fun _ => (works_here g).bind fun start =>
    (works_forCondition g inner).bind fun stop => (works_forStep g inner start).bind fun back =>
    .bind inferInstance fun _ => (works_emitLoop g back).bind fun _ => ?_
  split <;> infer_instance

instance works_returnStatement : Works g (returnStatement inner) := by
  dsimp only [returnStatement]
  refine (works_look g _).bind fun kind => ?_
  have hrest : Works g (do
      if ← accept .semicolon then emitReturn
      else
        expression inner
        expect .semicolon .returnEnd
        if kind = .initializer then
          emit .pop
          emitReturn
        else emit .return_) := by infer_instance
  split <;> infer_instance

instance works_printStatement : Works g (printStatement inner) := by
  dsimp only [printStatement]
  infer_instance

instance works_expressionStatement : Works g (expressionStatement inner) := by
  dsimp only [expressionStatement]
  infer_instance

instance works_blockStatement : Works g (blockStatement inner) := by
  dsimp only [blockStatement]
  infer_instance

instance works_statementBody : Works g (statementBody inner) :=
  (works_look g _).bind fun token => by split <;> infer_instance

instance works_declarationBody : Works g (declarationBody inner) := by
  dsimp only [declarationBody]
  infer_instance

end Statements

/-! ### Scripts -/

/-- The forms of every level work by heap operations. -/
theorem works_parsers (room : Nat) : Works g (parsers room).declaration ∧
    Works g (parsers room).statement ∧ ∀ p, Works g ((parsers room).expression p) := by
  induction room with
  | zero => exact ⟨works_recovering g (failHere .tooDeeplyNested), works_failHere g _,
      fun p => works_failHere g _⟩
  | succ room ih =>
    obtain ⟨hdeclaration, hstatement, hexpression⟩ := ih
    exact ⟨works_recovering g (nested (declarationBody (parsers room))),
      works_nested g (statementBody (parsers room)),
      fun p => works_nested g (expressionBody (parsers room).expression p)⟩

instance works_program (declaration : Compiler Unit) [Works g declaration] (fuel : Nat) :
    Works g (program declaration fuel) := by
  induction fuel with
  | zero => exact operates_pure ()
  | succ fuel ih =>
    rw [program]
    infer_instance

instance works_script : Works g script := by
  have hdeclaration : Works g parser.declaration := (works_parsers g (maxNesting + 1)).1
  dsimp only [script]
  infer_instance

/-- The lines of a source that has fewer than 2^32 are counted from 1. -/
theorem linesFromOne_start {source : String} {h : Heap} (hh : h.LinesFromOne) (outer : List Handle)
    (hcount : (Source.Lines.ofText source).count < 2 ^ 32) :
    (State.start source h outer).LinesFromOne where
  tokens l hl := by
    obtain ⟨-, piece, hstands, -⟩ := (Token.read_tiles source).token l hl
    exact Source.Lines.one_le_of_stands hcount hstands
  drafts := List.forall_mem_singleton.mpr fun _ hl => absurd hl (Array.not_mem_empty _)
  heap := hh

/-- Compiling leads to what some operations make of the heap, unless it ends in a fault. -/
theorem evolves_compile (source : String) (h : Heap) (outer : List Handle)
    (hfault : ∀ f, (compile source h outer).1 ≠ .fault f) :
    ∃ s, (State.start source h outer).Evolves g s ∧ (compile source h outer).2 = s.heap := by
  have hw := works_script g
  unfold compile at hfault ⊢
  split at hfault
  · next s hr => exact ⟨s, hw.ok hr, rfl⟩
  · next s hr => exact ⟨s, hw.ok hr, rfl⟩
  · next e s hr => exact ⟨s, hw.error hr id, rfl⟩
  · next f s hr => exact absurd rfl (hfault f)

end ScriptMachine.Compile
