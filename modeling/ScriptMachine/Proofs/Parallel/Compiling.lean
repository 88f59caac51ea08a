import ScriptMachine.Compile.Script
import ScriptMachine.Proofs.Parallel.Drafts

/-!
# Uniform steps of the compiler

Reading tokens, emitting code and working with scopes depends on what corresponding states have
alike, so each of these steps is uniform.
-/

namespace ScriptMachine

namespace Pairing

open Compile

variable {p : Pairing} {d e : Draft}

/-! ### Changes of drafts -/

/-- The same word is emitted. -/
theorem Drafts.emit (hd : p.Drafts d e) (word : UInt32) (line : UInt32) :
    p.Drafts (d.emit word line) (e.emit word line) :=
  { hd with
    chunk := ⟨congrArg (·.push word) hd.chunk.code, fun hl => congrArg (·.push line) (hd.chunk.lines hl),
      hd.chunk.constants⟩
    pooled := hd.pooled.congr rfl rfl
    pooled' := hd.pooled'.congr rfl rfl }

/-- Changing the locals and the scope. -/
theorem Drafts.scope (hd : p.Drafts d e) (locals : Nat → List Local → List Local)
    (depth : Nat → Nat) :
    p.Drafts { d with locals := locals d.scopeDepth d.locals, scopeDepth := depth d.scopeDepth }
      { e with locals := locals e.scopeDepth e.locals, scopeDepth := depth e.scopeDepth } :=
  { hd with
    locals := by rw [hd.scopeDepth, hd.locals]
    scopeDepth := congrArg depth hd.scopeDepth
    pooled := hd.pooled.congr rfl rfl
    pooled' := hd.pooled'.congr rfl rfl }

/-- Capturing a variable looks at the locals and the captures only. -/
theorem Drafts.addCapture (hd : p.Drafts d e) (c : Capture) :
    (d.addCapture c).1 = (e.addCapture c).1 ∧ p.Drafts (d.addCapture c).2 (e.addCapture c).2 := by
  unfold Draft.addCapture
  rw [hd.captures]
  split
  · exact ⟨rfl, hd⟩
  · split
    · exact ⟨rfl, { hd with
        captures := rfl
        pooled := hd.pooled.congr rfl rfl
        pooled' := hd.pooled'.congr rfl rfl }⟩
    · exact ⟨rfl, hd⟩

end Pairing

namespace Compile

open Pairing

variable {α : Type} {p q : Pairing} {s t : State} {d e : Draft}

/-! ### Tokens -/

instance uniform_peek : Uniform (look State.peek?) :=
  uniform_look fun hs => by simp only [State.peek?, State.lexeme?, hs.pos, hs.tokens]

/-- Reading something of the next token. -/
instance uniform_look_peek (f : Option Token → α) : Uniform (look fun s => f s.peek?) :=
  uniform_look fun hs => by simp only [State.peek?, State.lexeme?, hs.pos, hs.tokens]

instance uniform_look_compound : Uniform (look fun s => s.peek?.bind compound?) :=
  uniform_look_peek (·.bind compound?)

instance uniform_look_trailing (precedence : Precedence) :
    Uniform (look fun s => s.peek?.bind (trailing? precedence)) :=
  uniform_look_peek (·.bind (trailing? precedence))

instance uniform_look_assignment : Uniform (look fun s => s.peek?.any isAssignment) :=
  uniform_look_peek (·.any isAssignment)

/-- Reading something of the next token, the tokens left and the errors. -/
theorem uniform_look_end (f : Option Token → Bool → Nat → α) :
    Uniform (look fun s => f s.peek? s.atEnd s.errors.size) :=
  uniform_look fun hs => by
    simp only [State.peek?, State.lexeme?, State.atEnd, hs.pos, hs.tokens, hs.errors]

instance uniform_look_closed : Uniform (look fun s =>
    s.peek?.any (·.isSymbol .rightBrace) || s.atEnd || decide (maxErrors ≤ s.errors.size)) :=
  uniform_look_end fun next ended count =>
    next.any (·.isSymbol .rightBrace) || ended || decide (maxErrors ≤ count)

instance uniform_look_classClosed : Uniform (look fun s =>
    s.peek?.any (·.isSymbol .rightBrace) || s.atEnd) :=
  uniform_look_end fun next ended _ => next.any (·.isSymbol .rightBrace) || ended

instance uniform_look_stopped : Uniform (look fun s =>
    s.atEnd || decide (maxErrors ≤ s.errors.size)) :=
  uniform_look_end fun _ ended count => ended || decide (maxErrors ≤ count)

instance uniform_look_clean : Uniform (look fun s => s.errors.isEmpty) :=
  uniform_look fun hs => by rw [hs.errors]

/-- Reading something of the classes around. -/
theorem uniform_look_classes (f : List Bool → α) : Uniform (look fun s => f s.classes) :=
  uniform_look fun hs => by rw [hs.classes]

instance uniform_look_class : Uniform (look fun s => s.classes.head?) :=
  uniform_look_classes List.head?

instance uniform_look_outside : Uniform (look fun s => s.classes.isEmpty) :=
  uniform_look_classes List.isEmpty

instance uniform_look_inherits : Uniform (look fun s => s.classes.head?.getD false) :=
  uniform_look_classes (·.head?.getD false)

/-- Changing the classes around. -/
theorem uniform_modifyClasses (f : List Bool → List Bool) :
    Uniform (modify fun s => { s with classes := f s.classes } : Compiler Unit) where
  similar hs := .ok (advances_of_eq rfl rfl) { hs with classes := congrArg f hs.classes } rfl

instance uniform_inheritClass :
    Uniform (modify fun s => { s with classes := true :: s.classes.tail } : Compiler Unit) :=
  uniform_modifyClasses (true :: ·.tail)

instance uniform_leaveClass :
    Uniform (modify fun s => { s with classes := s.classes.tail } : Compiler Unit) :=
  uniform_modifyClasses List.tail

instance uniform_look_remaining : Uniform (look State.remaining) :=
  uniform_look fun hs => by simp only [State.remaining, hs.pos, hs.tokens]

instance uniform_look_line : Uniform (look State.line) :=
  uniform_look fun hs => by simp only [State.line, State.previous?, hs.pos, hs.tokens]

instance uniform_look_found : Uniform (look State.found) :=
  uniform_look fun hs => by simp only [State.found, State.peek?, State.lexeme?, hs.pos, hs.tokens]

instance uniform_look_previousSpan : Uniform (look State.previousSpan) :=
  uniform_look fun hs => by
    simp only [State.previousSpan, State.previous?, State.endSpan, hs.pos, hs.tokens, hs.sourceBytes]

instance uniform_advance : Uniform advance where
  similar hs := .ok (advances_of_eq rfl rfl) { hs with pos := congrArg (· + 1) hs.pos } rfl

instance uniform_next : Uniform next? := by
  dsimp only [next?]
  infer_instance

instance uniform_check (symbol : Symbol) : Uniform (check symbol) :=
  uniform_look_peek (Option.any (·.isSymbol symbol))

instance uniform_accept (symbol : Symbol) : Uniform (accept symbol) := by
  dsimp only [accept]
  infer_instance

instance uniform_acceptKeyword (keyword : Keyword) : Uniform (acceptKeyword keyword) := by
  have hnext : Uniform (look fun s => s.peek?.any (·.isKeyword keyword)) :=
    uniform_look_peek (Option.any (·.isKeyword keyword))
  dsimp only [acceptKeyword]
  infer_instance

instance uniform_acceptIf (allowed : Bool) (symbol : Symbol) : Uniform (acceptIf allowed symbol) := by
  dsimp only [acceptIf]
  infer_instance

instance uniform_failExpected (what : Expectation) : Uniform (failExpected what : Compiler α) := by
  dsimp only [failExpected]
  infer_instance

instance uniform_expect (symbol : Symbol) (what : Expectation) : Uniform (expect symbol what) := by
  dsimp only [expect]
  infer_instance

instance uniform_expectKeyword (keyword : Keyword) (what : Expectation) :
    Uniform (expectKeyword keyword what) := by
  dsimp only [expectKeyword]
  infer_instance

instance uniform_expectName (what : Expectation) : Uniform (expectName what) :=
  uniform_peek.bind fun token => by split <;> infer_instance

/-! ### Code -/

instance uniform_emitWord (word : UInt32) (line : UInt32) : Uniform (modifyDraft (·.emit word line)) :=
  uniform_modifyDraft fun hd => hd.emit word line

instance uniform_emit (i : Instr) : Uniform (emit i) := by
  dsimp only [emit]
  infer_instance

instance uniform_emitAll (code : List Instr) : Uniform (emitAll code) := by
  induction code with
  | nil => exact uniform_pure ()
  | cons i rest ih =>
    rw [emitAll]
    infer_instance

instance uniform_here : Uniform here :=
  uniform_look fun hs => congrArg Array.size hs.draft.chunk.code

instance uniform_emitJump (jump : UInt16 → Instr) : Uniform (emitJump jump) := by
  dsimp only [emitJump]
  infer_instance

instance uniform_patch (at_ : Nat) (operand : UInt16) :
    Uniform (modifyDraft fun d => { d with chunk := d.chunk.patch at_ operand }) :=
  uniform_modifyDraft fun hd =>
    { hd with
      chunk := ⟨congrArg (·.modify at_ (setWordOperand · operand)) hd.chunk.code, hd.chunk.lines,
        hd.chunk.constants⟩
      pooled := hd.pooled.congr rfl rfl
      pooled' := hd.pooled'.congr rfl rfl }

instance uniform_patchJump (at_ : Nat) : Uniform (patchJump at_) := by
  dsimp only [patchJump]
  infer_instance

instance uniform_emitLoop (start : Nat) : Uniform (emitLoop start) := by
  dsimp only [emitLoop]
  infer_instance

instance uniform_look_kind : Uniform (look fun s => s.draft.kind) :=
  uniform_look fun hs => hs.draft.kind

instance uniform_emitReturn : Uniform emitReturn := by
  dsimp only [emitReturn]
  infer_instance

instance uniform_nameConstant (name : String) : Uniform (nameConstant name) where
  similar hs := (similar_intern hs).bind fun _ _ _ _ _ hs' hpair =>
    similar_makeConstant hs' (.reference hpair)

/-- Emitting the instruction that loads corresponding constants. -/
theorem similar_emitConstant {v w : Value} (hs : p.States s t) (hvw : p.Values v w) :
    Similar p s (fun _ a b _ _ => a = b) (emitConstant v s) (emitConstant w t) :=
  (similar_makeConstant hs hvw).bind fun _ k _ _ _ hs' hk => hk ▸ (uniform_emit (.constant k)).similar hs'

instance uniform_emitNumber (n : Float) : Uniform (emitConstant (.ofFloat n)) where
  similar hs := similar_emitConstant hs (.plain (Value.toHandle?_ofFloat n))

/-! ### Scopes and names -/

instance uniform_look_scopeDepth : Uniform (look fun s => s.draft.scopeDepth) :=
  uniform_look fun hs => hs.draft.scopeDepth

/-- Reading something of the locals and the scope. -/
instance uniform_look_locals (f : Nat → List Local → α) :
    Uniform (look fun s => f s.draft.scopeDepth s.draft.locals) :=
  uniform_look fun hs => by simp only [hs.draft.scopeDepth, hs.draft.locals]

instance uniform_beginScope : Uniform beginScope :=
  uniform_modifyDraft fun hd => hd.scope (fun _ => id) (· + 1)

instance uniform_leaveScope : Uniform (modifyDraft fun d => { d with scopeDepth := d.scopeDepth - 1 }) :=
  uniform_modifyDraft fun hd => hd.scope (fun _ => id) (· - 1)

instance uniform_setLocals (kept : List Local) : Uniform (modifyDraft fun d => { d with locals := kept }) :=
  uniform_modifyDraft fun hd => hd.scope (fun _ _ => kept) id

instance uniform_endScope : Uniform endScope := by
  dsimp only [endScope]
  refine uniform_leaveScope.bind fun _ => Uniform.bind (uniform_look_locals Local.leave) fun left => ?_
  infer_instance

instance uniform_addLocal (name : String) (span : Source.Span) : Uniform (addLocal name span) := by
  have hdeclare : Uniform (modifyDraft (·.declare name span)) :=
    uniform_modifyDraft fun hd => hd.scope (fun _ => (⟨name, span, none, false⟩ :: ·)) id
  have hcount : Uniform (look fun s => s.draft.locals.length) :=
    uniform_look_locals fun _ locals => locals.length
  dsimp only [addLocal]
  infer_instance

instance uniform_declareVariable (name : String) : Uniform (declareVariable name) := by
  dsimp only [declareVariable]
  refine uniform_look_scopeDepth.bind fun depth => ?_
  split
  · refine Uniform.bind (uniform_look_locals (Local.duplicate? name)) fun first => ?_
    split <;> infer_instance
  · infer_instance

instance uniform_declareName (what : Expectation) : Uniform (declareName what) := by
  dsimp only [declareName]
  infer_instance

/-- Initializing the local declared last changes the locals alone. -/
theorem Draft.markInitialized_eq (d : Draft) : d.markInitialized = { d with
    locals :=
      if d.scopeDepth = 0 then d.locals
      else match d.locals with
        | [] => []
        | l :: rest => { l with depth := some d.scopeDepth } :: rest } := by
  obtain ⟨kind, name, arity, chunk, pool, locals, captures, scopeDepth⟩ := d
  unfold Draft.markInitialized
  dsimp only
  split
  · rfl
  · cases locals <;> rfl

instance uniform_markInitialized : Uniform markInitialized :=
  uniform_modifyDraft fun {p d e} hd => by
    rw [Draft.markInitialized_eq, Draft.markInitialized_eq]
    exact hd.scope (fun depth locals =>
      if depth = 0 then locals
      else match locals with
        | [] => []
        | l :: rest => { l with depth := some depth } :: rest) id

instance uniform_defineVariable (global : UInt16) : Uniform (defineVariable global) := by
  dsimp only [defineVariable]
  infer_instance

/-- A name is found outward alike, by induction on the functions around. -/
theorem similar_resolveCapture (name : String) {ds es : List Draft} (hd : p.Drafts d e)
    (hds : List.Forall₂ p.Drafts ds es) :
    (Draft.resolveCapture name d ds).1 = (Draft.resolveCapture name e es).1 ∧
      p.Drafts (Draft.resolveCapture name d ds).2.1 (Draft.resolveCapture name e es).2.1 ∧
      List.Forall₂ p.Drafts (Draft.resolveCapture name d ds).2.2
        (Draft.resolveCapture name e es).2.2 := by
  induction hds generalizing d e with
  | nil => exact ⟨rfl, hd, .nil⟩
  | @cons d₁ e₁ ds es hd₁ hds ih =>
    rw [Draft.resolveCapture, Draft.resolveCapture, hd₁.locals]
    split
    · exact ⟨rfl, hd, .cons hd₁ hds⟩
    · next slot _ =>
      obtain ⟨hindex, hinner⟩ := hd.addCapture ⟨true, slot.toUInt8⟩
      have houter := hd₁.scope (fun _ => Local.markCaptured name) id
      rw [hd₁.locals] at houter
      exact ⟨congrArg (Except.map some) hindex, hinner, .cons houter hds⟩
    · have hrest := ih hd₁
      generalize Draft.resolveCapture name d₁ ds = a at hrest ⊢
      generalize Draft.resolveCapture name e₁ es = b at hrest ⊢
      obtain ⟨result, outer, rest⟩ := a
      obtain ⟨result', outer', rest'⟩ := b
      obtain ⟨rfl, houter, hrest⟩ := hrest
      cases result with
      | error p => exact ⟨rfl, hd, .cons houter hrest⟩
      | ok found =>
        cases found with
        | none => exact ⟨rfl, hd, .cons houter hrest⟩
        | some i =>
          obtain ⟨hindex, hinner⟩ := hd.addCapture ⟨false, i⟩
          exact ⟨congrArg (Except.map some) hindex, hinner, .cons houter hrest⟩

instance uniform_captureVariable (name : String) : Uniform (captureVariable name) where
  similar {p s t} hs := by
    obtain ⟨hresult, hdraft, henclosing⟩ := similar_resolveCapture name hs.draft hs.enclosing
    have hs' : p.States
        { s with
          draft := (Draft.resolveCapture name s.draft s.enclosing).2.1
          enclosing := (Draft.resolveCapture name s.draft s.enclosing).2.2 }
        { t with
          draft := (Draft.resolveCapture name t.draft t.enclosing).2.1
          enclosing := (Draft.resolveCapture name t.draft t.enclosing).2.2 } :=
      { hs with draft := hdraft, enclosing := henclosing }
    unfold captureVariable
    dsimp only
    rw [hresult]
    split
    · exact .ok (advances_of_eq rfl rfl) hs' rfl
    · exact ((uniform_failBefore _).similar hs').after (advances_of_eq rfl rfl)

instance uniform_resolve (name : String) : Uniform (resolve name) := by
  refine Uniform.bind (uniform_look_locals fun _ => Local.find? name) fun found => ?_
  split
  · infer_instance
  · infer_instance
  · exact (uniform_captureVariable name).bind fun index => by split <;> infer_instance

end Compile

end ScriptMachine
