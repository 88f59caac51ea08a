import ScriptMachine.Proofs.Parallel.Compiling

/-!
# Compiling is uniform

Every form of the grammar is composed of uniform steps. So a source is refused on both heaps for
the same errors, or compiled to corresponding functions.
-/

namespace ScriptMachine

namespace Pairing

open Compile

variable {p : Pairing} {s t : State}

/-- Both report an error as long as there is room. -/
theorem States.report (hs : p.States s t) (e : CompileError) :
    p.States (s.report e) (t.report e) := by
  have hnoted : p.States { s with heap := s.heap.note .debug fun _ => s!"compile error: {e.display}" }
      { t with heap := t.heap.note .debug fun _ => s!"compile error: {e.display}" } :=
    hs.carry (hs.heaps.alike (Heap.alike_note _ _ _) (Heap.alike_note _ _ _)) rfl
      fun _ _ hxy _ => hxy
  unfold State.report
  dsimp only
  rw [hs.errors]
  split
  · exact { hnoted with errors := rfl }
  · exact { hnoted with errors := rfl }

/-- Corresponding functions are given up. -/
theorem States.keepDrafts (hs : p.States s t) (n : Nat) :
    p.States (s.keepDrafts n) (t.keepDrafts n) := by
  have hkept : List.Forall₂ p.Drafts (keepLast n (s.draft :: s.enclosing))
      (keepLast n (t.draft :: t.enclosing)) := by
    have hlength : (s.draft :: s.enclosing).length = (t.draft :: t.enclosing).length :=
      hs.drafts.length_eq
    rw [keepLast, keepLast, hlength]
    exact List.forall₂_drop _ hs.drafts
  unfold State.keepDrafts
  generalize keepLast n (s.draft :: s.enclosing) = ds at hkept
  generalize keepLast n (t.draft :: t.enclosing) = es at hkept
  cases hkept with
  | nil => exact hs
  | cons hde hrest => exact { hs with draft := hde, enclosing := hrest }

/-- Both go on after an error at the same place. -/
theorem States.recover (hs : p.States s t) (e : CompileError) (back : Checkpoint) :
    p.States (s.recover e back) (t.recover e back) := by
  have hback := (hs.report e).keepDrafts back.depth
  unfold State.recover
  dsimp only
  generalize (s.report e).keepDrafts back.depth = s at hback ⊢
  generalize (t.report e).keepDrafts back.depth = t at hback ⊢
  refine { hback with
    pos := ?_
    classes := by rw [hback.classes]
    draft := hback.draft.scope (fun _ => keepLast back.locals) fun _ => back.scopeDepth }
  simp only [State.atEnd, hback.pos, hback.tokens]
  rfl

/-- Corresponding states have the same checkpoint. -/
theorem States.checkpoint (hs : p.States s t) : s.checkpoint = t.checkpoint := by
  simp only [State.checkpoint, State.depth, hs.pos, hs.classes, hs.draft.scopeDepth,
    hs.draft.locals, hs.enclosing.length_eq]

end Pairing

namespace Compile

open Pairing

variable {p q : Pairing} {s t : State}

/-! ### Expressions -/

instance uniform_acceptCompound (allowed : Bool) : Uniform (acceptCompound allowed) := by
  dsimp only [acceptCompound]
  infer_instance

section Expressions

variable (nested : Precedence → Compiler Unit) [∀ p, Uniform (nested p)]

instance uniform_nestedExpression : Uniform (nestedExpression nested) := by
  dsimp only [nestedExpression]
  infer_instance

instance uniform_namedVariable (name : String) (canAssign : Bool) :
    Uniform (namedVariable nested name canAssign) := by
  dsimp only [namedVariable]
  refine (uniform_resolve name).bind fun access => (uniform_acceptIf _ _).bind fun assigns => ?_
  split
  · infer_instance
  · exact (uniform_acceptCompound canAssign).bind fun op => by split <;> infer_instance

instance uniform_arguments (room : Nat) : Uniform (arguments nested room) := by
  induction room with
  | zero =>
    rw [arguments]
    infer_instance
  | succ room ih =>
    rw [arguments]
    infer_instance

instance uniform_argumentList : Uniform (argumentList nested) := by
  dsimp only [argumentList]
  infer_instance

instance uniform_property (canAssign : Bool) : Uniform (property nested canAssign) := by
  dsimp only [property]
  refine (uniform_expectName _).bind fun name => (uniform_nameConstant name).bind fun constant =>
    (uniform_acceptIf _ _).bind fun assigns => ?_
  split
  · infer_instance
  · exact (uniform_acceptCompound canAssign).bind fun op => by split <;> infer_instance

instance uniform_superProperty : Uniform (superProperty nested) := by
  dsimp only [superProperty]
  refine uniform_look_class.bind fun has => ?_
  split
  · infer_instance
  · infer_instance
  · refine (uniform_expect _ _).bind fun _ => (uniform_expectName _).bind fun name =>
      (uniform_nameConstant name).bind fun constant => ?_
    infer_instance

instance uniform_receiver : Uniform (receiver nested) := by
  dsimp only [receiver]
  infer_instance

instance uniform_emitText (content : String) :
    Uniform (do
      let r ← intern content
      emitConstant (.ofHandle r)) where
  similar hs := (similar_intern hs).bind fun _ _ _ _ _ hs' hpair =>
    similar_emitConstant hs' (.reference hpair)

instance uniform_operand (token : Token) (canAssign : Bool) :
    Uniform (operand nested token canAssign) := by
  unfold operand
  split <;> infer_instance

instance uniform_conjunction : Uniform (conjunction nested) := by
  dsimp only [conjunction]
  infer_instance

instance uniform_disjunction : Uniform (disjunction nested) := by
  dsimp only [disjunction]
  infer_instance

instance uniform_continuation (symbol : Symbol) (canAssign : Bool) :
    Uniform (continuation nested symbol canAssign) := by
  unfold continuation
  split
  case h_5 => split <;> infer_instance
  all_goals infer_instance

instance uniform_continuations (precedence : Precedence) (canAssign : Bool) (fuel : Nat) :
    Uniform (continuations nested precedence canAssign fuel) := by
  induction fuel with
  | zero => exact uniform_pure ()
  | succ fuel ih =>
    exact (uniform_look_trailing precedence).bind fun symbol => by split <;> infer_instance

instance uniform_expressionBody (precedence : Precedence) :
    Uniform (expressionBody nested precedence) := by
  dsimp only [expressionBody]
  exact uniform_next.bind fun token => by split <;> infer_instance

end Expressions

/-! ### Statements and declarations -/

/-- Going on after an error changes no object and keeps the same of the caller alive. -/
theorem recover_keeps (s : State) (e : CompileError) (back : Checkpoint) {x : Handle}
    (hx : s.heap.Reachable s.outer x) :
    (s.recover e back).heap.Reachable (s.recover e back).outer x := by
  have hsame : (s.recover e back).heap = s.heap.note .debug (fun _ => s!"compile error: {e.display}") ∧
      (s.recover e back).outer = s.outer := by
    unfold State.recover State.keepDrafts State.report
    dsimp only
    split <;> split <;> exact ⟨rfl, rfl⟩
  rw [hsame.1, hsame.2]
  exact (Heap.reachable_congr fun z _ => (Heap.alike_note _ _ _).object? z).mpr hx

instance uniform_recovering (body : Compiler Unit) [hbody : Uniform body] :
    Uniform (recovering body) where
  similar {p s t} hs := by
    have hdone := hbody.similar hs
    unfold recovering
    dsimp only
    rw [hs.checkpoint]
    generalize body s = r at hdone
    generalize body t = r' at hdone
    cases hdone with
    | ok advances states answers => exact .ok advances states rfl
    | @problem q e s' t' advances states =>
      exact .ok (advances.trans ⟨rfl, fun _ _ hxy _ => hxy, fun _ => recover_keeps _ e _⟩)
        (states.recover e _) rfl
    | faultLeft => exact .faultLeft
    | faultRight => exact .faultRight

section Statements

variable (inner : Parsers) [Uniform inner.declaration] [Uniform inner.statement]
  [∀ p, Uniform (inner.expression p)]

instance uniform_expression : Uniform (expression inner) := by
  dsimp only [expression]
  infer_instance

omit [Uniform inner.statement] [∀ p, Uniform (inner.expression p)] in
/-- Declarations are compiled alike, by induction on how many may follow. -/
theorem uniform_declarations (fuel : Nat) : Uniform (declarations inner fuel) := by
  induction fuel with
  | zero => exact uniform_pure ()
  | succ fuel ih =>
    rw [declarations]
    infer_instance

instance uniform_block : Uniform (block inner) := by
  have hd := uniform_declarations inner
  dsimp only [block]
  infer_instance

instance uniform_parameters (room : Nat) : Uniform (parameters room) := by
  induction room with
  | zero => exact uniform_failHere _
  | succ room ih =>
    rw [parameters]
    infer_instance

instance uniform_emitClosure (function : UInt16) (captures : Array Capture) :
    Uniform (emitClosure function captures) := by
  have hemit (line : UInt32) :
      Uniform (modifyDraft fun d => captures.foldl (fun d c => d.emit c.encode line) d) :=
    uniform_modifyDraft fun {p d e} hd => by
      rw [← Array.foldl_toList, ← Array.foldl_toList]
      exact List.rel_foldl (P := p.Drafts) (R := Eq) (fun _ _ hd c _ heq => heq ▸ hd.emit c.encode line) hd
        (List.forall₂_eq_eq_eq ▸ rfl)
  dsimp only [emitClosure]
  infer_instance

/-- What follows the body of a function. -/
theorem uniform_finish : Uniform (do
    let (function, captures) ← finishFunction
    let constant ← makeConstant (.ofHandle function)
    emitClosure constant captures) where
  similar hs := (similar_finishFunction hs).bind fun _ made _ _ _ hs' h =>
    (similar_makeConstant hs' (.reference h.1)).bind fun _ k _ _ _ hs'' hk =>
      hk ▸ h.2 ▸ (uniform_emitClosure k made.2).similar hs''

instance uniform_functionRest (kind : FunctionKind) (name : String) :
    Uniform (functionRest inner kind name) := by
  have hfinish : Uniform (do
      expect .rightParen .parametersClose
      expect .leftBrace .bodyOpen
      block inner
      emitReturn
      let made ← finishFunction
      let constant ← makeConstant (.ofHandle made.1)
      emitClosure constant made.2) := by
    have := uniform_finish
    infer_instance
  have harity (arity : Nat) : Uniform (modifyDraft fun d => { d with arity := arity.toUInt8 }) :=
    uniform_modifyDraft fun hd => { hd with
      arity := rfl
      pooled := hd.pooled.congr rfl rfl
      pooled' := hd.pooled'.congr rfl rfl }
  have hrest : Uniform (do
      beginScope
      expect .leftParen .parametersOpen
      if !(← check .rightParen) then
        let arity ← parameters 255
        modifyDraft fun d => { d with arity := arity.toUInt8 }
      expect .rightParen .parametersClose
      expect .leftBrace .bodyOpen
      block inner
      emitReturn
      let made ← finishFunction
      let constant ← makeConstant (.ofHandle made.1)
      emitClosure constant made.2) := by
    refine uniform_beginScope.bind fun _ => (uniform_expect _ _).bind fun _ =>
      (uniform_check _).bind fun _ => ?_
    split
    · exact (uniform_parameters 255).bind fun arity => (harity arity).bind fun _ => hfinish
    · exact hfinish
  exact ⟨fun hs => (similar_intern hs).bind fun _ _ _ _ _ hs' hpair =>
    (similar_beginFunction hs' hpair).bind fun _ _ _ _ _ hs'' _ => hrest.similar hs''⟩

instance uniform_functionDeclaration : Uniform (functionDeclaration inner) := by
  dsimp only [functionDeclaration]
  infer_instance

instance uniform_method : Uniform (method inner) := by
  dsimp only [method]
  infer_instance

instance uniform_methods (fuel : Nat) : Uniform (methods inner fuel) := by
  induction fuel with
  | zero => exact uniform_pure ()
  | succ fuel ih =>
    rw [methods]
    infer_instance

instance uniform_superclass (className : String) : Uniform (superclass inner className) := by
  dsimp only [superclass]
  have hrest : Uniform (do
      beginScope
      addLocal "super" Source.Span.none
      defineVariable 0
      namedVariable inner.expression className false
      emit .inherit
      modify fun s => { s with classes := true :: s.classes.tail }) := by infer_instance
  refine (uniform_expectName _).bind fun name => (uniform_namedVariable _ _ _).bind fun _ => ?_
  split <;> infer_instance

instance uniform_classDeclaration : Uniform (classDeclaration inner) := by
  dsimp only [classDeclaration]
  have hend : Uniform (do
      emit .pop
      let hasSuperclass ← look fun s => s.classes.head?.getD false
      modify fun s => { s with classes := s.classes.tail }
      if hasSuperclass then endScope) := by infer_instance
  have hbody (name : String) : Uniform (do
      namedVariable inner.expression name false
      expect .leftBrace .classOpen
      let left ← look State.remaining
      methods inner left
      expect .rightBrace .classClose
      emit .pop
      let hasSuperclass ← look fun s => s.classes.head?.getD false
      modify fun s => { s with classes := s.classes.tail }
      if hasSuperclass then endScope) :=
    (uniform_namedVariable _ _ _).bind fun _ => (uniform_expect _ _).bind fun _ =>
      uniform_look_remaining.bind fun left => (uniform_methods inner left).bind fun _ =>
      (uniform_expect _ _).bind fun _ => hend
  refine (uniform_expectName _).bind fun name => (uniform_nameConstant name).bind fun constant =>
    (uniform_declareVariable name).bind fun _ => (uniform_emit _).bind fun _ =>
    (uniform_defineVariable constant).bind fun _ => (uniform_modifyClasses _).bind fun _ =>
    (uniform_accept _).bind fun _ => ?_
  have := hbody name
  split <;> infer_instance

instance uniform_letDeclaration : Uniform (letDeclaration inner) := by
  dsimp only [letDeclaration]
  infer_instance

instance uniform_condition (open_ : Expectation) : Uniform (condition inner open_) := by
  dsimp only [condition]
  infer_instance

instance uniform_ifStatement : Uniform (ifStatement inner) := by
  dsimp only [ifStatement]
  refine (uniform_condition inner _).bind fun _ => (uniform_emitJump _).bind fun otherwise =>
    (uniform_emit _).bind fun _ => ?_
  infer_instance

instance uniform_whileStatement : Uniform (whileStatement inner) := by
  dsimp only [whileStatement]
  infer_instance

instance uniform_doWhileStatement : Uniform (doWhileStatement inner) := by
  dsimp only [doWhileStatement]
  refine uniform_here.bind fun start => .bind inferInstance fun _ =>
    (uniform_expectKeyword _ _).bind fun _ => (uniform_condition inner _).bind fun _ => ?_
  infer_instance

instance uniform_forStart : Uniform (forStart inner) := by
  dsimp only [forStart]
  infer_instance

instance uniform_forCondition : Uniform (forCondition inner) := by
  dsimp only [forCondition]
  infer_instance

instance uniform_forStep (start : Nat) : Uniform (forStep inner start) := by
  dsimp only [forStep]
  refine (uniform_accept _).bind fun closed => ?_
  split
  · infer_instance
  · refine (uniform_emitJump _).bind fun body => uniform_here.bind fun step => ?_
    infer_instance

instance uniform_forStatement : Uniform (forStatement inner) := by
  dsimp only [forStatement]
  refine uniform_beginScope.bind fun _ => (uniform_expect _ _).bind fun _ =>
    (uniform_forStart inner).bind fun _ => uniform_here.bind fun start =>
    (uniform_forCondition inner).bind fun stop => (uniform_forStep inner start).bind fun back =>
    .bind inferInstance fun _ => (uniform_emitLoop back).bind fun _ => ?_
  split <;> infer_instance

instance uniform_returnStatement : Uniform (returnStatement inner) := by
  dsimp only [returnStatement]
  refine uniform_look_kind.bind fun kind => ?_
  have hrest : Uniform (do
      if ← accept .semicolon then emitReturn
      else
        expression inner
        expect .semicolon .returnEnd
        if kind = .initializer then
          emit .pop
          emitReturn
        else emit .return_) := by infer_instance
  split <;> infer_instance

instance uniform_printStatement : Uniform (printStatement inner) := by
  dsimp only [printStatement]
  infer_instance

instance uniform_expressionStatement : Uniform (expressionStatement inner) := by
  dsimp only [expressionStatement]
  infer_instance

instance uniform_blockStatement : Uniform (blockStatement inner) := by
  dsimp only [blockStatement]
  infer_instance

instance uniform_statementBody : Uniform (statementBody inner) :=
  uniform_peek.bind fun token => by split <;> infer_instance

instance uniform_declarationBody : Uniform (declarationBody inner) := by
  dsimp only [declarationBody]
  infer_instance

end Statements

/-! ### Scripts -/

/-- The forms of every level are uniform. -/
theorem uniform_parsers (room : Nat) : Uniform (parsers room).declaration ∧
    Uniform (parsers room).statement ∧ ∀ p, Uniform ((parsers room).expression p) := by
  induction room with
  | zero => exact ⟨uniform_recovering (failHere .tooDeeplyNested), uniform_failHere _,
      fun p => uniform_failHere _⟩
  | succ room ih =>
    obtain ⟨hdeclaration, hstatement, hexpression⟩ := ih
    exact ⟨uniform_recovering (nested (declarationBody (parsers room))),
      uniform_nested (statementBody (parsers room)),
      fun p => uniform_nested (expressionBody (parsers room).expression p)⟩

instance uniform_program (declaration : Compiler Unit) [Uniform declaration] (fuel : Nat) :
    Uniform (program declaration fuel) := by
  induction fuel with
  | zero => exact uniform_pure ()
  | succ fuel ih =>
    rw [program]
    infer_instance

/-- A whole script is refused on both heaps, or compiled to paired functions. -/
theorem similar_script (hs : p.States s t) :
    Similar p s (fun q r r' _ _ => Option.Rel q.Pairs r r') (script s) (script t) := by
  have hdeclaration := (uniform_parsers (maxNesting + 1)).1
  refine (uniform_look_remaining.similar hs).bind fun _ left _ _ _ hs hleft => hleft ▸ ?_
  refine ((uniform_program _ left).similar hs).bind fun _ _ _ _ _ hs _ => ?_
  refine (uniform_emitReturn.similar hs).bind fun _ _ _ _ _ hs _ => ?_
  refine (uniform_look_clean.similar hs).bind fun _ clean _ _ _ hs hclean => hclean ▸ ?_
  split
  · exact (similar_finishFunction hs).bind fun _ _ _ _ _ hs h =>
      .ok (advances_of_eq rfl rfl) hs (.some h.1)
  · exact .ok (advances_of_eq rfl rfl) hs .none

/-- What compiling one source on two heaps comes to: corresponding functions or the same errors on
corresponding heaps that keep what `roots` keep alive paired, or a fault. -/
inductive SameResult (p : Pairing) (h : Heap) (roots : List Handle) : Result × Heap → Result × Heap → Prop
  | function {q : Pairing} {r r' : Handle} {h₁ h₁' : Heap} (terms : q.terms = p.terms)
    (heaps : q.Heaps h₁ h₁') (pairs : ∀ x y, p.Pairs x y → h.Reachable roots x → q.Pairs x y)
    (functions : q.Pairs r r') : SameResult p h roots (.function r, h₁) (.function r', h₁')
  | errors {q : Pairing} {es : List CompileError} {h₁ h₁' : Heap} (terms : q.terms = p.terms)
    (heaps : q.Heaps h₁ h₁') (pairs : ∀ x y, p.Pairs x y → h.Reachable roots x → q.Pairs x y) :
    SameResult p h roots (.errors es, h₁) (.errors es, h₁')
  | faultLeft {f : Fault} {h₁ : Heap} {r : Result × Heap} : SameResult p h roots (.fault f, h₁) r
  | faultRight {f : Fault} {h₁' : Heap} {r : Result × Heap} : SameResult p h roots r (.fault f, h₁')

/-- One source comes to the same on corresponding heaps. -/
theorem compile_alike (source : String) {h h' : Heap} {roots roots' : List Handle}
    (hp : p.Heaps h h') (hfunctions : ∀ x y, p.terms.functions x y)
    (hroots : ∀ x ∈ roots, ∃ y ∈ roots', p.Pairs x y)
    (hroots' : ∀ y ∈ roots', ∃ x ∈ roots, p.Pairs x y) :
    SameResult p h roots (compile source h roots) (compile source h' roots') := by
  have hstart : p.States (State.start source h roots) (State.start source h' roots') :=
    { heaps := hp
      functions := hfunctions
      tokens := rfl
      pos := rfl
      sourceBytes := rfl
      classes := rfl
      nesting := rfl
      errors := rfl
      draft :=
        { kind := rfl
          name := .none
          arity := rfl
          chunk := ⟨rfl, fun _ => rfl, .nil⟩
          pooled := Draft.pooled_start _ _
          pooled' := Draft.pooled_start _ _
          locals := rfl
          captures := rfl
          scopeDepth := rfl }
      enclosing := .nil
      outer := hroots
      outer' := hroots' }
  have hdone := similar_script hstart
  unfold compile
  generalize script (State.start source h roots) = r at hdone
  generalize script (State.start source h' roots') = r' at hdone
  cases hdone with
  | ok advances states answers =>
    cases answers with
    | some hr => exact .function advances.terms states.heaps advances.pairs hr
    | none =>
      dsimp only
      rw [State.reported, State.reported, states.errors]
      exact .errors advances.terms states.heaps advances.pairs
  | problem advances states => exact .errors advances.terms states.heaps advances.pairs
  | faultLeft => exact .faultLeft
  | faultRight => exact .faultRight

end Compile

end ScriptMachine
