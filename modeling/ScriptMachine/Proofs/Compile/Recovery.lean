import ScriptMachine.Proofs.Compile.Progress
import ScriptMachine.Proofs.Compile.Restoring

/-!
# Declarations on any tokens

A watch that does nothing at the moments where the scene is fit, and no more is nested than allowed,
is not noticed by the compiler. So it comes to no other moments: a watch that stops at one of those
would have to be noticed. At each call of the parser for declarations the heap is in order too,
since a watch that stops at no state in order leaves the compiler with no fault but an exhausted
arena.

So whatever the tokens are, every declaration takes a token, and leaves the functions in the making,
their scopes and the classes as they were: after an error the locals are the old ones, and otherwise
the one that was declared is new. Nesting is bounded, so the functions are, and the tokens left
bound the rounds of every loop.
-/

namespace ScriptMachine.Compile

variable {α : Type} {s s' start : State} {base : Scene} {tokens : Array Lexeme} {m : Moment}
  {watch : Moment → Compiler Unit}

/-! ### Recovering -/

/-- Behind a declaration, failed or not, there are at most new locals of the current scope. -/
theorem restores_recovering {x y : Compiler Unit} {Q : Unit → State → Prop}
    (h : Restores s.scene (x s) (y s) Q) (hgrows : ∀ s', Q () s' → s.scene.Grows s'.scene) :
    Restores s.scene (recovering x s) (recovering y s) fun _ s' => s.scene.Grows s'.scene := by
  obtain ⟨heq, hpost⟩ := h
  unfold recovering
  dsimp only
  rw [heq]
  match hr : x s with
  | .ok a s' =>
    rw [hr] at hpost
    exact .ok (hgrows s' hpost)
  | .error (.problem e) s' =>
    rw [hr] at hpost
    refine .ok ?_
    rw [State.recover_scene hpost]
    exact .refl _
  | .error (.fault _) s' => exact ⟨rfl, trivial⟩

/-! ### Moments with nothing out of order -/

/-- The moments to come to among the given tokens. Declarations are called in fit scenes, forms are
begun where there is a level for one more function, and there are at most as many functions as
levels, and the script. -/
def Moment.Allowed (tokens : Array Lexeme) : Moment → State → Prop
  | .declaration, s => s.scene.Fit tokens 0
  | .form, s => s.scene.Fit tokens 1
  | .function, s => s.depth ≤ maxNesting + 1

section Unnoticed

variable (hwatch : ∀ m s, m.Allowed tokens s → watch m s = .ok () s)
include hwatch

/-- A watch of an allowed moment is not noticed before what follows. -/
theorem restores_watched {x y : Compiler α} {Q : α → State → Prop} (hm : m.Allowed tokens s)
    (h : Restores base (x s) (y s) Q) :
    Restores base ((do unwatched m; x : Compiler α) s) ((do watch m; y : Compiler α) s) Q := by
  refine Restores.bind (Q := fun _ s₁ => s₁ = s) ⟨hwatch m s hm, rfl⟩ fun _ s₁ h₁ => ?_
  subst h₁
  exact h

/-- A declaration one level deeper adds the local it declares, if any. -/
theorem restores_nestedDeclaration {inner inner' : Parsers} [Watches tokens 0 inner inner']
    (hfit : s.scene.Fit tokens 0) :
    Restores s.scene
      (nested (do
        unwatched .form
        declarationBodyOver inner (watchedFunction unwatched inner)) s)
      (nested (do
        watch .form
        declarationBodyOver inner' (watchedFunction watch inner')) s)
      fun _ s' => s.Declared s'.scene := by
  refine (restores_nested (Q := fun _ s' => s.deeper.Declared s'.scene) fun hlt => ?_).imp
    fun _ s' h => ?_
  · have hdeeper : s.deeper.scene.Fit tokens 1 := hfit.deeper hlt
    have hallowed : Moment.form.Allowed tokens s.deeper := hdeeper
    exact restores_watched hwatch hallowed
      (restores_declarationBody (fun s hs => hwatch .function s hs) hdeeper)
  · obtain ⟨s₁, hdeclared, rfl⟩ := h
    exact hdeclared.shallower

/-- A watch that does nothing at the moments to come to is not noticed. -/
theorem watches_watchedParsers (room : Nat) :
    Watches tokens 0 (watchedParsers unwatched room) (watchedParsers watch room) := by
  induction room with
  | zero => exact {
      statement := inferInstanceAs (WalksOn _ (failHere _))
      expression := fun _ => inferInstanceAs (WalksOn _ (failHere _))
      declaration := fun s hfit => restores_watched hwatch hfit <|
        restores_recovering (Q := fun _ _ => False) ⟨rfl, .refl _⟩ fun _ => False.elim }
  | succ room ih =>
    have hform {x y : Compiler Unit} [h : Walks (Unmoved (Scene.Fit tokens (0 + 1))) x y] :
        Unmoved (Scene.Fit tokens (0 + 1)) Unit (do unwatched .form; x) (do watch .form; y) :=
      fun s hfit => restores_watched hwatch hfit (h.walks s hfit)
    exact {
      statement := ⟨(hform (x := statementBody _) (y := statementBody _)).nested⟩
      expression := fun p => ⟨(hform (x := expressionBody _ p) (y := expressionBody _ p)).nested⟩
      declaration := fun s hfit => restores_watched hwatch hfit <|
        restores_recovering (restores_nestedDeclaration hwatch hfit) fun s' h => h.grows }

omit hwatch in
/-- A program may be watched, by induction on how many declarations may follow. -/
theorem gains_program {x y : Compiler Unit} (h : Gains tokens 0 x y) (fuel : Nat) :
    Gains tokens 0 (program x fuel) (program y fuel) := by
  induction fuel with
  | zero => exact gains_of_walks (x := pure ()) (y := pure ())
  | succ fuel ih =>
    refine gains_of_walks.bind fun done => ?_
    cases done with
    | true => exact gains_of_walks (x := pure ()) (y := pure ())
    | false => exact h.bind fun _ => ih

/-- A script that is watched is compiled as ever. -/
theorem watchedScript_eq (hfit : start.scene.Fit tokens 0) :
    watchedScript watch start = script start := by
  have hdeclaration := (watches_watchedParsers hwatch (maxNesting + 1)).declaration
  have hprogram := (gains_program hdeclaration start.remaining start hfit).1
  rw [← watchedScript_unwatched]
  unfold watchedScript
  simp only [bind, EStateM.bind, look, hprogram]

end Unnoticed

/-- Stopping somewhere else does nothing. -/
theorem stopAt_of_ne {f : Fault} {m' : Moment} (h : m' = m → s' ≠ s) :
    stopAt m s f m' s' = .ok () s' := if_neg fun hsame => h hsame.1 hsame.2

/-- Compiling comes to the allowed moments only. -/
theorem ComesTo.allowed (hfit : start.scene.Fit tokens 0) (h : ComesTo start m s) :
    m.Allowed tokens s := by
  by_contra hnot
  have hscript (f : Fault) : ∃ s', script start = .error (.fault f) s' := by
    obtain ⟨s', hstop⟩ := h f
    refine ⟨s', ?_⟩
    rw [← hstop, watchedScript_eq (fun m' s' hallowed => ?_) hfit]
    exact stopAt_of_ne fun hm hs => hnot (hm ▸ hs ▸ hallowed)
  obtain ⟨s₁, hfull⟩ := hscript .arenaFull
  obtain ⟨s₂, hnone⟩ := hscript .noFrame
  cases hfull.symm.trans hnone

/-! ### The heap at calls of declarations -/

/-- Parsers under a watch of declarations that does what it should do what they should. -/
theorem parses_watchedParsers {before : Heap} (hform : watch .form = pure ())
    (hfunction : watch .function = pure ()) (hwatch : Declares before (watch .declaration))
    (room : Nat) : Parses before (watchedParsers watch room) := by
  induction room with
  | zero =>
    exact ⟨hwatch.bind fun _ => declares_recovering (Executes.declares writes_failHere),
      writes_failHere, fun _ => writes_failHere⟩
  | succ room ih =>
    have hrest : watchedFunction watch (watchedParsers watch room) =
        functionRest (watchedParsers watch room) := by
      rw [← watchedFunction_unwatched]
      unfold watchedFunction
      rw [hfunction]
      rfl
    have hbegun {α : Type} (x : Compiler α) : (do watch .form; x : Compiler α) = x := by
      rw [hform]
      rfl
    have hdeclaration := declares_declarationBody ih.declaration ih.statement ih.expression
    have hstatement := executes_statementBody ih.declaration ih.statement ih.expression
    refine ⟨hwatch.bind fun _ => declares_recovering ?_, ?_, fun p => ?_⟩
    · rw [hbegun, hrest, declarationBodyOver_functionRest]
      exact hdeclaration.nested
    · show Executes before (nested (do watch .form; statementBody (watchedParsers watch room)))
      rw [hbegun]
      exact hstatement.nested fun _ _ hs => hs
    · show Turns before Always
        (nested (do watch .form; expressionBody (watchedParsers watch room).expression p)) [] _
      rw [hbegun]
      exact (turns_expressionBody ih.expression).nested fun _ _ _ => trivial

/-- Where the parser for declarations is called, the heap is in order. -/
theorem ComesTo.live {before : Heap} (hl : start.Live before)
    (h : ComesTo start .declaration s) : s.Live before := by
  by_contra hdead
  have hwatch : Declares before (stopAt .declaration s .noFrame .declaration) := by
    intro s' hl'
    rw [stopAt_of_ne (s := s) fun _ hsame => hdead (hsame ▸ hl')]
    exact (executes_of_reads fun _ => does_pure_reads).declares s' hl'
  have hother (m : Moment) (hm : m ≠ .declaration) :
      stopAt .declaration s .noFrame m = pure () := by
    funext s'
    exact stopAt_of_ne fun hsame => absurd hsame hm
  have hdeclaration := (parses_watchedParsers (hother .form Moment.noConfusion)
    (hother .function Moment.noConfusion) hwatch (maxNesting + 1)).declaration
  have hdoes : Does before start (watchedScript (stopAt .declaration s .noFrame) start)
      fun _ _ => True := by
    refine (does_look (f := State.remaining) (Q := fun _ s' => s' = start) hl rfl).bind
      fun left s₀ hl₀ _ h₀ => ?_
    subst h₀
    refine (declares_program hdeclaration left _ hl₀).bind fun _ s₁ hl₁ _ _ => ?_
    refine (does_emitReturn hl₁).bind fun _ s₂ hl₂ _ _ => ?_
    refine (does_look (f := fun s => s.errors.isEmpty) (Q := fun _ _ => True) hl₂ trivial).bind
      fun clean s₃ hl₃ _ _ => ?_
    cases clean with
    | false => exact does_pure hl₃ trivial
    | true => exact (does_finishFunction hl₃).bind fun made s₄ hl₄ _ _ => does_pure hl₄ trivial
  obtain ⟨s', hstop⟩ := h .noFrame
  rw [hstop] at hdoes
  cases hdoes

/-! ### The start -/

variable {sourceBytes : Nat} {errors : Array CompileError} {heap : Heap} {outer : List Handle}

/-- The state before the first of the given tokens, with the errors of reading them. -/
def State.opening (tokens : Array Lexeme) (sourceBytes : Nat) (errors : Array CompileError)
    (heap : Heap) (outer : List Handle) : State where
  tokens := tokens
  pos := 0
  sourceBytes := sourceBytes
  heap := heap
  outer := outer
  draft := Draft.start .script none
  enclosing := []
  classes := []
  nesting := 0
  errors := errors

/-- The scene in which a script begins is fit. -/
theorem fit_opening :
    (State.opening tokens sourceBytes errors heap outer).scene.Fit tokens 0 where
  depths b hb k hk := by
    obtain rfl := List.mem_singleton.mp hb
    cases hk
    exact Nat.zero_le _
  outermost _ := ⟨rfl, rfl⟩
  levels := Nat.le_refl _
  bound := Nat.zero_le _
  tokens := rfl

/-- The constants are live where a script begins. -/
theorem live_opening (hs : heap.Sound) (hc : heap.Covers outer) :
    (State.opening tokens sourceBytes errors heap outer).Live heap := by
  have hl : (State.start "" heap outer).Live heap := live_start hs hc
  exact hl.change (.refl _) rfl fun d hd => ⟨d, hd, rfl, fun _ => id⟩

/-- If there is a token, compiling comes to a declaration at once, unless there are too many errors
already. -/
theorem comesTo_first (htokens : 0 < tokens.size) (herrors : errors.size < maxErrors) :
    ComesTo (State.opening tokens sourceBytes errors heap outer) .declaration
      (State.opening tokens sourceBytes errors heap outer) := by
  intro f
  generalize hs : State.opening tokens sourceBytes errors heap outer = s
  have hdeclaration (room : Nat) :
      (watchedParsers (stopAt .declaration s f) room).declaration s = .error (.fault f) s := by
    have hstop : stopAt .declaration s f .declaration s = .error (.fault f) s :=
      if_pos ⟨rfl, rfl⟩
    cases room <;> simp only [watchedParsers, bind, EStateM.bind, hstop]
  obtain ⟨left, hleft⟩ : ∃ left, s.remaining = left + 1 :=
    ⟨tokens.size - 1, by simp only [State.remaining, ← hs, State.opening]; omega⟩
  have hmore : (s.atEnd || maxErrors ≤ s.errors.size) = false := by
    simp only [State.atEnd, ← hs, State.opening, Bool.or_eq_false_iff, decide_eq_false_iff_not]
    omega
  refine ⟨s, ?_⟩
  simp only [watchedScript, bind, EStateM.bind, look, hleft, program, hmore, hdeclaration,
    Bool.not_false, if_true]

/-! ### Calls of the parser for declarations -/

/-- The parser for declarations goes on after one that failed, one level deeper. -/
theorem parser_declaration : parser.declaration = recovering (nested (declarationBody parser)) :=
  congrArg Parsers.declaration parser_eq

/-- On a heap in order a declaration returns, unless the arena is exhausted: it reports problems
itself. -/
theorem declaration_returns {before : Heap} (hl : s.Live before) :
    (∃ s', parser.declaration s = .ok () s') ∨
      ∃ s', parser.declaration s = .error (.fault .arenaFull) s' := by
  have hdoes := (parses_parsers (maxNesting + 1)).declaration s hl
  match hr : parser.declaration s with
  | .ok () s' => exact .inl ⟨s', rfl⟩
  | .error (.fault f) s' =>
    rw [hr] at hdoes
    obtain rfl : f = .arenaFull := hdoes
    exact .inr ⟨s', rfl⟩
  | .error (.problem e) s' =>
    rw [parser_declaration] at hr
    unfold recovering at hr
    dsimp only at hr
    split at hr <;> cases hr

/-- What a call of the parser for declarations comes to: it takes a token and stays among them,
and it ends on the level of nesting it started on. -/
def Progresses (s : State) : Prop :=
  match parser.declaration s with
  | .ok _ s' => s.pos < s'.pos ∧ s'.pos ≤ s.tokens.size ∧ s'.tokens = s.tokens ∧
      s'.nesting = s.nesting
  | .error stop s' => stop = .fault .arenaFull ∧ s'.nesting = s.nesting

/-- A declaration makes progress from any live state. -/
theorem progresses_of_live {before : Heap} (hl : s.Live before) (hs : s.pos < s.tokens.size) :
    Progresses s := by
  have hlevel := parser_keepsLevel.1
  unfold Progresses
  rcases declaration_returns hl with ⟨s', hr⟩ | ⟨s', hr⟩
  · obtain ⟨hlt, hsize, htokens⟩ := declaration_onward hs hr
    rw [hr]
    exact ⟨hlt, hsize, htokens, hlevel.ok _ _ _ hr⟩
  · rw [hr]
    exact ⟨rfl, hlevel.error _ _ _ hr⟩

/-- What a call of the parser for declarations leaves as it was: the functions in the making, with
the scope of the current one, and the classes. The locals are the old ones behind an error, and
behind a success only the local that was declared is new, with its value. -/
structure Restored (s s' : State) : Prop where
  depth : s'.depth = s.depth
  classes : s'.classes = s.classes
  current : s'.draft.kind = s.draft.kind ∧ s'.draft.name = s.draft.name ∧
    s'.draft.scopeDepth = s.draft.scopeDepth
  around : s'.enclosing.map Draft.sketch = s.enclosing.map Draft.sketch
  outermost : s.draft.scopeDepth = 0 → s.enclosing = [] ∧ s.draft.kind = .script
  failed : ∀ stop t, nested (declarationBody parser) s = .error stop t →
    s'.draft.locals.map Local.facts = s.draft.locals.map Local.facts ∧
      ∀ name, s'.drafts.map (fun d => Local.find? name d.locals) =
        s.drafts.map fun d => Local.find? name d.locals
  succeeded : ∀ t, nested (declarationBody parser) s = .ok () t →
    if s.peek?.any startsDeclaration ∧ 0 < s.draft.scopeDepth then
      ∃ name span line, s.tokens[s.pos + 1]? = some ⟨.name name, span, line⟩ ∧
        s'.draft.locals.map Local.facts =
          ⟨name, span, some s.draft.scopeDepth⟩ :: s.draft.locals.map Local.facts
    else s'.draft.locals.map Local.facts = s.draft.locals.map Local.facts

/-- A declaration that succeeds adds the local it declares, if any. -/
theorem restores_declaration (hfit : s.scene.Fit tokens 0) :
    Restores s.scene (nested (declarationBody parser) s) (nested (declarationBody parser) s)
      fun _ s' => s.Declared s'.scene := by
  have hparsers : Watches tokens 0 parser parser := by
    have hwatches : Watches tokens 0 (watchedParsers unwatched (maxNesting + 1))
        (watchedParsers unwatched (maxNesting + 1)) := watches_watchedParsers (fun _ _ _ => rfl) _
    rwa [watchedParsers_unwatched] at hwatches
  rw [← declarationBodyOver_functionRest, ← watchedFunction_unwatched]
  have hunwatched : ∀ m s, Moment.Allowed tokens m s → unwatched m s = .ok () s := fun _ _ _ => rfl
  exact restores_nestedDeclaration hunwatched hfit

/-- A declaration restores any fit scene. -/
theorem restored_of_fit (hfit : s.scene.Fit tokens 0) (h : parser.declaration s = .ok () s') :
    Restored s s' := by
  have hbody := (restores_declaration hfit).2
  -- either way the scene is the old one with new locals at most
  obtain ⟨hgrows, hfailed, hsucceeded⟩ : s.scene.Grows s'.scene ∧
      (∀ stop t, nested (declarationBody parser) s = .error stop t → s'.scene = s.scene) ∧
      ∀ t, nested (declarationBody parser) s = .ok () t → s.Declared s'.scene := by
    rw [parser_declaration] at h
    unfold recovering at h
    dsimp only at h
    match hr : nested (declarationBody parser) s with
    | .ok a t =>
      rw [hr] at h hbody
      cases h
      exact ⟨hbody.grows, (fun _ _ h => by cases h), fun _ _ => hbody⟩
    | .error (.problem e) t =>
      rw [hr] at h hbody
      cases h
      have hback := State.recover_scene hbody e
      exact ⟨hback ▸ .refl _, fun _ _ _ => hback, (fun _ h => by cases h)⟩
    | .error (.fault f) t =>
      rw [hr] at h
      cases h
  obtain ⟨new, hscene, -⟩ := hgrows
  have haround : s'.enclosing.map Draft.sketch = s.enclosing.map Draft.sketch :=
    congrArg Scene.around hscene
  refine ⟨?_, congrArg Scene.classes hscene, ⟨?_, ?_, ?_⟩, haround, fun hzero => ?_,
    fun stop t ht => ?_, fun t ht => ?_⟩
  · rw [State.depth, State.depth, ← List.length_map Draft.sketch, haround, List.length_map]
  · exact congrArg (fun c : Scene => c.current.kind) hscene
  · exact congrArg (fun c : Scene => c.current.name) hscene
  · exact congrArg (fun c : Scene => c.current.scopeDepth) hscene
  · obtain ⟨hnil, hkind⟩ := hfit.outermost hzero
    exact ⟨List.map_eq_nil_iff.mp hnil, hkind⟩
  · have hback := hfailed stop t ht
    exact ⟨congrArg (fun c : Scene => c.current.locals) hback, s.finds_congr hback⟩
  · have hdeclared := hsucceeded t ht
    unfold State.Declared at hdeclared
    split at hdeclared
    · next hinside =>
      obtain ⟨name, span, line, hnext, hgain⟩ := hdeclared
      rw [if_pos hinside]
      exact ⟨name, span, line, hnext, congrArg (fun c : Scene => c.current.locals) hgain⟩
    · next hnone =>
      rw [if_neg hnone]
      exact congrArg (fun c : Scene => c.current.locals) hdeclared

/-! ### Any tokens -/

/-- The number of functions in the making in a scene. -/
theorem State.depth_scene (s : State) : s.scene.functions.length = s.depth := by
  simp [Scene.functions, State.scene, State.depth]

section Main

variable (tokens sourceBytes errors)

/-- Every declaration takes a token, within a bounded depth. Where compiling any tokens comes to a
declaration, it is nested within the bound, the tokens are the same, and if any are left, the
declaration takes one and stays among them, and ends on the level it started on. Within every form
that is begun the level is within the bound, and there are never more functions than the script and
one for each level. No parser changes the level, whether it succeeds or fails. The parsers call each
other one level deeper and in no other way, and the room that they are tied together with never
runs out. The tokens left are as many rounds as any loop makes, so compiling always ends, and its
only fault is an exhausted arena. -/
theorem declarations_progress (hs : heap.Sound) (hc : heap.Covers outer) :
    (∀ s, ComesTo (State.opening tokens sourceBytes errors heap outer) .declaration s →
      s.nesting ≤ maxNesting ∧ s.depth ≤ s.nesting + 1 ∧ s.tokens = tokens ∧
        (s.pos < tokens.size → Progresses s)) ∧
    (∀ s, ComesTo (State.opening tokens sourceBytes errors heap outer) .form s →
      s.nesting ≤ maxNesting ∧ s.depth ≤ s.nesting ∧ s.tokens = tokens) ∧
    (∀ s, ComesTo (State.opening tokens sourceBytes errors heap outer) .function s →
      s.depth ≤ maxNesting + 1) ∧
    (KeepsLevel parser.declaration ∧ KeepsLevel parser.statement ∧
      (∀ p, KeepsLevel (parser.expression p)) ∧ KeepsLevel (nested (declarationBody parser))) ∧
    (parser.declaration = recovering (nested (declarationBody parser)) ∧
      parser.statement = nested (statementBody parser) ∧
      (∀ p, parser.expression p = nested (expressionBody parser.expression p)) ∧
      ∀ more, parsers (maxNesting + 1 + more) = parser) ∧
    (∀ room, EndsByTokens (program (parsers room).declaration) ∧
      EndsByTokens (declarations (parsers room)) ∧ EndsByTokens (methods (parsers room)) ∧
        ∀ p canAssign, EndsByTokens (continuations (parsers room).expression p canAssign)) ∧
    (∀ rounds pos, tokens.size - pos ≤ rounds →
      resumeAt tokens rounds pos = resumeAt tokens (tokens.size - pos) pos) ∧
    ∀ source f after, compile source heap outer = (.fault f, after) → f = .arenaFull := by
  have hties : parser.declaration = recovering (nested (declarationBody parser)) ∧
      parser.statement = nested (statementBody parser) ∧
      (∀ p, parser.expression p = nested (expressionBody parser.expression p)) ∧
      ∀ more, parsers (maxNesting + 1 + more) = parser :=
    ⟨parser_declaration, congrArg Parsers.statement parser_eq,
      fun p => congrFun (congrArg Parsers.expression parser_eq) p, parsers_eq⟩
  refine ⟨fun s h => ?_, fun s h => ?_, fun s h => h.allowed fit_opening, parser_keepsLevel, hties,
    fun room => ⟨endsByTokens_program room, endsByTokens_declarations room,
      endsByTokens_methods room, endsByTokens_continuations room⟩,
    resumeAt_of_le tokens, fun source f after h => ?_⟩
  · have hfit : s.scene.Fit tokens 0 := h.allowed fit_opening
    have htokens : s.tokens = tokens := hfit.tokens
    exact ⟨hfit.bound, s.depth_scene ▸ hfit.levels, htokens, fun hpos =>
      progresses_of_live (h.live (live_opening hs hc)) (htokens ▸ hpos)⟩
  · have hfit : s.scene.Fit tokens 1 := h.allowed fit_opening
    exact ⟨hfit.bound, Nat.le_of_succ_le_succ (s.depth_scene ▸ hfit.levels), hfit.tokens⟩
  · have hspec := compile_spec source hs hc
    rw [h] at hspec
    exact hspec

/-- A word that no name follows is gone past. -/
theorem declarations_progress_word :
    (Heap.empty Pacing.standard Journal.off).Sound ∧
      Progresses (State.opening #[⟨.keyword .def_, ⟨0, 3⟩, 1⟩] 3 #[]
        (Heap.empty Pacing.standard Journal.off) []) := by
  have hs := Heap.sound_empty Pacing.standard Journal.off
  have hc : (Heap.empty Pacing.standard Journal.off).Covers [] :=
    fun x hx => (Heap.not_reachable_nil hx).elim
  have hcalls := (declarations_progress #[⟨.keyword .def_, ⟨0, 3⟩, 1⟩] 3 #[] hs hc).1
  exact ⟨hs, (hcalls _ (comesTo_first (by decide) (by decide))).2.2.2 (by decide)⟩

/-- Every declaration leaves the scene it starts in: where compiling any tokens comes to one, it
returns, unless the arena is exhausted, and the functions and classes are as before, with the local
that was declared, if it succeeded and was in a block or a function, and with no new one if not. -/
theorem declarations_restore {s : State} (hs : heap.Sound) (hc : heap.Covers outer)
    (h : ComesTo (State.opening tokens sourceBytes errors heap outer) .declaration s) :
    (∃ s', parser.declaration s = .ok () s' ∧ Restored s s') ∨
      ∃ s', parser.declaration s = .error (.fault .arenaFull) s' := by
  have hfit : s.scene.Fit tokens 0 := h.allowed fit_opening
  rcases declaration_returns (h.live (live_opening hs hc)) with ⟨s', hr⟩ | hfull
  · exact .inl ⟨s', hr, restored_of_fit hfit hr⟩
  · exact .inr hfull

end Main

/-- The tokens of a block that ends after the word for a declaration. -/
def unfinishedBlock : Array Lexeme :=
  #[⟨.symbol .leftBrace, ⟨0, 1⟩, 1⟩, ⟨.keyword .let_, ⟨2, 5⟩, 1⟩]

/-- The state in which the declaration in the block starts, two levels further in. -/
def State.inUnfinishedBlock (heap : Heap) : State :=
  { State.opening unfinishedBlock 5 #[] heap [] with
    pos := 1
    draft := { Draft.start .script none with scopeDepth := 1 }
    nesting := 2 }

/-- Compiling the block comes to the declaration in it. -/
theorem comesTo_inUnfinishedBlock :
    ComesTo (State.opening unfinishedBlock 5 #[] heap []) .declaration
      (State.inUnfinishedBlock heap) := by
  intro f
  generalize hs : State.inUnfinishedBlock heap = s
  generalize hw : stopAt .declaration s f = watch
  generalize hopening : State.opening unfinishedBlock 5 #[] heap [] = start
  have hforms (t : State) : watch .form t = .ok () t := by
    rw [← hw]
    exact stopAt_of_ne fun h => by cases h
  have hfirst : watch .declaration start = .ok () start := by
    rw [← hw]
    refine stopAt_of_ne fun _ hsame => ?_
    have hpos : start.pos = s.pos := congrArg State.pos hsame
    rw [← hopening, ← hs] at hpos
    cases hpos
  have hnested : (watchedParsers watch 127).declaration s = .error (.fault f) s := by
    refine stop_bind.mpr (.inl ?_)
    rw [← hw]
    exact if_pos ⟨rfl, rfl⟩
  -- the brace and the new scope, and then the block, which is not at its end
  have hblock : statementBody (watchedParsers watch 127) start.deeper.deeper =
      .error (.fault f) s := by
    subst hs hopening
    refine stop_bind.mpr (.inr ⟨_, _, rfl, ?_⟩)
    refine stop_bind.mpr (.inl ?_)
    refine stop_bind.mpr (.inr ⟨_, _, rfl, ?_⟩)
    refine stop_bind.mpr (.inl ?_)
    refine stop_bind.mpr (.inr ⟨_, _, rfl, ?_⟩)
    exact stop_bind.mpr (.inl hnested)
  have hlevels : start.nesting < maxNesting ∧ start.deeper.nesting < maxNesting := by
    rw [← hopening]
    exact ⟨show 0 < 128 by decide, show 1 < 128 by decide⟩
  have hstatement : (watchedParsers watch 128).statement start.deeper =
      .error (.fault f) s.shallower :=
    nested_error hlevels.2 (stop_bind.mpr (.inr ⟨_, _, hforms _, hblock⟩))
  -- none of the three words for declarations is there
  have hbody : declarationBodyOver (watchedParsers watch 128)
      (watchedFunction watch (watchedParsers watch 128)) start.deeper =
        .error (.fault f) s.shallower := by
    subst hopening
    refine stop_bind.mpr (.inr ⟨_, _, rfl, ?_⟩)
    refine stop_bind.mpr (.inr ⟨_, _, rfl, ?_⟩)
    exact stop_bind.mpr (.inr ⟨_, _, rfl, hstatement⟩)
  have hform : nested (do
      watch .form
      declarationBodyOver (watchedParsers watch 128)
        (watchedFunction watch (watchedParsers watch 128))) start =
      .error (.fault f) s.shallower.shallower :=
    nested_error hlevels.1 (stop_bind.mpr (.inr ⟨_, _, hforms _, hbody⟩))
  have hdeclaration : (watchedParsers watch 129).declaration start =
      .error (.fault f) s.shallower.shallower := by
    refine stop_bind.mpr (.inr ⟨_, _, hfirst, ?_⟩)
    unfold recovering
    simp only [hform]
  subst hopening
  refine ⟨s.shallower.shallower, ?_⟩
  refine stop_bind.mpr (.inr ⟨_, _, rfl, ?_⟩)
  refine stop_bind.mpr (.inl ?_)
  refine stop_bind.mpr (.inr ⟨_, _, rfl, ?_⟩)
  exact stop_bind.mpr (.inl hdeclaration)

/-- The declaration in the block fails, and leaves the block without a local. -/
theorem declarations_restore_inUnfinishedBlock :
    ∃ s', parser.declaration
        (State.inUnfinishedBlock (Heap.empty Pacing.standard Journal.off)) = .ok () s' ∧
      Restored (State.inUnfinishedBlock (Heap.empty Pacing.standard Journal.off)) s' ∧
      s'.draft.scopeDepth = 1 ∧ s'.draft.locals.length = 1 := by
  have hs := Heap.sound_empty Pacing.standard Journal.off
  have hc : (Heap.empty Pacing.standard Journal.off).Covers [] :=
    fun x hx => (Heap.not_reachable_nil hx).elim
  obtain ⟨e, t, hbody⟩ : ∃ e t, nested (declarationBody parser)
      (State.inUnfinishedBlock (Heap.empty Pacing.standard Journal.off)) =
        .error (.problem e) t := ⟨_, _, rfl⟩
  rcases declarations_restore unfinishedBlock 5 #[] hs hc comesTo_inUnfinishedBlock with
    ⟨s', hr, hrestored⟩ | ⟨s', hfull⟩
  · refine ⟨s', hr, hrestored, hrestored.current.2.2, ?_⟩
    have hlocals := (hrestored.failed _ _ hbody).1
    rw [← List.length_map Local.facts, hlocals]
    rfl
  · rw [parser_declaration] at hfull
    unfold recovering at hfull
    simp only [hbody] at hfull
    cases hfull

end ScriptMachine.Compile
