import ScriptMachine.Proofs.Compile.Closures
import ScriptMachine.Proofs.Compile.Script
import ScriptMachine.Proofs.Compile.Walking
import ScriptMachine.Proofs.Syntax.Levels

/-!
# Calls of the parsers

While a source is compiled, the parser for declarations is called again and again, at every depth of
nesting, and functions are begun inside of functions. To speak of all these moments, the compiler is
run under a watch that is told of each of them: compiling comes to a moment if a watch that stops
there, and only there, is what compiling stops with.
-/

namespace ScriptMachine.Compile

/-! ### Watched forms -/

/-- The parser for declarations is called, a form was begun, one level deeper than what it stands
in, or a function was. -/
inductive Moment
  | declaration
  | form
  | function

section Forms

variable (watch : Moment → Compiler Unit) (inner : Parsers)
  (rest : FunctionKind → String → Compiler Unit)

/-- A function after its name, watched when its draft is there. -/
def watchedFunction (kind : FunctionKind) (name : String) : Compiler Unit := do
  let r ← intern name
  beginFunction kind r
  watch .function
  beginScope
  bodyOf inner
  let made ← finishFunction
  let constant ← makeConstant (.ofHandle made.1)
  emitClosure constant made.2

/-- A function declaration after its reserved word, where `rest` reads what follows the name. -/
def functionDeclarationOver : Compiler Unit := do
  let (name, global) ← declareName .functionName
  markInitialized
  rest .function name
  defineVariable global

/-- A method where `rest` reads what follows the name. -/
def methodOver : Compiler Unit := do
  expectKeyword .def_ .methodDef
  let name ← expectName .methodName
  let constant ← nameConstant name
  rest (if name = "init" then .initializer else .method) name
  emit (.method constant)

/-- The methods of a class body where `rest` reads what follows their names. -/
def methodsOver : (fuel : Nat) → Compiler Unit
  | 0 => pure ()
  | fuel + 1 => do
    if !(← look fun s => s.peek?.any (·.isSymbol .rightBrace) || s.atEnd) then
      methodOver rest
      methodsOver fuel

/-- The members of a class, and its end, where `rest` reads what follows the names of methods. -/
def classMembersOver (name : String) : Compiler Unit := do
  namedVariable inner.expression name false
  expect .leftBrace .classOpen
  let left ← look State.remaining
  methodsOver rest left
  expect .rightBrace .classClose
  emit .pop
  let hasSuperclass ← look fun s => s.classes.head?.getD false
  modify fun s => { s with classes := s.classes.tail }
  if hasSuperclass then endScope

/-- A class declaration after its name where `rest` reads what follows the names of methods. -/
def classAfterNameOver (name : String) (constant : UInt16) : Compiler Unit := do
  emit (.class_ constant)
  defineVariable constant
  modify fun s => { s with classes := false :: s.classes }
  if ← accept .colon then superclass inner name
  classMembersOver inner rest name

/-- A declaration where `rest` reads what follows the names of functions. -/
def declarationBodyOver : Compiler Unit := do
  if ← acceptKeyword .class_ then
    declaredClass >>= fun head => classAfterNameOver inner rest head.1 head.2
  else if ← acceptKeyword .def_ then functionDeclarationOver rest
  else if ← acceptKeyword .let_ then letDeclaration inner
  else inner.statement

/-- Methods over the functions of the compiler are its methods. -/
theorem methodsOver_functionRest (fuel : Nat) :
    methodsOver (functionRest inner) fuel = methods inner fuel := by
  induction fuel with
  | zero => rfl
  | succ fuel ih =>
    rw [methodsOver, methods, ih]
    rfl

/-- Declarations over the functions of the compiler are its declarations. -/
theorem declarationBodyOver_functionRest :
    declarationBodyOver inner (functionRest inner) = declarationBody inner := by
  have hclass (name : String) (constant : UInt16) :
      classAfterNameOver inner (functionRest inner) name constant =
        classAfterName inner name constant := by
    unfold classAfterNameOver classAfterName classMembersOver
    simp only [methodsOver_functionRest]
  unfold declarationBodyOver declarationBody
  rw [classDeclaration_eq]
  simp only [hclass]
  rfl

end Forms

/-- The parsers that tell a watch of the moments that compiling comes to. -/
def watchedParsers (watch : Moment → Compiler Unit) : (room : Nat) → Parsers
  | 0 =>
    { declaration := do
        watch .declaration
        recovering (failHere .tooDeeplyNested)
      statement := failHere .tooDeeplyNested
      expression := fun _ => failHere .tooDeeplyNested }
  | room + 1 =>
    let inner := watchedParsers watch room
    { declaration := do
        watch .declaration
        recovering (nested do
          watch .form
          declarationBodyOver inner (watchedFunction watch inner))
      statement := nested do
        watch .form
        statementBody inner
      expression := fun p => nested do
        watch .form
        expressionBody inner.expression p }

/-- A script under a watch. -/
def watchedScript (watch : Moment → Compiler Unit) : Compiler (Option Handle) := do
  let left ← look State.remaining
  program (watchedParsers watch (maxNesting + 1)).declaration left
  emitReturn
  if ← look fun s => s.errors.isEmpty then
    let (function, _) ← finishFunction
    return some function
  else return none

/-- The watch that does nothing. -/
def unwatched : Moment → Compiler Unit := fun _ => pure ()

/-- A function that is not watched is compiled as ever. -/
theorem watchedFunction_unwatched (inner : Parsers) :
    watchedFunction unwatched inner = functionRest inner := by
  funext kind name
  rw [functionRest_eq]
  rfl

/-- Parsers that are not watched are those of the compiler. -/
theorem watchedParsers_unwatched (room : Nat) : watchedParsers unwatched room = parsers room := by
  induction room with
  | zero => rfl
  | succ room ih =>
    rw [watchedParsers, ih, watchedFunction_unwatched, declarationBodyOver_functionRest]
    rfl

/-- Without a watch compiling is what it is. -/
theorem watchedScript_unwatched : watchedScript unwatched = script := by
  rw [watchedScript, watchedParsers_unwatched]
  rfl

open Classical in
/-- The watch that stops with `f` at the moment `m` in the state `s` and does nothing elsewhere. -/
noncomputable def stopAt (m : Moment) (s : State) (f : Fault) : Moment → Compiler Unit :=
  fun m' s' => if m' = m ∧ s' = s then .error (.fault f) s' else .ok () s'

/-- Compiling from `start` comes to the moment `m` in the state `s`. -/
def ComesTo (start : State) (m : Moment) (s : State) : Prop :=
  ∀ f, ∃ s', watchedScript (stopAt m s f) start = .error (.fault f) s'

/-! ### Levels of nesting -/

/-- A step that ends on the level it starts on, whether it succeeds or fails. -/
structure KeepsLevel {α : Type} (x : Compiler α) : Prop where
  ok : ∀ s a s', x s = .ok a s' → s'.nesting = s.nesting
  error : ∀ s stop s', x s = .error stop s' → s'.nesting = s.nesting

/-- Two steps that keep the level and are the same where no more than `room` levels are left. -/
structure SameWithin {α : Type} (room : Nat) (x y : Compiler α) : Prop extends KeepsLevel x where
  same : ∀ s, maxNesting < s.nesting + room → y s = x s

section Levels

variable {α β : Type} {room : Nat} {x y : Compiler α} {s s' : State}

/-- What keeps the level does the same with itself. -/
theorem KeepsLevel.within (h : KeepsLevel x) : SameWithin room x x := ⟨h, fun _ _ => rfl⟩

/-- A step that nests nothing keeps the level. -/
theorem keepsLevel_of_flat [hx : Flat x] : KeepsLevel x where
  ok s a s' := nesting_of_flat
  error s stop s' h := by
    have hsame : x s = resultOn s.nesting (x s) := hx.flat s s.nesting
    rw [h] at hsame
    have hlevel : s' = s'.onLevel s.nesting := (EStateM.Result.error.inj hsame).2
    calc s'.nesting = (s'.onLevel s.nesting).nesting := congrArg State.nesting hlevel
      _ = s.nesting := rfl

/-- A look keeps the level. -/
theorem keepsLevel_look (f : State → α) : KeepsLevel (look f) where
  ok _ _ _ h := by cases h; rfl
  error _ _ _ h := by cases h

/-- A change of anything but the level keeps it. -/
theorem keepsLevel_modify {f : State → State} (hf : ∀ s, (f s).nesting = s.nesting) :
    KeepsLevel (modify f) where
  ok s _ _ h := run_modify.mp h ▸ hf s
  error _ _ _ h := by cases h

/-- Going past a token keeps the level. -/
theorem keepsLevel_take {γ : Type} (f : Option Token → γ) (hit : γ → Bool) :
    KeepsLevel (take f hit) where
  ok s a s' h := by
    rw [take_eq] at h
    cases h
    split <;> rfl
  error s stop s' h := by
    rw [take_eq] at h
    cases h

instance {what : Expectation} : Flat (expectName what) := by
  have hnext : Flat (look State.peek?) := flat_look fun _ _ => rfl
  have hfound : Flat (look State.found) := flat_look fun _ _ => rfl
  unfold expectName
  refine @Flat.bind _ _ _ _ hnext fun t => ?_
  unfold failExpected
  split <;> infer_instance

/-- Steps that do the same do so one after the other. -/
theorem SameWithin.bind {f g : α → Compiler β} (hx : SameWithin room x y)
    (hf : ∀ a, SameWithin room (f a) (g a)) : SameWithin room (x >>= f) (y >>= g) where
  ok s b s' h := by
    obtain ⟨a, s₁, h, h'⟩ := run_bind.mp h
    exact ((hf a).ok _ _ _ h').trans (hx.ok _ _ _ h)
  error s stop s' h := by
    rcases stop_bind.mp h with h | ⟨a, s₁, h, h'⟩
    · exact hx.error _ _ _ h
    · exact ((hf a).error _ _ _ h').trans (hx.ok _ _ _ h)
  same s hs := by
    show EStateM.bind y g s = EStateM.bind x f s
    unfold EStateM.bind
    rw [hx.same s hs]
    cases hr : x s with
    | ok a s₁ => exact (hf a).same s₁ (hx.ok _ _ _ hr ▸ hs)
    | error stop s₁ => rfl

/-- Going on after an error leaves the level as it is. -/
theorem State.nesting_recover (e : CompileError) (back : Checkpoint) :
    (s.recover e back).nesting = s.nesting := by
  obtain ⟨heap, errors, -, -, -, hreport⟩ := s.report_eq e
  obtain ⟨draft, enclosing, hkeep⟩ := (s.report e).keepDrafts_eq back.depth
  unfold State.recover
  rw [hkeep, hreport]

/-- Recovering from the same errors is the same. -/
theorem SameWithin.recovering {x y : Compiler Unit} (h : SameWithin room x y) :
    SameWithin room (recovering x) (recovering y) where
  ok s a s' hr := by
    unfold Compile.recovering at hr
    dsimp only at hr
    split at hr
    · next hbody =>
      cases hr
      exact h.ok _ _ _ hbody
    · next hbody =>
      cases hr
      exact (State.nesting_recover _ _).trans (h.error _ _ _ hbody)
    · cases hr
  error s stop s' hr := by
    unfold Compile.recovering at hr
    dsimp only at hr
    split at hr
    · cases hr
    · cases hr
    · next hbody =>
      cases hr
      exact h.error _ _ _ hbody
  same s hs := by
    unfold Compile.recovering
    rw [h.same s hs]

/-- One level deeper there is one level less left, and the level is left again. -/
theorem SameWithin.nested (h : SameWithin room x y) :
    SameWithin (room + 1) (nested x) (nested y) where
  ok s a s' hr := by
    obtain ⟨-, s₁, hform, rfl⟩ := nested_ok_iff.mp hr
    exact congrArg (· - 1) (h.ok s.deeper a s₁ hform)
  error s stop s' hr := by
    rcases nested_error_iff.mp hr with ⟨-, -, rfl⟩ | ⟨-, s₁, hform, rfl⟩
    · rfl
    · exact congrArg (· - 1) (h.error s.deeper stop s₁ hform)
  same s hs := by
    have hdeeper : maxNesting < s.deeper.nesting + room := by
      show maxNesting < s.nesting + 1 + room
      omega
    unfold Compile.nested
    rw [h.same s.deeper hdeeper]

/-- All forms keep the level, and are the same as far as the forms in them are. -/
instance walk_sameWithin (room : Nat) : Walk (fun _ x y => SameWithin room x y) recovering where
  pure _ := keepsLevel_of_flat.within
  bind hx hf := hx.bind hf
  look f := (keepsLevel_look f).within
  failHere _ := keepsLevel_of_flat.within
  failBefore _ := keepsLevel_of_flat.within
  take f hit _ := (keepsLevel_take f hit).within
  recode _ _ := keepsLevel_of_flat.within
  intern _ := keepsLevel_of_flat.within
  captureVariable _ := keepsLevel_of_flat.within
  beginScope := keepsLevel_of_flat.within
  beginFunction _ _ := keepsLevel_of_flat.within
  finishFunction := keepsLevel_of_flat.within
  endScope := keepsLevel_of_flat.within
  addSuper := keepsLevel_of_flat.within
  markInitialized := keepsLevel_of_flat.within
  classes f := (keepsLevel_modify (f := fun s => { s with classes := f s }) fun _ => rfl).within
  declaredName what := by
    have hflat : Flat (declaredName what) := by
      unfold declaredName
      infer_instance
    exact keepsLevel_of_flat.within
  declaredClass := by
    have hflat : Flat declaredClass := by
      unfold declaredClass
      infer_instance
    exact keepsLevel_of_flat.within
  recovering h := h.recovering

/-- Where no more than `room` levels are left, room for more levels makes no difference. -/
theorem parsers_sameWithin (room more : Nat) :
    (parsers room).Walks (fun _ x y => SameWithin room x y) (parsers (room + more)) := by
  have hsame {α : Type} : SameWithin 0 (failHere .tooDeeplyNested : Compiler α)
      (failHere .tooDeeplyNested) := keepsLevel_of_flat.within
  -- what is too deep by now is not looked at
  have hstop {α : Type} (x : Compiler α) : SameWithin 0 (failHere .tooDeeplyNested) (nested x) :=
    { keepsLevel_of_flat with
      same := fun s hs => nested_full (Nat.le_of_lt hs) }
  induction room with
  | zero =>
    rw [Nat.zero_add]
    cases more with
    | zero => exact {
        statement := ⟨hsame⟩
        expression := fun _ => ⟨hsame⟩
        declaration := ⟨hsame.recovering⟩ }
    | succ more => exact {
        statement := ⟨hstop _⟩
        expression := fun _ => ⟨hstop _⟩
        declaration := ⟨(hstop _).recovering⟩ }
  | succ room ih =>
    rw [Nat.succ_add]
    have hstatement : Walks (fun _ x y => SameWithin room x y) (statementBody (parsers room))
        (statementBody (parsers (room + more))) := inferInstance
    have hexpression (p : Precedence) : Walks (fun _ x y => SameWithin room x y)
        (expressionBody (parsers room).expression p)
        (expressionBody (parsers (room + more)).expression p) := inferInstance
    have hdeclaration : Walks (fun _ x y => SameWithin room x y) (declarationBody (parsers room))
        (declarationBody (parsers (room + more))) := inferInstance
    exact {
      statement := ⟨hstatement.walks.nested⟩
      expression := fun p => ⟨(hexpression p).walks.nested⟩
      declaration := ⟨hdeclaration.walks.nested.recovering⟩ }

/-- The parsers never run out of room: more of it makes no difference anywhere. -/
theorem parsers_eq (more : Nat) : parsers (maxNesting + 1 + more) = parser := by
  have h := parsers_sameWithin (maxNesting + 1) more
  have hleft (s : State) : maxNesting < s.nesting + (maxNesting + 1) := by omega
  have hdeclaration := funext fun s => h.declaration.walks.same s (hleft s)
  have hstatement := funext fun s => h.statement.walks.same s (hleft s)
  have hexpression := funext fun p => funext fun s => (h.expression p).walks.same s (hleft s)
  calc parsers (maxNesting + 1 + more) = ⟨_, _, _⟩ := rfl
    _ = parser := by rw [hdeclaration, hstatement, hexpression]

/-- The parsers call each other one level deeper, and in no other way. -/
theorem parser_eq : parser =
    { declaration := recovering (nested (declarationBody parser))
      statement := nested (statementBody parser)
      expression := fun p => nested (expressionBody parser.expression p) } := (parsers_eq 1).symm

/-- Every parser ends on the level it starts on. -/
theorem parser_keepsLevel : KeepsLevel parser.declaration ∧ KeepsLevel parser.statement ∧
    (∀ p, KeepsLevel (parser.expression p)) ∧ KeepsLevel (nested (declarationBody parser)) := by
  have h := parsers_sameWithin (maxNesting + 1) 0
  have hbody : Walks (fun _ x y => SameWithin (maxNesting + 1) x y) (declarationBody parser)
      (declarationBody (parsers (maxNesting + 1 + 0))) := inferInstance
  exact ⟨h.declaration.walks.toKeepsLevel, h.statement.walks.toKeepsLevel,
    fun p => (h.expression p).walks.toKeepsLevel, hbody.walks.nested.toKeepsLevel⟩

end Levels

end ScriptMachine.Compile
