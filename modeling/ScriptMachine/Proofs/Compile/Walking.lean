import ScriptMachine.Proofs.Syntax.Phrases

/-!
# Walks through the grammar

Every form of the grammar is composed of a few steps. A relation between steps that these steps
are in, and that goes on along their composition, holds of the forms too, so what all forms have in
common is proved of the steps alone. The second of two related forms may treat declarations that
fail in another way; this is the only place where forms that are related differ.
-/

namespace ScriptMachine.Compile

/-- A problem that is about one place of the source. -/
class Problem.Single (p : Problem) : Prop where
  single : p.previous? = none

section Single

variable {name : String}

instance {what : Expectation} {found : String} : (Problem.expected what found).Single := ⟨rfl⟩

instance {found : String} : (Problem.expectedExpression found).Single := ⟨rfl⟩

instance : Problem.invalidAssignmentTarget.Single := ⟨rfl⟩

instance : (Problem.ownInitializer name).Single := ⟨rfl⟩

instance : Problem.tooManyLocals.Single := ⟨rfl⟩

instance : Problem.tooManyParameters.Single := ⟨rfl⟩

instance : Problem.tooManyArguments.Single := ⟨rfl⟩

instance : Problem.tooManyConstants.Single := ⟨rfl⟩

instance : Problem.jumpTooLarge.Single := ⟨rfl⟩

instance : Problem.loopTooLarge.Single := ⟨rfl⟩

instance : Problem.returnAtTopLevel.Single := ⟨rfl⟩

instance : Problem.thisOutsideClass.Single := ⟨rfl⟩

instance : Problem.superOutsideClass.Single := ⟨rfl⟩

instance : Problem.superWithoutSuperclass.Single := ⟨rfl⟩

instance : Problem.inheritFromSelf.Single := ⟨rfl⟩

instance : Problem.tooDeeplyNested.Single := ⟨rfl⟩

end Single

/-! ### Steps -/

/-- Reads a token if the look at it says so. -/
def take {γ : Type} (f : Option Token → γ) (hit : γ → Bool) : Compiler γ := do
  let found ← look fun s => f s.peek?
  if hit found then advance
  return found

/-- A token that is looked for is gone past if it is next. -/
theorem take_eq {γ : Type} (f : Option Token → γ) (hit : γ → Bool) (s : State) : take f hit s =
    .ok (f s.peek?) (if hit (f s.peek?) then { s with pos := s.pos + 1 } else s) := by
  simp only [take, bind, EStateM.bind, look]
  split <;> rfl

/-- Reads a name and declares it. -/
def declaredName (what : Expectation) : Compiler String := do
  let name ← expectName what
  declareVariable name
  return name

/-- Reads the name of a class, whose constant comes before its declaration. -/
def declaredClass : Compiler (String × UInt16) := do
  let name ← expectName .className
  let constant ← nameConstant name
  declareVariable name
  return (name, constant)

/-- The drafts differ in their code only: names mean the same in both. -/
structure Draft.Recoded (d d' : Draft) : Prop where
  kind : d'.kind = d.kind
  name : d'.name = d.name
  locals : d'.locals = d.locals
  scopeDepth : d'.scopeDepth = d.scopeDepth

/-- A relation between steps that goes along with their composition, and that the steps of
expressions are in: they read tokens, intern texts, write code and look up names. -/
class Stride (R : (α : Type) → Compiler α → Compiler α → Prop) : Prop where
  pure {α : Type} (a : α) : R α (pure a) (pure a)
  bind {α β : Type} {x y : Compiler α} {f g : α → Compiler β} (hx : R α x y)
    (hf : ∀ a, R β (f a) (g a)) : R β (x >>= f) (y >>= g)
  look {α : Type} (f : State → α) : R α (look f) (look f)
  failHere {α : Type} (p : Problem) [p.Single] : R α (failHere p) (failHere p)
  failBefore {α : Type} (p : Problem) [p.Single] : R α (failBefore p) (failBefore p)
  take {γ : Type} (f : Option Token → γ) (hit : γ → Bool) (hnone : hit (f none) = false) :
    R γ (take f hit) (take f hit)
  recode (f : Draft → Draft) (hf : ∀ d : Draft, d.Recoded (f d)) :
    R Unit (modifyDraft f) (modifyDraft f)
  intern (chars : String) : R Handle (intern chars) (intern chars)
  captureVariable (name : String) :
    R (Option UInt8) (captureVariable name) (captureVariable name)

/-- A relation that the steps of declarations are in too. Where the first of two related steps
recovers from a declaration that failed, the second one does what `wrap` says. -/
class Walk (R : (α : Type) → Compiler α → Compiler α → Prop)
    (wrap : outParam (Compiler Unit → Compiler Unit)) : Prop extends Stride R where
  beginScope : R Unit beginScope beginScope
  beginFunction (kind : FunctionKind) (name : Handle) :
    R Unit (beginFunction kind name) (beginFunction kind name)
  finishFunction : R (Handle × Array Capture) finishFunction finishFunction
  endScope : R Unit endScope endScope
  addSuper : R Unit (addLocal "super" Source.Span.none) (addLocal "super" Source.Span.none)
  markInitialized : R Unit markInitialized markInitialized
  classes (f : State → List Bool) : R Unit (modify fun s => { s with classes := f s })
    (modify fun s => { s with classes := f s })
  declaredName (what : Expectation) : R String (declaredName what) (declaredName what)
  declaredClass : R (String × UInt16) declaredClass declaredClass
  recovering {x y : Compiler Unit} (h : R Unit x y) : R Unit (recovering x) (wrap y)

/-- A relation that is kept one level deeper. -/
class Deepens (R : (α : Type) → Compiler α → Compiler α → Prop) : Prop where
  nested {α : Type} {x y : Compiler α} (h : R α x y) : R α (nested x) (nested y)

/-- Two steps are related by a walk. -/
class Walks (R : (α : Type) → Compiler α → Compiler α → Prop) {α : Type} (x y : Compiler α) :
    Prop where
  walks : R α x y

/-- A step that is related to itself. -/
abbrev WalksOn (R : (α : Type) → Compiler α → Compiler α → Prop) {α : Type} (x : Compiler α) :
    Prop := Walks R x x

variable {R : (α : Type) → Compiler α → Compiler α → Prop}

section Steps

variable [Stride R] {α β : Type}

instance Walks.bind {x y : Compiler α} {f g : α → Compiler β} [hx : Walks R x y]
    [hf : ∀ a, Walks R (f a) (g a)] : Walks R (x >>= f) (y >>= g) :=
  ⟨Stride.bind hx.walks fun a => (hf a).walks⟩

instance {c : Prop} [Decidable c] {x y x' y' : Compiler α} [Walks R x y] [Walks R x' y'] :
    Walks R (if c then x else x') (if c then y else y') := by
  split <;> infer_instance

instance {a : α} : WalksOn R (pure a : Compiler α) := ⟨Stride.pure a⟩

instance {f : State → α} : WalksOn R (look f) := ⟨Stride.look f⟩

instance {p : Problem} [p.Single] : WalksOn R (failHere p : Compiler α) := ⟨Stride.failHere p⟩

instance {p : Problem} [p.Single] : WalksOn R (failBefore p : Compiler α) := ⟨Stride.failBefore p⟩

instance {chars : String} : WalksOn R (intern chars) := ⟨Stride.intern chars⟩

instance {name : String} : WalksOn R (captureVariable name) := ⟨Stride.captureVariable name⟩

/-! ### Tokens -/

instance {what : Expectation} : WalksOn R (failExpected what : Compiler α) := by
  unfold failExpected
  infer_instance

instance : WalksOn R next? := ⟨Stride.take id Option.isSome rfl⟩

instance {symbol : Symbol} : WalksOn R (check symbol) := by
  unfold check
  infer_instance

instance {symbol : Symbol} : WalksOn R (accept symbol) :=
  ⟨Stride.take (fun t => t.any (·.isSymbol symbol)) id rfl⟩

instance {keyword : Keyword} : WalksOn R (acceptKeyword keyword) :=
  ⟨Stride.take (fun t => t.any (·.isKeyword keyword)) id rfl⟩

instance {allowed : Bool} {symbol : Symbol} : WalksOn R (acceptIf allowed symbol) := by
  unfold acceptIf
  infer_instance

instance {allowed : Bool} : WalksOn R (acceptCompound allowed) := by
  have htake : WalksOn R (take (·.bind compound?) Option.isSome) := ⟨Stride.take _ _ rfl⟩
  unfold acceptCompound
  split
  · exact htake
  · infer_instance

instance {symbol : Symbol} {what : Expectation} : WalksOn R (expect symbol what) := by
  unfold expect
  infer_instance

instance {keyword : Keyword} {what : Expectation} : WalksOn R (expectKeyword keyword what) := by
  unfold expectKeyword
  infer_instance

/-- The spelling of a token that is a name. -/
def nameOf? : Option Token → Option String
  | some (.name spelling) => some spelling
  | _ => none

/-- A name that has to be there is taken, or it is an error. -/
theorem expectName_eq (what : Expectation) : expectName what = (do
    match ← take nameOf? Option.isSome with
    | some spelling => return spelling
    | none => failExpected what) := by
  funext s
  simp only [expectName, take, bind, EStateM.bind, look]
  cases s.peek? with
  | none => rfl
  | some t => cases t <;> rfl

instance {what : Expectation} : WalksOn R (expectName what) := by
  have htake : WalksOn R (take nameOf? Option.isSome) := ⟨Stride.take _ _ rfl⟩
  rw [expectName_eq]
  refine @Walks.bind _ _ _ _ _ _ _ _ htake fun name => ?_
  cases name <;> infer_instance

/-! ### Code -/

omit [Stride R] in
/-- A change of the code alone is walked. -/
theorem walksOn_modifyDraft [Stride R] {f : Draft → Draft} (hf : ∀ d : Draft, d.Recoded (f d)) :
    WalksOn R (modifyDraft f) := ⟨Stride.recode f hf⟩

instance {i : Instr} : WalksOn R (emit i) := by
  have hemit (line : UInt32) : WalksOn R (modifyDraft (·.emit i.encode line)) :=
    walksOn_modifyDraft fun _ => ⟨rfl, rfl, rfl, rfl⟩
  unfold emit
  infer_instance

instance {is : List Instr} : WalksOn R (emitAll is) := by
  induction is with
  | nil => exact inferInstanceAs (WalksOn R (pure ()))
  | cons i is ih => exact inferInstanceAs (WalksOn R (emit i >>= fun _ => emitAll is))

instance : WalksOn R here := by
  unfold here
  infer_instance

instance {jump : UInt16 → Instr} : WalksOn R (emitJump jump) := by
  unfold emitJump
  infer_instance

instance {at_ : Nat} : WalksOn R (patchJump at_) := by
  have hpatch (distance : UInt16) : WalksOn R (modifyDraft fun d =>
      { d with chunk := d.chunk.patch at_ distance }) :=
    walksOn_modifyDraft fun _ => ⟨rfl, rfl, rfl, rfl⟩
  unfold patchJump
  infer_instance

instance {start : Nat} : WalksOn R (emitLoop start) := by
  unfold emitLoop
  infer_instance

instance : WalksOn R emitReturn := by
  unfold emitReturn
  infer_instance

instance {v : Value} : WalksOn R (makeConstant v) := by
  have hadd (index : UInt16) : WalksOn R (modifyDraft fun d =>
      { d with chunk := d.chunk.pushConstant v, pool := d.pool.insert v.bits index }) :=
    walksOn_modifyDraft fun _ => ⟨rfl, rfl, rfl, rfl⟩
  unfold makeConstant
  refine @Walks.bind _ _ _ _ _ _ _ _ _ fun found => ?_
  cases found <;> infer_instance

instance {v : Value} : WalksOn R (emitConstant v) := by
  unfold emitConstant
  infer_instance

instance {name : String} : WalksOn R (nameConstant name) := by
  unfold nameConstant
  infer_instance

instance {function : UInt16} {captures : Array Capture} :
    WalksOn R (emitClosure function captures) := by
  have hrecoded (line : UInt32) (d : Draft) :
      d.Recoded (captures.foldl (fun d c => d.emit c.encode line) d) := by
    rw [← Array.foldl_toList]
    induction captures.toList generalizing d with
    | nil => exact ⟨rfl, rfl, rfl, rfl⟩
    | cons c cs ih =>
      have hrest := ih (d.emit c.encode line)
      exact ⟨hrest.kind, hrest.name, hrest.locals, hrest.scopeDepth⟩
  have hemit (line : UInt32) : WalksOn R (modifyDraft fun d =>
      captures.foldl (fun d c => d.emit c.encode line) d) := walksOn_modifyDraft (hrecoded line)
  unfold emitClosure
  infer_instance

/-! ### Names -/

instance {name : String} : WalksOn R (resolve name) := by
  unfold resolve
  refine @Walks.bind _ _ _ _ _ _ _ _ _ fun found => ?_
  rcases found with _ | ⟨slot, _ | _⟩
  · refine @Walks.bind _ _ _ _ _ _ _ _ _ fun index => ?_
    cases index <;> infer_instance
  · infer_instance
  · infer_instance

end Steps

/-! ### Expressions -/

section Expressions

variable [Stride R] {nested nested' : Precedence → Compiler Unit}
  [∀ p, Walks R (nested p) (nested' p)]

instance : Walks R (nestedExpression nested) (nestedExpression nested') := by
  unfold nestedExpression
  infer_instance

instance {name : String} {canAssign : Bool} :
    Walks R (namedVariable nested name canAssign) (namedVariable nested' name canAssign) := by
  unfold namedVariable
  refine @Walks.bind _ _ _ _ _ _ _ _ _ fun access =>
    @Walks.bind _ _ _ _ _ _ _ _ _ fun hit => ?_
  split
  · infer_instance
  · refine @Walks.bind _ _ _ _ _ _ _ _ _ fun op => ?_
    cases op <;> infer_instance

instance {room : Nat} : Walks R (arguments nested room) (arguments nested' room) := by
  induction room with
  | zero =>
    unfold arguments
    infer_instance
  | succ room ih =>
    unfold arguments
    infer_instance

instance : Walks R (argumentList nested) (argumentList nested') := by
  unfold argumentList
  infer_instance

instance {canAssign : Bool} :
    Walks R (property nested canAssign) (property nested' canAssign) := by
  unfold property
  refine @Walks.bind _ _ _ _ _ _ _ _ _ fun name =>
    @Walks.bind _ _ _ _ _ _ _ _ _ fun constant =>
    @Walks.bind _ _ _ _ _ _ _ _ _ fun hit => ?_
  split
  · infer_instance
  · refine @Walks.bind _ _ _ _ _ _ _ _ _ fun op => ?_
    cases op <;> infer_instance

instance : Walks R (superProperty nested) (superProperty nested') := by
  unfold superProperty
  refine @Walks.bind _ _ _ _ _ _ _ _ _ fun parent => ?_
  split
  · infer_instance
  · infer_instance
  · repeat with_reducible refine @Walks.bind _ _ _ _ _ _ _ _ inferInstance fun _ => ?_
    infer_instance

instance : Walks R (receiver nested) (receiver nested') := by
  unfold receiver
  infer_instance

instance {t : Token} {canAssign : Bool} :
    Walks R (operand nested t canAssign) (operand nested' t canAssign) := by
  unfold operand
  split <;> infer_instance

instance : Walks R (conjunction nested) (conjunction nested') := by
  unfold conjunction
  infer_instance

instance : Walks R (disjunction nested) (disjunction nested') := by
  unfold disjunction
  infer_instance

instance {symbol : Symbol} {canAssign : Bool} :
    Walks R (continuation nested symbol canAssign) (continuation nested' symbol canAssign) := by
  unfold continuation
  split
  · infer_instance
  · infer_instance
  · infer_instance
  · infer_instance
  · split <;> infer_instance

/-- Reading an operator and going on behind it. -/
theorem continuations_succ (nested : Precedence → Compiler Unit) (p : Precedence)
    (canAssign : Bool) (fuel : Nat) : continuations nested p canAssign (fuel + 1) = (do
      match ← take (·.bind (trailing? p)) Option.isSome with
      | none => pure ()
      | some symbol =>
        continuation nested symbol canAssign
        continuations nested p canAssign fuel) := by
  funext s
  simp only [continuations, take, bind, EStateM.bind, look]
  cases s.peek?.bind (trailing? p) <;> rfl

instance {p : Precedence} {canAssign : Bool} {fuel : Nat} :
    Walks R (continuations nested p canAssign fuel) (continuations nested' p canAssign fuel) := by
  have htake : WalksOn R (take (·.bind (trailing? p)) Option.isSome) := ⟨Stride.take _ _ rfl⟩
  induction fuel with
  | zero => exact inferInstanceAs (WalksOn R (pure ()))
  | succ fuel ih =>
    rw [continuations_succ, continuations_succ]
    refine @Walks.bind _ _ _ _ _ _ _ _ htake fun symbol => ?_
    cases symbol <;> infer_instance

instance {p : Precedence} : Walks R (expressionBody nested p) (expressionBody nested' p) := by
  unfold expressionBody
  refine @Walks.bind _ _ _ _ _ _ _ _ _ fun t => ?_
  cases t <;> infer_instance

end Expressions

/-! ### Statements -/

/-- The parsers of nested statements and expressions are related. -/
class Parsers.Strides (R : (α : Type) → Compiler α → Compiler α → Prop) (inner inner' : Parsers) :
    Prop where
  statement : Walks R inner.statement inner'.statement
  expression : ∀ p, Walks R (inner.expression p) (inner'.expression p)

attribute [instance] Parsers.Strides.statement Parsers.Strides.expression

section Statements

variable [Stride R] {inner inner' : Parsers} [inner.Strides R inner']

instance : Walks R (expression inner) (expression inner') := by
  unfold expression
  infer_instance

instance {open_ : Expectation} : Walks R (condition inner open_) (condition inner' open_) := by
  unfold condition
  infer_instance

instance : Walks R (ifStatement inner) (ifStatement inner') := by
  unfold ifStatement
  repeat with_reducible refine @Walks.bind _ _ _ _ _ _ _ _ inferInstance fun _ => ?_
  dsimp only
  split
  all_goals
    repeat with_reducible refine @Walks.bind _ _ _ _ _ _ _ _ inferInstance fun _ => ?_
    infer_instance

instance : Walks R (whileStatement inner) (whileStatement inner') := by
  unfold whileStatement
  repeat with_reducible refine @Walks.bind _ _ _ _ _ _ _ _ inferInstance fun _ => ?_
  infer_instance

instance : Walks R (doWhileStatement inner) (doWhileStatement inner') := by
  unfold doWhileStatement
  repeat with_reducible refine @Walks.bind _ _ _ _ _ _ _ _ inferInstance fun _ => ?_
  infer_instance

instance : Walks R (forCondition inner) (forCondition inner') := by
  unfold forCondition
  refine @Walks.bind _ _ _ _ _ _ _ _ inferInstance fun _ => ?_
  split <;> infer_instance

instance {start : Nat} : Walks R (forStep inner start) (forStep inner' start) := by
  unfold forStep
  refine @Walks.bind _ _ _ _ _ _ _ _ inferInstance fun _ => ?_
  split
  all_goals
    repeat with_reducible refine @Walks.bind _ _ _ _ _ _ _ _ inferInstance fun _ => ?_
    infer_instance

instance : Walks R (returnStatement inner) (returnStatement inner') := by
  unfold returnStatement
  repeat with_reducible refine @Walks.bind _ _ _ _ _ _ _ _ inferInstance fun _ => ?_
  dsimp only
  split
  all_goals
    repeat with_reducible refine @Walks.bind _ _ _ _ _ _ _ _ inferInstance fun _ => ?_
    infer_instance

instance : Walks R (printStatement inner) (printStatement inner') := by
  unfold printStatement
  infer_instance

instance : Walks R (expressionStatement inner) (expressionStatement inner') := by
  unfold expressionStatement
  infer_instance

end Statements

/-! ### Scopes and declarations -/

section Scopes

variable {wrap : Compiler Unit → Compiler Unit} [Walk R wrap]

instance : WalksOn R beginScope := ⟨Walk.beginScope⟩

instance {kind : FunctionKind} {name : Handle} : WalksOn R (beginFunction kind name) :=
  ⟨Walk.beginFunction kind name⟩

instance : WalksOn R finishFunction := ⟨Walk.finishFunction⟩

instance : WalksOn R endScope := ⟨Walk.endScope⟩

instance : WalksOn R (addLocal "super" Source.Span.none) := ⟨Walk.addSuper⟩

instance : WalksOn R markInitialized := ⟨Walk.markInitialized⟩

instance {f : State → List Bool} : WalksOn R (modify fun s => { s with classes := f s }) :=
  ⟨Walk.classes f⟩

instance {what : Expectation} : WalksOn R (declaredName what) := ⟨Walk.declaredName what⟩

instance : WalksOn R declaredClass := ⟨Walk.declaredClass⟩

instance {x y : Compiler Unit} [h : Walks R x y] : Walks R (recovering x) (wrap y) :=
  ⟨Walk.recovering h.walks⟩

/-- A name is declared as a local, or kept as a constant for a global. -/
theorem declareName_eq (what : Expectation) : declareName what = (do
    let name ← declaredName what
    if (← look fun s => s.draft.scopeDepth) > 0 then return (name, 0)
    else
      let constant ← nameConstant name
      return (name, constant)) := by
  simp only [declareName, declaredName, bind_assoc, pure_bind]

instance {what : Expectation} : WalksOn R (declareName what) := by
  rw [declareName_eq]
  infer_instance

instance {global : UInt16} : WalksOn R (defineVariable global) := by
  unfold defineVariable
  infer_instance

end Scopes

/-- The parsers of what is nested are related. -/
class Parsers.Walks (R : (α : Type) → Compiler α → Compiler α → Prop) (inner inner' : Parsers) :
    Prop extends inner.Strides R inner' where
  declaration : Compile.Walks R inner.declaration inner'.declaration

attribute [instance] Parsers.Walks.declaration

section Declarations

variable {wrap : Compiler Unit → Compiler Unit} [Walk R wrap] {inner inner' : Parsers}
  [inner.Walks R inner']

instance {fuel : Nat} : Walks R (declarations inner fuel) (declarations inner' fuel) := by
  induction fuel with
  | zero => exact inferInstanceAs (WalksOn R (pure ()))
  | succ fuel ih =>
    unfold declarations
    infer_instance

instance : Walks R (block inner) (block inner') := by
  unfold block
  infer_instance

instance {room : Nat} : WalksOn R (parameters room) := by
  induction room with
  | zero => exact inferInstanceAs (WalksOn R (failHere _))
  | succ room ih =>
    unfold parameters
    infer_instance

instance {kind : FunctionKind} {name : String} :
    Walks R (functionRest inner kind name) (functionRest inner' kind name) := by
  have harity (arity : Nat) : WalksOn R (modifyDraft fun d => { d with arity := arity.toUInt8 }) :=
    walksOn_modifyDraft fun _ => ⟨rfl, rfl, rfl, rfl⟩
  unfold functionRest
  repeat with_reducible refine @Walks.bind _ _ _ _ _ _ _ _ inferInstance fun _ => ?_
  dsimp only
  split
  all_goals
    repeat with_reducible refine @Walks.bind _ _ _ _ _ _ _ _ inferInstance fun _ => ?_
    infer_instance

instance : Walks R (functionDeclaration inner) (functionDeclaration inner') := by
  unfold functionDeclaration
  infer_instance

instance : Walks R (method inner) (method inner') := by
  unfold method
  infer_instance

instance {fuel : Nat} : Walks R (methods inner fuel) (methods inner' fuel) := by
  induction fuel with
  | zero => exact inferInstanceAs (WalksOn R (pure ()))
  | succ fuel ih =>
    unfold methods
    infer_instance

instance {className : String} :
    Walks R (superclass inner className) (superclass inner' className) := by
  unfold superclass
  repeat with_reducible refine @Walks.bind _ _ _ _ _ _ _ _ inferInstance fun _ => ?_
  dsimp only
  split
  all_goals
    repeat with_reducible refine @Walks.bind _ _ _ _ _ _ _ _ inferInstance fun _ => ?_
    infer_instance

/-- A class declaration after its name. -/
def classAfterName (inner : Parsers) (name : String) (constant : UInt16) : Compiler Unit := do
  emit (.class_ constant)
  defineVariable constant
  modify fun s => { s with classes := false :: s.classes }
  if ← accept .colon then superclass inner name
  namedVariable inner.expression name false
  expect .leftBrace .classOpen
  let left ← look State.remaining
  methods inner left
  expect .rightBrace .classClose
  emit .pop
  let hasSuperclass ← look fun s => s.classes.head?.getD false
  modify fun s => { s with classes := s.classes.tail }
  if hasSuperclass then endScope

/-- A class declaration is its name and what follows. -/
theorem classDeclaration_eq (inner : Parsers) :
    classDeclaration inner = declaredClass >>= fun head => classAfterName inner head.1 head.2 := by
  simp only [classDeclaration, declaredClass, classAfterName, bind_assoc, pure_bind]

instance {name : String} {constant : UInt16} :
    Walks R (classAfterName inner name constant) (classAfterName inner' name constant) := by
  unfold classAfterName
  repeat with_reducible refine @Walks.bind _ _ _ _ _ _ _ _ inferInstance fun _ => ?_
  dsimp only
  split
  all_goals
    repeat with_reducible refine @Walks.bind _ _ _ _ _ _ _ _ inferInstance fun _ => ?_
    infer_instance

instance : Walks R (classDeclaration inner) (classDeclaration inner') := by
  rw [classDeclaration_eq, classDeclaration_eq]
  infer_instance

instance : Walks R (letDeclaration inner) (letDeclaration inner') := by
  unfold letDeclaration
  infer_instance

instance : Walks R (forStart inner) (forStart inner') := by
  unfold forStart
  refine @Walks.bind _ _ _ _ _ _ _ _ inferInstance fun _ => ?_
  split <;> infer_instance

instance : Walks R (forStatement inner) (forStatement inner') := by
  unfold forStatement
  repeat with_reducible refine @Walks.bind _ _ _ _ _ _ _ _ inferInstance fun _ => ?_
  split <;> infer_instance

instance : Walks R (blockStatement inner) (blockStatement inner') := by
  unfold blockStatement
  infer_instance

/-- The reserved words and the symbol that start a statement of their own. -/
def statementStart : Option Token → Option Token
  | some (.keyword .print_) => some (.keyword .print_)
  | some (.keyword .if_) => some (.keyword .if_)
  | some (.keyword .while_) => some (.keyword .while_)
  | some (.keyword .do_) => some (.keyword .do_)
  | some (.keyword .for_) => some (.keyword .for_)
  | some (.keyword .return_) => some (.keyword .return_)
  | some (.symbol .leftBrace) => some (.symbol .leftBrace)
  | _ => none

/-- A statement after the token that starts it, if one does. -/
def statementRest (inner : Parsers) : Option Token → Compiler Unit
  | some (.keyword .print_) => printStatement inner
  | some (.keyword .if_) => ifStatement inner
  | some (.keyword .while_) => whileStatement inner
  | some (.keyword .do_) => doWhileStatement inner
  | some (.keyword .for_) => forStatement inner
  | some (.keyword .return_) => returnStatement inner
  | some (.symbol .leftBrace) => blockStatement inner
  | _ => expressionStatement inner

/-- A statement is what it starts with and what follows. -/
theorem statementBody_eq (inner : Parsers) :
    statementBody inner = take statementStart Option.isSome >>= statementRest inner := by
  funext s
  simp only [statementBody, take, bind, EStateM.bind, look]
  cases s.peek? with
  | none => rfl
  | some t =>
    cases t with
    | keyword k => cases k <;> rfl
    | symbol c => cases c <;> rfl
    | _ => rfl

instance : Walks R (statementBody inner) (statementBody inner') := by
  have htake : WalksOn R (take statementStart Option.isSome) := ⟨Stride.take _ _ rfl⟩
  rw [statementBody_eq, statementBody_eq]
  refine @Walks.bind _ _ _ _ _ _ _ _ htake fun start => ?_
  unfold statementRest
  split <;> infer_instance

instance : Walks R (declarationBody inner) (declarationBody inner') := by
  unfold declarationBody
  infer_instance

end Declarations

/-! ### Programs -/

instance [Stride R] {x y : Compiler Unit} [Walks R x y] {fuel : Nat} :
    Walks R (program x fuel) (program y fuel) := by
  induction fuel with
  | zero => exact inferInstanceAs (WalksOn R (pure ()))
  | succ fuel ih =>
    unfold program
    infer_instance

/-- The parsers that do at a declaration what `wrap` says. -/
def parsersOf (wrap : Compiler Unit → Compiler Unit) : (room : Nat) → Parsers
  | 0 =>
    { declaration := wrap (failHere .tooDeeplyNested)
      statement := failHere .tooDeeplyNested
      expression := fun _ => failHere .tooDeeplyNested }
  | room + 1 =>
    let inner := parsersOf wrap room
    { declaration := wrap (nested (declarationBody inner))
      statement := nested (statementBody inner)
      expression := fun p => nested (expressionBody inner.expression p) }

section Programs

variable {wrap : Compiler Unit → Compiler Unit} [Walk R wrap] [Deepens R]

instance {α : Type} {x y : Compiler α} [h : Walks R x y] : Walks R (nested x) (nested y) :=
  ⟨Deepens.nested h.walks⟩

instance walks_parsers (room : Nat) : (parsers room).Walks R (parsersOf wrap room) := by
  induction room with
  | zero => exact {
      statement := inferInstanceAs (WalksOn R (failHere _))
      expression := fun _ => inferInstanceAs (WalksOn R (failHere _))
      declaration := inferInstanceAs (Walks R (recovering (failHere _)) (wrap (failHere _))) }
  | succ room ih => exact {
      statement := inferInstanceAs
        (Walks R (nested (statementBody (parsers room)))
          (nested (statementBody (parsersOf wrap room))))
      expression := fun p => inferInstanceAs
        (Walks R (nested (expressionBody (parsers room).expression p))
          (nested (expressionBody (parsersOf wrap room).expression p)))
      declaration := inferInstanceAs (Walks R (recovering (nested (declarationBody (parsers room))))
        (wrap (nested (declarationBody (parsersOf wrap room))))) }

/-- A script whose declarations do what `wrap` says. -/
def scriptOf (wrap : Compiler Unit → Compiler Unit) : Compiler (Option Handle) := do
  let left ← look State.remaining
  program (parsersOf wrap (maxNesting + 1)).declaration left
  emitReturn
  if ← look fun s => s.errors.isEmpty then
    let (function, _) ← finishFunction
    return some function
  else return none

/-- A walk leads through a whole script. -/
theorem walks_script : R _ script (scriptOf wrap) := by
  have hscript : Walks R script (scriptOf wrap) := by
    unfold script scriptOf
    repeat with_reducible refine @Walks.bind _ _ _ _ _ _ _ _ inferInstance fun _ => ?_
    split <;> infer_instance
  exact hscript.walks

end Programs

end ScriptMachine.Compile
