import ScriptMachine.Proofs.Syntax.Blocks

/-!
# Errors are never taken back

Whatever the compiler does, the errors that were reported stay reported, and not more of them are
kept than there is room for. A declaration that fails adds its error and the compiler goes on.
-/

namespace ScriptMachine.Compile

variable {α β : Type} {s s' s₁ : State}

/-- From `s` to `s'` no error was taken back, and there is room for all of them. -/
structure State.Grown (s s' : State) : Prop where
  kept : ∀ e ∈ s.errors, e ∈ s'.errors
  bounded : s.errors.size ≤ maxErrors → s'.errors.size ≤ maxErrors

/-- The same errors have grown by none. -/
theorem State.grown_of_eq (h : s'.errors = s.errors) : s.Grown s' :=
  ⟨fun _ he => h ▸ he, fun hs => h ▸ hs⟩

/-- Growing twice is growing. -/
theorem State.Grown.trans (h : s.Grown s₁) (h' : s₁.Grown s') : s.Grown s' :=
  ⟨fun e he => h'.kept e (h.kept e he), fun hs => h'.bounded (h.bounded hs)⟩

/-- A step that takes back no error, whether it succeeds or a problem stops it. -/
class Grows (x : Compiler α) : Prop where
  ok : ∀ s a s', x s = .ok a s' → s.Grown s'
  problem : ∀ s e s', x s = .error (.problem e) s' → s.Grown s'

section Instances

instance (priority := low) {x : Compiler α} [h : Quiet x] : Grows x where
  ok s a s' hx := State.grown_of_eq (h.still s a s' hx).errors
  problem s e s' hx := State.grown_of_eq (h.stopped s e s' hx).1

instance Grows.bind {x : Compiler α} {f : α → Compiler β} [hx : Grows x] [hf : ∀ a, Grows (f a)] :
    Grows (x >>= f) where
  ok s b s' h := by
    obtain ⟨a, s₁, h, h'⟩ := run_bind.mp h
    exact (hx.ok _ _ _ h).trans ((hf a).ok _ _ _ h')
  problem s e s' h := by
    rcases stop_bind.mp h with h | ⟨a, s₁, h, h'⟩
    · exact hx.problem _ _ _ h
    · exact (hx.ok _ _ _ h).trans ((hf a).problem _ _ _ h')

instance {x : Compiler α} {y : Compiler β} [Grows x] [Grows y] : Grows (x *> y) := by
  rw [seqRight_eq_bind]
  infer_instance

instance {c : Prop} [Decidable c] {x y : Compiler α} [Grows x] [Grows y] :
    Grows (if c then x else y) := by
  split <;> infer_instance

instance {p : Problem} : Grows (failHere p : Compiler α) where
  ok _ _ _ h := (run_failHere.mp h).elim
  problem _ _ _ h := by
    cases h
    exact State.grown_of_eq rfl

instance {p : Problem} : Grows (failBefore p : Compiler α) where
  ok _ _ _ h := (run_failBefore.mp h).elim
  problem _ _ _ h := by
    cases h
    exact State.grown_of_eq rfl

instance {form : Compiler α} [h : Grows form] : Grows (nested form) where
  ok _ _ _ hx := by
    obtain ⟨-, s₁, hr, rfl⟩ := nested_ok_iff.mp hx
    have hgrown := h.ok _ _ _ hr
    exact ⟨hgrown.kept, hgrown.bounded⟩
  problem _ _ _ hx := by
    rcases nested_error_iff.mp hx with ⟨-, -, rfl⟩ | ⟨-, s₁, hr, rfl⟩
    · exact State.grown_of_eq rfl
    · have hgrown := h.problem _ _ _ hr
      exact ⟨hgrown.kept, hgrown.bounded⟩

instance {what : Expectation} : Grows (failExpected what : Compiler α) := by
  unfold failExpected
  infer_instance

instance : Grows advance where
  ok _ _ _ h := by
    obtain rfl := run_advance.mp h
    exact State.grown_of_eq rfl
  problem _ _ _ h := by cases h

instance {symbol : Symbol} : Grows (accept symbol) := by
  unfold accept
  infer_instance

instance {keyword : Keyword} : Grows (acceptKeyword keyword) := by
  unfold acceptKeyword
  infer_instance

instance {symbol : Symbol} {what : Expectation} : Grows (expect symbol what) := by
  unfold expect
  infer_instance

instance {keyword : Keyword} {what : Expectation} : Grows (expectKeyword keyword what) := by
  unfold expectKeyword
  infer_instance

instance {what : Expectation} : Grows (expectName what) := by
  unfold expectName
  refine @Grows.bind _ _ _ _ _ fun t => ?_
  split <;> infer_instance

instance : Grows next? := by
  unfold next?
  infer_instance

instance {allowed : Bool} {symbol : Symbol} : Grows (acceptIf allowed symbol) := by
  unfold acceptIf
  infer_instance

instance {allowed : Bool} : Grows (acceptCompound allowed) := by
  unfold acceptCompound
  infer_instance

instance {what : Expectation} : Grows (declareName what) := by
  unfold declareName
  infer_instance

end Instances

/-! ### Expressions -/

section Expressions

variable {nested : Precedence → Compiler Unit} [∀ p, Grows (nested p)]

instance : Grows (nestedExpression nested) := by
  unfold nestedExpression
  infer_instance

instance {name : String} {canAssign : Bool} : Grows (namedVariable nested name canAssign) := by
  unfold namedVariable
  refine @Grows.bind _ _ _ _ _ fun access => @Grows.bind _ _ _ _ _ fun hit => ?_
  split
  · infer_instance
  · refine @Grows.bind _ _ _ _ _ fun op => ?_
    cases op <;> infer_instance

instance {room : Nat} : Grows (arguments nested room) := by
  induction room with
  | zero => exact inferInstanceAs (Grows (nestedExpression nested >>= fun _ => failBefore _))
  | succ room ih =>
    unfold arguments
    infer_instance

instance : Grows (argumentList nested) := by
  unfold argumentList
  infer_instance

instance {canAssign : Bool} : Grows (property nested canAssign) := by
  unfold property
  refine @Grows.bind _ _ _ _ _ fun name => @Grows.bind _ _ _ _ _ fun constant =>
    @Grows.bind _ _ _ _ _ fun hit => ?_
  split
  · infer_instance
  · refine @Grows.bind _ _ _ _ _ fun op => ?_
    cases op <;> infer_instance

instance : Grows (superProperty nested) := by
  unfold superProperty
  refine @Grows.bind _ _ _ _ _ fun parent => ?_
  split
  · infer_instance
  · infer_instance
  · repeat refine @Grows.bind _ _ _ _ inferInstance fun _ => ?_
    infer_instance

instance : Grows (receiver nested) := by
  unfold receiver
  infer_instance

instance {t : Token} {canAssign : Bool} : Grows (operand nested t canAssign) := by
  unfold operand
  split <;> infer_instance

instance : Grows (conjunction nested) := by
  unfold conjunction
  infer_instance

instance : Grows (disjunction nested) := by
  unfold disjunction
  infer_instance

instance {symbol : Symbol} {canAssign : Bool} : Grows (continuation nested symbol canAssign) := by
  unfold continuation
  split
  · infer_instance
  · infer_instance
  · infer_instance
  · infer_instance
  · split <;> infer_instance

instance {p : Precedence} {canAssign : Bool} {fuel : Nat} :
    Grows (continuations nested p canAssign fuel) := by
  induction fuel with
  | zero => exact inferInstanceAs (Grows (pure ()))
  | succ fuel ih =>
    unfold continuations
    refine @Grows.bind _ _ _ _ _ fun symbol => ?_
    cases symbol <;> infer_instance

instance {p : Precedence} : Grows (expressionBody nested p) := by
  unfold expressionBody
  refine @Grows.bind _ _ _ _ _ fun t => ?_
  cases t <;> infer_instance

end Expressions

/-! ### Statements -/

/-- The parsers of what is nested take back no error. -/
class Parsers.Grow (inner : Parsers) : Prop where
  declaration : Grows inner.declaration
  statement : Grows inner.statement
  expression : ∀ p, Grows (inner.expression p)

attribute [instance] Parsers.Grow.declaration Parsers.Grow.statement Parsers.Grow.expression

section Statements

variable {inner : Parsers} [inner.Grow]

instance : Grows (expression inner) := by
  unfold expression
  infer_instance

instance {fuel : Nat} : Grows (declarations inner fuel) := by
  induction fuel with
  | zero => exact inferInstanceAs (Grows (pure ()))
  | succ fuel ih =>
    unfold declarations
    infer_instance

instance : Grows (block inner) := by
  unfold block
  infer_instance

instance {room : Nat} : Grows (parameters room) := by
  induction room with
  | zero => exact inferInstanceAs (Grows (failHere _))
  | succ room ih =>
    unfold parameters
    infer_instance

instance {kind : FunctionKind} {name : String} : Grows (functionRest inner kind name) := by
  unfold functionRest
  repeat refine @Grows.bind _ _ _ _ inferInstance fun _ => ?_
  dsimp only
  split
  all_goals
    repeat refine @Grows.bind _ _ _ _ inferInstance fun _ => ?_
    infer_instance

instance : Grows (functionDeclaration inner) := by
  unfold functionDeclaration
  infer_instance

instance : Grows (method inner) := by
  unfold method
  infer_instance

instance {fuel : Nat} : Grows (methods inner fuel) := by
  induction fuel with
  | zero => exact inferInstanceAs (Grows (pure ()))
  | succ fuel ih =>
    unfold methods
    infer_instance

instance {className : String} : Grows (superclass inner className) := by
  unfold superclass
  repeat refine @Grows.bind _ _ _ _ inferInstance fun _ => ?_
  dsimp only
  split
  all_goals
    repeat refine @Grows.bind _ _ _ _ inferInstance fun _ => ?_
    infer_instance

instance : Grows (classDeclaration inner) := by
  unfold classDeclaration
  repeat refine @Grows.bind _ _ _ _ inferInstance fun _ => ?_
  dsimp only
  split
  all_goals
    repeat refine @Grows.bind _ _ _ _ inferInstance fun _ => ?_
    infer_instance

instance : Grows (letDeclaration inner) := by
  unfold letDeclaration
  infer_instance

instance {open_ : Expectation} : Grows (condition inner open_) := by
  unfold condition
  infer_instance

instance : Grows (ifStatement inner) := by
  unfold ifStatement
  repeat refine @Grows.bind _ _ _ _ inferInstance fun _ => ?_
  dsimp only
  split
  all_goals
    repeat refine @Grows.bind _ _ _ _ inferInstance fun _ => ?_
    infer_instance

instance : Grows (whileStatement inner) := by
  unfold whileStatement
  repeat refine @Grows.bind _ _ _ _ inferInstance fun _ => ?_
  infer_instance

instance : Grows (doWhileStatement inner) := by
  unfold doWhileStatement
  repeat refine @Grows.bind _ _ _ _ inferInstance fun _ => ?_
  infer_instance

instance : Grows (forStart inner) := by
  unfold forStart
  infer_instance

instance : Grows (forCondition inner) := by
  unfold forCondition
  infer_instance

instance {start : Nat} : Grows (forStep inner start) := by
  unfold forStep
  refine @Grows.bind _ _ _ _ inferInstance fun _ => ?_
  split
  all_goals
    repeat refine @Grows.bind _ _ _ _ inferInstance fun _ => ?_
    infer_instance

instance : Grows (forStatement inner) := by
  unfold forStatement
  repeat refine @Grows.bind _ _ _ _ inferInstance fun _ => ?_
  split <;> infer_instance

instance : Grows (returnStatement inner) := by
  unfold returnStatement
  repeat refine @Grows.bind _ _ _ _ inferInstance fun _ => ?_
  dsimp only
  split
  all_goals
    repeat refine @Grows.bind _ _ _ _ inferInstance fun _ => ?_
    infer_instance

instance : Grows (printStatement inner) := by
  unfold printStatement
  infer_instance

instance : Grows (expressionStatement inner) := by
  unfold expressionStatement
  infer_instance

instance : Grows (blockStatement inner) := by
  unfold blockStatement
  infer_instance

instance : Grows (statementBody inner) := by
  unfold statementBody
  refine @Grows.bind _ _ _ _ _ fun t => ?_
  split <;> infer_instance

instance : Grows (declarationBody inner) := by
  unfold declarationBody
  infer_instance

end Statements

/-! ### Programs -/

/-- A report adds an error where there is room. -/
theorem State.grown_report (s : State) (e : CompileError) : s.Grown (s.report e) := by
  unfold report
  dsimp only
  split
  · next hroom =>
    refine ⟨fun e' he => Array.mem_push_of_mem e he, fun _ => ?_⟩
    rw [Array.size_push]
    exact hroom
  · exact State.grown_of_eq rfl

/-- Giving up functions leaves the errors. -/
theorem State.errors_keepDrafts (s : State) (n : Nat) : (s.keepDrafts n).errors = s.errors := by
  unfold keepDrafts
  split <;> rfl

/-- Recovering adds the error reported. -/
theorem State.errors_recover (s : State) (e : CompileError) (back : Checkpoint) :
    (s.recover e back).errors = (s.report e).errors :=
  (s.report e).errors_keepDrafts back.depth

instance {body : Compiler Unit} [hb : Grows body] : Grows (recovering body) where
  ok s a s' h := by
    unfold recovering at h
    dsimp only at h
    split at h
    · next hbody =>
      obtain rfl := (EStateM.Result.ok.inj h).2
      exact hb.ok _ _ _ hbody
    · next e s₁ hbody =>
      obtain rfl := (EStateM.Result.ok.inj h).2
      refine (hb.problem _ _ _ hbody).trans ((s₁.grown_report e).trans ?_)
      exact State.grown_of_eq (s₁.errors_recover e _)
    · cases h
  problem s e s' h := by
    unfold recovering at h
    dsimp only at h
    split at h <;> cases h

instance grow_parsers (room : Nat) : (parsers room).Grow := by
  induction room with
  | zero =>
    exact ⟨inferInstanceAs (Grows (recovering (failHere _))), inferInstanceAs (Grows (failHere _)),
      fun _ => inferInstanceAs (Grows (failHere _))⟩
  | succ room ih =>
    exact ⟨inferInstanceAs (Grows (recovering (nested (declarationBody (parsers room))))),
      inferInstanceAs (Grows (nested (statementBody (parsers room)))),
      fun p => inferInstanceAs (Grows (nested (expressionBody (parsers room).expression p)))⟩

instance {declaration : Compiler Unit} [Grows declaration] {fuel : Nat} :
    Grows (program declaration fuel) := by
  induction fuel with
  | zero => exact inferInstanceAs (Grows (pure ()))
  | succ fuel ih =>
    unfold program
    infer_instance

end ScriptMachine.Compile
