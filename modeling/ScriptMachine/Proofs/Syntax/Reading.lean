import ScriptMachine.Proofs.Syntax.Translation

/-!
# Steps that succeed

A step that succeeds is made of steps that succeed. What the readers of tokens find is told by the
tokens that are left; all other steps leave the place among the tokens and the errors as they
are, and errors are never taken back.
-/

namespace ScriptMachine.Compile

variable {α β : Type} {s s' s₁ : State}

/-! ### Steps in sequence -/

/-- Steps in sequence succeed by way of a state between them. -/
theorem run_bind {x : Compiler α} {f : α → Compiler β} {b : β} :
    (x >>= f) s = .ok b s' ↔ ∃ a s₁, x s = .ok a s₁ ∧ f a s₁ = .ok b s' := by
  show EStateM.bind x f s = _ ↔ _
  unfold EStateM.bind
  cases hx : x s with
  | ok a s₁ => exact ⟨fun h => ⟨a, s₁, rfl, h⟩, fun ⟨_, _, ha, h⟩ => by cases ha; exact h⟩
  | error e s₁ => simp

/-- The same of steps whose first result is not used. -/
theorem run_seqRight {x : Compiler α} {y : Compiler β} {b : β} :
    (x *> y) s = .ok b s' ↔ ∃ a s₁, x s = .ok a s₁ ∧ y s₁ = .ok b s' := by
  rw [seqRight_eq_bind, run_bind]

/-- Giving a value back leaves the state. -/
theorem run_pure {a b : α} : (pure a : Compiler α) s = .ok b s' ↔ a = b ∧ s = s' := by
  show EStateM.Result.ok a s = _ ↔ _
  simp

/-- A look at the state leaves it. -/
theorem run_look {f : State → α} {a : α} : look f s = .ok a s' ↔ f s = a ∧ s = s' := by
  show EStateM.Result.ok (f s) s = _ ↔ _
  simp

/-- What fails at a token does not succeed. -/
theorem run_failHere {p : Problem} {a : α} : (failHere p : Compiler α) s = .ok a s' ↔ False := by
  simp [failHere]

/-- What fails at the token before does not succeed. -/
theorem run_failBefore {p : Problem} {a : α} :
    (failBefore p : Compiler α) s = .ok a s' ↔ False := by
  simp [failBefore]

/-- What fails for want of a token does not succeed. -/
theorem run_failExpected {what : Expectation} {a : α} :
    (failExpected what : Compiler α) s = .ok a s' ↔ False := by
  simp [failExpected, run_bind, run_failHere]

/-- What stops two steps in sequence stops the first of them or the second. -/
theorem stop_bind {x : Compiler α} {f : α → Compiler β} {e : Stop} :
    (x >>= f) s = .error e s' ↔
      x s = .error e s' ∨ ∃ a s₁, x s = .ok a s₁ ∧ f a s₁ = .error e s' := by
  show EStateM.bind x f s = _ ↔ _
  unfold EStateM.bind
  cases hx : x s with
  | ok a s₁ =>
    refine ⟨fun h => .inr ⟨a, s₁, rfl, h⟩, ?_⟩
    rintro (h | ⟨_, _, ha, h⟩)
    · cases h
    · cases ha
      exact h
  | error e' s₁ => simp

/-! ### Problems beyond the syntax -/

/-- Whether a problem is one of the syntax. -/
def Problem.isSyntactic : Problem → Bool
  | .expected .. | .expectedExpression _ | .invalidAssignmentTarget => true
  | _ => false

/-- A problem that is not one of the syntax. -/
class Problem.Semantic (p : Problem) : Prop where
  semantic : p.isSyntactic = false

section Semantic

variable {name : String} {previous : Source.Span}

instance : (Problem.ownInitializer name).Semantic := ⟨rfl⟩

instance : (Problem.duplicateLocal name previous).Semantic := ⟨rfl⟩

instance : Problem.tooManyLocals.Semantic := ⟨rfl⟩

instance : Problem.tooManyParameters.Semantic := ⟨rfl⟩

instance : Problem.tooManyArguments.Semantic := ⟨rfl⟩

instance : Problem.tooManyConstants.Semantic := ⟨rfl⟩

instance : Problem.jumpTooLarge.Semantic := ⟨rfl⟩

instance : Problem.loopTooLarge.Semantic := ⟨rfl⟩

instance : Problem.returnAtTopLevel.Semantic := ⟨rfl⟩

instance : Problem.thisOutsideClass.Semantic := ⟨rfl⟩

instance : Problem.superOutsideClass.Semantic := ⟨rfl⟩

instance : Problem.superWithoutSuperclass.Semantic := ⟨rfl⟩

instance : Problem.inheritFromSelf.Semantic := ⟨rfl⟩

instance : Problem.tooDeeplyNested.Semantic := ⟨rfl⟩

end Semantic

/-! ### What is left as it is -/

/-- Neither the place among the tokens nor the errors changed. -/
structure State.Still (s s' : State) : Prop where
  tokens : s'.tokens = s.tokens
  pos : s'.pos = s.pos
  errors : s'.errors = s.errors

/-- Every state stands still with itself. -/
@[refl] theorem State.Still.refl (s : State) : s.Still s := ⟨rfl, rfl, rfl⟩

/-- Standing still twice is standing still. -/
theorem State.Still.trans (h : s.Still s₁) (h' : s₁.Still s') : s.Still s' :=
  ⟨h'.tokens.trans h.tokens, h'.pos.trans h.pos, h'.errors.trans h.errors⟩

/-- A step that reads no token and reports no error, and that no problem of the syntax stops. -/
class Quiet (x : Compiler α) : Prop where
  still : ∀ s a s', x s = .ok a s' → s.Still s'
  stopped : ∀ s e s', x s = .error (.problem e) s' →
    s'.errors = s.errors ∧ e.kind.isSyntactic = false

/-- A step that takes back no error: if there are none in the end, there were none before. -/
class Clean (x : Compiler α) : Prop where
  clean : ∀ s a s', x s = .ok a s' → s'.errors = #[] → s.errors = #[]

/-- Without errors in the end, there were none before. -/
theorem clean_of_run {x : Compiler α} [hx : Clean x] {a : α} (h : x s = .ok a s')
    (hs : s'.errors = #[]) : s.errors = #[] := hx.clean s a s' h hs

section Instances

instance {x : Compiler α} [h : Quiet x] : Clean x :=
  ⟨fun s a s' hx hs => (h.still s a s' hx).errors ▸ hs⟩

instance Quiet.bind {x : Compiler α} {f : α → Compiler β} [hx : Quiet x] [hf : ∀ a, Quiet (f a)] :
    Quiet (x >>= f) where
  still s b s' h := by
    obtain ⟨a, s₁, h, h'⟩ := run_bind.mp h
    exact (hx.still _ _ _ h).trans ((hf a).still _ _ _ h')
  stopped s e s' h := by
    rcases stop_bind.mp h with h | ⟨a, s₁, h, h'⟩
    · exact hx.stopped _ _ _ h
    · obtain ⟨herrors, he⟩ := (hf a).stopped _ _ _ h'
      exact ⟨herrors.trans (hx.still _ _ _ h).errors, he⟩

instance Clean.bind {x : Compiler α} {f : α → Compiler β} [hx : Clean x] [hf : ∀ a, Clean (f a)] :
    Clean (x >>= f) where
  clean s b s' h hs := by
    obtain ⟨a, s₁, h, h'⟩ := run_bind.mp h
    exact hx.clean _ _ _ h ((hf a).clean _ _ _ h' hs)

instance {x : Compiler α} {y : Compiler β} [Clean x] [Clean y] : Clean (x *> y) := by
  rw [seqRight_eq_bind]
  infer_instance

instance {c : Prop} [Decidable c] {x y : Compiler α} [Quiet x] [Quiet y] :
    Quiet (if c then x else y) := by
  split <;> infer_instance

instance {c : Prop} [Decidable c] {x y : Compiler α} [Clean x] [Clean y] :
    Clean (if c then x else y) := by
  split <;> infer_instance

instance {a : α} : Quiet (pure a : Compiler α) where
  still _ _ _ h := (run_pure.mp h).2 ▸ .refl _
  stopped _ _ _ h := by cases h

instance {f : State → α} : Quiet (look f) where
  still _ _ _ h := (run_look.mp h).2 ▸ .refl _
  stopped _ _ _ h := by cases h

/-- An error at the token before is about the problem it was raised for. -/
theorem State.kind_errorBefore (p : Problem) : (s.errorBefore p).kind = p := by
  unfold errorBefore errorHere
  repeat' split
  all_goals rfl

/-- An error at the next token is about the problem it was raised for. -/
theorem State.kind_errorHere (p : Problem) : (s.errorHere p).kind = p := by
  unfold errorHere
  split <;> rfl

instance {p : Problem} [hp : p.Semantic] : Quiet (failBefore p : Compiler α) where
  still _ _ _ h := (run_failBefore.mp h).elim
  stopped _ _ _ h := by
    cases h
    exact ⟨rfl, (State.kind_errorBefore p).symm ▸ hp.semantic⟩

instance {p : Problem} : Clean (failBefore p : Compiler α) where
  clean _ _ _ h := (run_failBefore.mp h).elim

instance {what : Expectation} : Clean (failExpected what : Compiler α) where
  clean _ _ _ h := (run_failExpected.mp h).elim

/-- A change of the state succeeds with the changed state. -/
theorem run_modify {f : State → State} {a : Unit} :
    (modify f : Compiler Unit) s = .ok a s' ↔ f s = s' := by
  show EStateM.Result.ok () (f s) = _ ↔ _
  simp

instance {f : Draft → Draft} : Quiet (modifyDraft f) where
  still _ _ _ h := run_modify.mp h ▸ ⟨rfl, rfl, rfl⟩
  stopped _ _ _ h := by cases h

instance {f : State → List Bool} : Quiet (modify fun s => { s with classes := f s }) where
  still _ _ _ h := run_modify.mp h ▸ ⟨rfl, rfl, rfl⟩
  stopped _ _ _ h := by cases h

instance {kind : FunctionKind} {name : Handle} : Quiet (beginFunction kind name) where
  still _ _ _ h := run_modify.mp h ▸ ⟨rfl, rfl, rfl⟩
  stopped _ _ _ h := by cases h

instance {i : Instr} : Quiet (emit i) := by
  unfold emit
  infer_instance

instance : Quiet here := by
  unfold here
  infer_instance

instance {is : List Instr} : Quiet (emitAll is) := by
  induction is with
  | nil => exact inferInstanceAs (Quiet (pure ()))
  | cons i is ih => exact inferInstanceAs (Quiet (emit i >>= fun _ => emitAll is))

instance {jump : UInt16 → Instr} : Quiet (emitJump jump) := by
  unfold emitJump
  infer_instance

instance {at_ : Nat} : Quiet (patchJump at_) := by
  unfold patchJump
  infer_instance

instance {start : Nat} : Quiet (emitLoop start) := by
  unfold emitLoop
  infer_instance

instance : Quiet emitReturn := by
  unfold emitReturn
  infer_instance

instance {v : Value} : Quiet (makeConstant v) := by
  unfold makeConstant
  refine @Quiet.bind _ _ _ _ _ fun found => ?_
  cases found <;> infer_instance

instance {v : Value} : Quiet (emitConstant v) := by
  unfold emitConstant
  infer_instance

instance {chars : String} : Quiet (intern chars) where
  still _ _ _ h := by
    unfold intern at h
    dsimp only at h
    split at h
    · cases h
      exact ⟨rfl, rfl, rfl⟩
    · cases h
  stopped _ _ _ h := by
    unfold intern at h
    dsimp only at h
    split at h <;> cases h

instance {name : String} : Quiet (nameConstant name) := by
  unfold nameConstant
  infer_instance

instance : Quiet finishFunction where
  still _ _ _ h := by
    unfold finishFunction at h
    dsimp only at h
    repeat' split at h
    all_goals cases h
    all_goals exact ⟨rfl, rfl, rfl⟩
  stopped _ _ _ h := by
    unfold finishFunction at h
    dsimp only at h
    repeat' split at h
    all_goals cases h

instance : Quiet beginScope := by
  unfold beginScope
  infer_instance

instance : Quiet endScope := by
  unfold endScope
  infer_instance

instance {name : String} {span : Source.Span} : Quiet (addLocal name span) := by
  unfold addLocal
  infer_instance

instance {name : String} : Quiet (declareVariable name) := by
  unfold declareVariable
  refine @Quiet.bind _ _ _ _ _ fun depth => ?_
  split
  · refine @Quiet.bind _ _ _ _ _ fun first => ?_
    cases first <;> infer_instance
  · infer_instance

instance : Quiet markInitialized := by
  unfold markInitialized
  infer_instance

instance {global : UInt16} : Quiet (defineVariable global) := by
  unfold defineVariable
  infer_instance

/-- Too many captures are no problem of the syntax. -/
theorem addCapture_semantic {d d' : Draft} {c : Capture} {p : Problem}
    (h : d.addCapture c = (.error p, d')) : p.isSyntactic = false := by
  unfold Draft.addCapture at h
  repeat' split at h
  all_goals cases h
  rfl

/-- A name that cannot be resolved is no problem of the syntax. -/
theorem resolveCapture_semantic {name : String} {inner inner' : Draft} {around around' : List Draft}
    {p : Problem} (h : Draft.resolveCapture name inner around = (.error p, inner', around')) :
    p.isSyntactic = false := by
  induction around generalizing inner inner' around' with
  | nil => cases h
  | cons outer rest ih =>
    have hadd {c : Capture} {kept : List Draft}
        (h : ((inner.addCapture c).1.map some, (inner.addCapture c).2, kept) =
          (.error p, inner', around')) : p.isSyntactic = false := by
      cases hadded : inner.addCapture c with
      | mk index d =>
        rw [hadded] at h
        cases index with
        | ok i => cases h
        | error q =>
          obtain rfl : q = p := Except.error.inj (Prod.mk.inj h).1
          exact addCapture_semantic hadded
    unfold Draft.resolveCapture at h
    split at h
    · cases h
      rfl
    · exact hadd h
    · split at h
      · exact hadd h
      · next hrest =>
        obtain ⟨rfl, -⟩ := Prod.mk.inj h
        exact ih hrest

instance {name : String} : Quiet (captureVariable name) where
  still _ _ _ h := by
    unfold captureVariable at h
    dsimp only at h
    split at h
    · cases h
      exact ⟨rfl, rfl, rfl⟩
    · exact (run_failBefore.mp h).elim
  stopped _ _ _ h := by
    unfold captureVariable at h
    dsimp only at h
    split at h
    · cases h
    · next p hresolved =>
      cases h
      exact ⟨rfl, (State.kind_errorBefore p).symm ▸ resolveCapture_semantic (Prod.ext hresolved rfl)⟩

instance {name : String} : Quiet (resolve name) := by
  unfold resolve
  refine @Quiet.bind _ _ _ _ _ fun found => ?_
  rcases found with _ | ⟨slot, _ | _⟩
  · refine @Quiet.bind _ _ _ _ _ fun index => ?_
    cases index <;> infer_instance
  · infer_instance
  · infer_instance

instance {name : String} : Quiet (readVariable name) := by
  unfold readVariable
  infer_instance

instance {function : UInt16} {captures : Array Capture} :
    Quiet (emitClosure function captures) := by
  unfold emitClosure
  infer_instance

end Instances

/-! ### Tokens -/

/-- The tokens that are left. -/
def State.rest (s : State) : List Token := (s.tokens.toList.drop s.pos).map Lexeme.token

/-- The next token is the first of those that are left. -/
theorem State.peek?_eq (s : State) : s.peek? = s.rest.head? := by
  simp [peek?, lexeme?, rest, List.head?_drop]

/-- A state that stands still has the same tokens left. -/
theorem State.Still.rest (h : s.Still s') : s'.rest = s.rest := by
  rw [State.rest, State.rest, h.tokens, h.pos]

/-- The end is reached if no token is left. -/
theorem State.atEnd_iff : s.atEnd = true ↔ s.rest = [] := by
  simp [atEnd, rest]

/-- The room for a loop over tokens is how many are left. -/
theorem State.remaining_eq (s : State) : s.remaining = s.rest.length := by
  simp [remaining, rest]

/-- What a step that reads no token leaves. -/
theorem Quiet.rest {x : Compiler α} [h : Quiet x] {a : α} (hx : x s = .ok a s') :
    s'.rest = s.rest := (h.still s a s' hx).rest

/-- Going past a token succeeds, with the position behind it. -/
theorem run_advance {a : Unit} : advance s = .ok a s' ↔ { s with pos := s.pos + 1 } = s' :=
  run_modify

instance : Clean advance where
  clean _ _ _ h hs := by
    obtain rfl := run_advance.mp h
    exact hs

instance {symbol : Symbol} : Quiet (check symbol) := by
  unfold check
  infer_instance

instance {symbol : Symbol} : Clean (accept symbol) := by
  unfold accept
  infer_instance

instance {keyword : Keyword} : Clean (acceptKeyword keyword) := by
  unfold acceptKeyword
  infer_instance

instance {symbol : Symbol} {what : Expectation} : Clean (expect symbol what) := by
  unfold expect
  infer_instance

instance {keyword : Keyword} {what : Expectation} : Clean (expectKeyword keyword what) := by
  unfold expectKeyword
  infer_instance

/-- A token that was gone past. -/
theorem rest_advance {a : Unit} (h : advance s = .ok a s') : s'.rest = s.rest.tail := by
  obtain rfl := run_advance.mp h
  simp [State.rest, List.tail_drop]

/-- The token gone past stood before those that are left. -/
theorem cons_rest_advance {a : Unit} {t : Token} (h : advance s = .ok a s')
    (ht : s.rest.head? = some t) : s.rest = t :: s'.rest := by
  rw [rest_advance h]
  exact (List.head?_eq_some_iff.mp ht).elim fun rest hrest => by rw [hrest, List.tail_cons]

/-- A step goes past a token `t`. -/
def Passes (t : Token) (s s' : State) : Prop := s.rest = t :: s'.rest ∧ advance s = .ok () s'

/-- Going past the next token is going past just that one. -/
theorem passes_of_advance {a : Unit} {t : Token} (h : advance s = .ok a s')
    (ht : s.peek? = some t) : Passes t s s' :=
  ⟨cons_rest_advance h (s.peek?_eq ▸ ht), h⟩

/-- A token that is taken for a symbol is that symbol. -/
theorem eq_symbol_of_isSymbol {t : Token} {symbol : Symbol} (h : t.isSymbol symbol = true) :
    t = .symbol symbol := by
  cases t <;> simp_all [Token.isSymbol]

/-- A token that is taken for a reserved word is that word. -/
theorem eq_keyword_of_isKeyword {t : Token} {keyword : Keyword}
    (h : t.isKeyword keyword = true) : t = .keyword keyword := by
  cases t <;> simp_all [Token.isKeyword]

/-- The look for a symbol finds it as the next token. -/
theorem peek?_any_isSymbol {symbol : Symbol} :
    s.peek?.any (·.isSymbol symbol) = true ↔ s.peek? = some (.symbol symbol) := by
  cases h : s.peek? with
  | none => simp
  | some t =>
    simp only [Option.any_some, Option.some.injEq]
    exact ⟨eq_symbol_of_isSymbol, fun ht => by simp [ht, Token.isSymbol]⟩

/-- The look for a reserved word finds it as the next token. -/
theorem peek?_any_isKeyword {keyword : Keyword} :
    s.peek?.any (·.isKeyword keyword) = true ↔ s.peek? = some (.keyword keyword) := by
  cases h : s.peek? with
  | none => simp
  | some t =>
    simp only [Option.any_some, Option.some.injEq]
    exact ⟨eq_keyword_of_isKeyword, fun ht => by simp [ht, Token.isKeyword]⟩

/-- A look for a symbol says whether it is next, and leaves it. -/
theorem run_check {symbol : Symbol} {hit : Bool} :
    check symbol s = .ok hit s' ↔
      (hit = true ↔ s.rest.head? = some (.symbol symbol)) ∧ s = s' := by
  rw [check, run_look, ← s.peek?_eq, ← peek?_any_isSymbol]
  exact and_congr_left fun _ => by cases hit <;> simp

/-- A token was read because it was next, or nothing was done because another one is. -/
def Accepts (t : Token) (hit : Bool) (s s' : State) : Prop :=
  (hit = true ∧ Passes t s s') ∨ (hit = false ∧ s.rest.head? ≠ some t ∧ s = s')

/-- A token is gone past if the look at it says so. -/
theorem accepts_of_look {t : Token} {hits : State → Bool} {hit : Bool}
    (hiff : hits s = true ↔ s.peek? = some t)
    (h : (look hits >>= fun hit => do
      if hit then advance
      return hit : Compiler Bool) s = .ok hit s') : Accepts t hit s s' := by
  obtain ⟨found, s₁, hlook, h⟩ := run_bind.mp h
  obtain ⟨rfl, rfl⟩ := run_look.mp hlook
  cases hfound : hits s with
  | true =>
    rw [hfound] at h
    obtain ⟨_, s₁, hpass, h⟩ := run_bind.mp h
    obtain ⟨rfl, rfl⟩ := run_pure.mp h
    exact .inl ⟨rfl, passes_of_advance hpass (hiff.mp hfound)⟩
  | false =>
    rw [hfound] at h
    obtain ⟨rfl, rfl⟩ := run_pure.mp h
    refine .inr ⟨rfl, fun ht => ?_, rfl⟩
    rw [hiff.mpr (s.peek?_eq.trans ht)] at hfound
    cases hfound

/-- A symbol is read if it is next, and left if another token is. -/
theorem run_accept {symbol : Symbol} {hit : Bool} (h : accept symbol s = .ok hit s') :
    Accepts (.symbol symbol) hit s s' := accepts_of_look peek?_any_isSymbol h

/-- A reserved word is read if it is next, and left if another token is. -/
theorem run_acceptKeyword {keyword : Keyword} {hit : Bool}
    (h : acceptKeyword keyword s = .ok hit s') : Accepts (.keyword keyword) hit s s' :=
  accepts_of_look peek?_any_isKeyword h

/-- Where a symbol has to be, success means going past it. -/
theorem run_expect {symbol : Symbol} {what : Expectation} {a : Unit}
    (h : expect symbol what s = .ok a s') : Passes (.symbol symbol) s s' := by
  obtain ⟨hit, s₁, hhit, h⟩ := run_bind.mp h
  rcases run_accept hhit with ⟨rfl, hpass⟩ | ⟨rfl, -, -⟩
  · obtain ⟨-, rfl⟩ := run_pure.mp h
    exact hpass
  · exact (run_failExpected.mp h).elim

/-- Where a reserved word has to be, success means going past it. -/
theorem run_expectKeyword {keyword : Keyword} {what : Expectation} {a : Unit}
    (h : expectKeyword keyword what s = .ok a s') : Passes (.keyword keyword) s s' := by
  obtain ⟨hit, s₁, hhit, h⟩ := run_bind.mp h
  rcases run_acceptKeyword hhit with ⟨rfl, hpass⟩ | ⟨rfl, -, -⟩
  · obtain ⟨-, rfl⟩ := run_pure.mp h
    exact hpass
  · exact (run_failExpected.mp h).elim

/-- Where a name has to be, success means going past it and giving it back. -/
theorem run_expectName {what : Expectation} {name : String}
    (h : expectName what s = .ok name s') : Passes (.name name) s s' := by
  obtain ⟨t, s₁, hlook, h⟩ := run_bind.mp h
  obtain ⟨ht, rfl⟩ := run_look.mp hlook
  split at h
  · obtain ⟨_, s₁, hpass, h⟩ := run_bind.mp h
    obtain ⟨rfl, rfl⟩ := run_pure.mp h
    exact passes_of_advance hpass ht
  · exact (run_failExpected.mp h).elim

/-- The next token is read whatever it is, or none is left. -/
theorem run_next? {t : Option Token} (h : next? s = .ok t s') :
    (∃ u, t = some u ∧ Passes u s s') ∨ (t = none ∧ s.rest = [] ∧ s = s') := by
  obtain ⟨t, s₁, hlook, h⟩ := run_bind.mp h
  obtain ⟨ht, rfl⟩ := run_look.mp hlook
  cases t with
  | some u =>
    obtain ⟨_, s₁, hpass, h⟩ := run_bind.mp h
    obtain ⟨rfl, rfl⟩ := run_pure.mp h
    exact .inl ⟨u, rfl, passes_of_advance hpass ht⟩
  | none =>
    obtain ⟨rfl, rfl⟩ := run_pure.mp h
    rw [s.peek?_eq, List.head?_eq_none_iff] at ht
    exact .inr ⟨rfl, ht, rfl⟩

/-- A symbol that is read was allowed; one that is not allowed is left. -/
theorem run_acceptIf {allowed : Bool} {symbol : Symbol} {hit : Bool}
    (h : acceptIf allowed symbol s = .ok hit s') :
    (hit = true ∧ allowed = true ∧ Passes (.symbol symbol) s s') ∨ (hit = false ∧ s = s') := by
  cases allowed with
  | true =>
    rcases run_accept h with ⟨rfl, hpass⟩ | ⟨rfl, -, rfl⟩
    · exact .inl ⟨rfl, rfl, hpass⟩
    · exact .inr ⟨rfl, rfl⟩
  | false =>
    obtain ⟨rfl, rfl⟩ := run_pure.mp h
    exact .inr ⟨rfl, rfl⟩

/-- The tokens that assign by an operator are those of the four of arithmetic. -/
theorem compound?_eq_some {t : Token} {i : Instr} (h : compound? t = some i) :
    ∃ op : Arithmetic, t = .symbol op.assigning ∧ i = op.instr := by
  unfold compound? at h
  split at h
  · exact ⟨.add, rfl, (Option.some.inj h).symm⟩
  · exact ⟨.subtract, rfl, (Option.some.inj h).symm⟩
  · exact ⟨.multiply, rfl, (Option.some.inj h).symm⟩
  · exact ⟨.divide, rfl, (Option.some.inj h).symm⟩
  · cases h

/-- An assignment by an operator is read where it is allowed, with its instruction. -/
theorem run_acceptCompound {allowed : Bool} {i : Option Instr}
    (h : acceptCompound allowed s = .ok i s') :
    (∃ op : Arithmetic, i = some op.instr ∧ allowed = true ∧
      Passes (.symbol op.assigning) s s') ∨ (i = none ∧ s = s') := by
  cases allowed with
  | true =>
    obtain ⟨i, s₁, hlook, h⟩ := run_bind.mp h
    obtain ⟨hi, rfl⟩ := run_look.mp hlook
    cases i with
    | some i =>
      obtain ⟨_, s₁, hpass, h⟩ := run_bind.mp h
      obtain ⟨rfl, rfl⟩ := run_pure.mp h
      obtain ⟨t, ht, hcompound⟩ := Option.bind_eq_some_iff.mp hi
      obtain ⟨op, rfl, rfl⟩ := compound?_eq_some hcompound
      exact .inl ⟨op, rfl, rfl, passes_of_advance hpass ht⟩
    | none =>
      obtain ⟨rfl, rfl⟩ := run_pure.mp h
      exact .inr ⟨rfl, rfl⟩
  | false =>
    obtain ⟨rfl, rfl⟩ := run_pure.mp h
    exact .inr ⟨rfl, rfl⟩

end ScriptMachine.Compile
