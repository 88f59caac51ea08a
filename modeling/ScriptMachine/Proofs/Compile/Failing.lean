import ScriptMachine.Proofs.Compile.Walking
import ScriptMachine.Proofs.Syntax.Acceptance

/-!
# Declarations that fail

A source is compiled strictly if the compiler gives up at the first declaration that fails. Up to
there it does the same as the compiler that goes on after errors, so a declaration fails if and only
if compiling strictly is stopped by a problem. The compiler that goes on has an error to report
then, because errors are never taken back.
-/

namespace ScriptMachine.Compile

variable {α β : Type} {x y : Compiler α} {s s' s₁ : State}

/-- A step that reports no error. -/
class Silent (x : Compiler α) : Prop where
  ok : ∀ s a s', x s = .ok a s' → s'.errors = s.errors
  problem : ∀ s e s', x s = .error (.problem e) s' → s'.errors = s.errors

section Instances

instance (priority := low) [h : Quiet x] : Silent x where
  ok s a s' hx := (h.still s a s' hx).errors
  problem s e s' hx := (h.stopped s e s' hx).1

instance Silent.bind {f : α → Compiler β} [hx : Silent x] [hf : ∀ a, Silent (f a)] :
    Silent (x >>= f) where
  ok s b s' h := by
    obtain ⟨a, s₁, h, h'⟩ := run_bind.mp h
    exact ((hf a).ok _ _ _ h').trans (hx.ok _ _ _ h)
  problem s e s' h := by
    rcases stop_bind.mp h with h | ⟨a, s₁, h, h'⟩
    · exact hx.problem _ _ _ h
    · exact ((hf a).problem _ _ _ h').trans (hx.ok _ _ _ h)

instance {c : Prop} [Decidable c] {x y : Compiler α} [Silent x] [Silent y] :
    Silent (if c then x else y) := by
  split <;> infer_instance

instance {p : Problem} : Silent (failHere p : Compiler α) where
  ok _ _ _ h := (run_failHere.mp h).elim
  problem _ _ _ h := by
    cases h
    rfl

instance {p : Problem} : Silent (failBefore p : Compiler α) where
  ok _ _ _ h := (run_failBefore.mp h).elim
  problem _ _ _ h := by
    cases h
    rfl

instance {what : Expectation} : Silent (failExpected what : Compiler α) := by
  unfold failExpected
  infer_instance

instance : Silent advance where
  ok _ _ _ h := by
    obtain rfl := run_advance.mp h
    rfl
  problem _ _ _ h := by cases h

instance {γ : Type} {f : Option Token → γ} {hit : γ → Bool} : Silent (take f hit) := by
  unfold take
  infer_instance

instance {what : Expectation} : Silent (expectName what) := by
  unfold expectName
  refine @Silent.bind _ _ _ _ _ fun t => ?_
  split <;> infer_instance

instance {what : Expectation} : Silent (declaredName what) := by
  unfold declaredName
  infer_instance

instance : Silent declaredClass := by
  unfold declaredClass
  infer_instance

end Instances

/-! ### Giving up -/

/-- A run that has an error to report, unless it ended in a fault. -/
def Erring : EStateM.Result Stop State α → Prop
  | .ok _ s => s.errors ≠ #[]
  | .error (.problem _) s => s.errors ≠ #[]
  | .error (.fault _) _ => True

/-- From a state without errors, the step `y` does what `x` does until a problem stops `y`: then `x`
is stopped by it too, or went on and has an error to report. Where `x` starts with errors it has
errors to report. -/
structure GivesUp (x y : Compiler α) : Prop where
  erring : ∀ s, s.errors ≠ #[] → Erring (x s)
  ok : ∀ s a s', s.errors = #[] → y s = .ok a s' → x s = .ok a s' ∧ s'.errors = #[]
  fault : ∀ s f s', s.errors = #[] → y s = .error (.fault f) s' → x s = .error (.fault f) s'
  problem : ∀ s e s', s.errors = #[] → y s = .error (.problem e) s' →
    (x s = .error (.problem e) s' ∧ s'.errors = #[]) ∨ Erring (x s)

/-- What reports nothing gives up nothing. -/
theorem givesUp_of_silent [hx : Silent x] : GivesUp x x where
  erring s hs := by
    cases hr : x s with
    | ok a s' =>
      show s'.errors ≠ #[]
      rwa [hx.ok _ _ _ hr]
    | error e s' =>
      cases e with
      | problem e =>
        show s'.errors ≠ #[]
        rwa [hx.problem _ _ _ hr]
      | fault f => trivial
  ok s a s' hs hr := ⟨hr, (hx.ok _ _ _ hr).trans hs⟩
  fault s f s' hs hr := hr
  problem s e s' hs hr := .inl ⟨hr, (hx.problem _ _ _ hr).trans hs⟩

/-- What errs goes on erring. -/
theorem Erring.bind {f : α → Compiler β} (h : Erring (x s))
    (hf : ∀ a s, s.errors ≠ #[] → Erring (f a s)) : Erring ((x >>= f) s) := by
  show Erring (EStateM.bind x f s)
  unfold EStateM.bind
  cases hx : x s with
  | ok a s₁ =>
    rw [hx] at h
    exact hf a s₁ h
  | error e s₁ =>
    rw [hx] at h
    cases e with
    | problem e => exact h
    | fault f => trivial

/-- What is given up in sequence is given up step by step. -/
theorem GivesUp.bind {f g : α → Compiler β} (h : GivesUp x y) (hf : ∀ a, GivesUp (f a) (g a)) :
    GivesUp (x >>= f) (y >>= g) where
  erring s hs := (h.erring s hs).bind fun a s₁ => (hf a).erring s₁
  ok s b s' hs hr := by
    obtain ⟨a, s₁, hy, hg⟩ := run_bind.mp hr
    obtain ⟨hx, hs₁⟩ := h.ok s a s₁ hs hy
    obtain ⟨hf, hs'⟩ := (hf a).ok s₁ b s' hs₁ hg
    exact ⟨run_bind.mpr ⟨a, s₁, hx, hf⟩, hs'⟩
  fault s e s' hs hr := by
    rcases stop_bind.mp hr with hy | ⟨a, s₁, hy, hg⟩
    · exact stop_bind.mpr (.inl (h.fault s e s' hs hy))
    · obtain ⟨hx, hs₁⟩ := h.ok s a s₁ hs hy
      exact stop_bind.mpr (.inr ⟨a, s₁, hx, (hf a).fault s₁ e s' hs₁ hg⟩)
  problem s e s' hs hr := by
    rcases stop_bind.mp hr with hy | ⟨a, s₁, hy, hg⟩
    · rcases h.problem s e s' hs hy with ⟨hx, hs'⟩ | herring
      · exact .inl ⟨stop_bind.mpr (.inl hx), hs'⟩
      · exact .inr (herring.bind fun a s₁ => (hf a).erring s₁)
    · obtain ⟨hx, hs₁⟩ := h.ok s a s₁ hs hy
      have hbind : (x >>= f) s = f a s₁ := by
        show EStateM.bind x f s = _
        rw [EStateM.bind, hx]
      rw [hbind]
      exact (hf a).problem s₁ e s' hs₁ hg

/-- A report leaves an error. -/
theorem State.errors_report_ne (s : State) (e : CompileError) : (s.report e).errors ≠ #[] := by
  unfold State.report
  dsimp only
  split
  · exact Array.push_ne_empty
  · next hfull =>
    intro hempty
    simp only at hempty
    simp [hempty, maxErrors] at hfull

/-- Giving up at a declaration, in the place of going on after it. -/
theorem GivesUp.recovering {x y : Compiler Unit} (h : GivesUp x y) :
    GivesUp (recovering x) y := by
  have herring (s : State) (hx : Erring (x s)) : Erring (Compile.recovering x s) := by
    unfold Compile.recovering
    dsimp only
    cases hr : x s with
    | ok a s₁ =>
      rw [hr] at hx
      exact hx
    | error e s₁ =>
      cases e with
      | problem e =>
        show (s₁.recover e _).errors ≠ #[]
        rw [State.errors_recover]
        exact s₁.errors_report_ne e
      | fault f => trivial
  refine ⟨fun s hs => herring s (h.erring s hs), fun s a s' hs hy => ?_, fun s f s' hs hy => ?_,
    fun s e s' hs hy => .inr ?_⟩
  · obtain ⟨hx, hs'⟩ := h.ok s a s' hs hy
    refine ⟨?_, hs'⟩
    unfold Compile.recovering
    dsimp only
    rw [hx]
  · unfold Compile.recovering
    dsimp only
    rw [h.fault s f s' hs hy]
  · rcases h.problem s e s' hs hy with ⟨hx, -⟩ | hx
    · unfold Compile.recovering
      dsimp only
      rw [hx]
      show (s'.recover e _).errors ≠ #[]
      rw [State.errors_recover]
      exact s'.errors_report_ne e
    · exact herring s hx

/-- What errs one level deeper errs. -/
theorem Erring.nested (hlt : s.nesting < maxNesting) (h : Erring (x s.deeper)) :
    Erring (nested x s) := by
  cases hr : x s.deeper with
  | ok a s₁ =>
    rw [hr] at h
    rw [nested_ok hlt hr]
    exact h
  | error stop s₁ =>
    rw [hr] at h
    rw [nested_error hlt hr]
    cases stop with
    | problem e => exact h
    | fault f => trivial

/-- A form that gives up one level deeper gives up. -/
theorem GivesUp.nested (h : GivesUp x y) : GivesUp (nested x) (nested y) where
  erring s hs := by
    rcases Nat.lt_or_ge s.nesting maxNesting with hlt | hfull
    · exact (h.erring s.deeper hs).nested hlt
    · rw [nested_full hfull]
      exact hs
  ok s a s' hs hr := by
    obtain ⟨hlt, s₁, hy, rfl⟩ := nested_ok_iff.mp hr
    obtain ⟨hx, hs₁⟩ := h.ok s.deeper _ _ hs hy
    exact ⟨nested_ok hlt hx, hs₁⟩
  fault s f s' hs hr := by
    rcases nested_error_iff.mp hr with ⟨-, hstop, -⟩ | ⟨hlt, s₁, hy, rfl⟩
    · cases hstop
    · exact nested_error hlt (h.fault s.deeper _ _ hs hy)
  problem s e s' hs hr := by
    rcases nested_error_iff.mp hr with ⟨hfull, hstop, rfl⟩ | ⟨hlt, s₁, hy, rfl⟩
    · exact .inl ⟨nested_error_iff.mpr (.inl ⟨hfull, hstop, rfl⟩), hs⟩
    · rcases h.problem s.deeper _ _ hs hy with ⟨hx, hs₁⟩ | herring
      · exact .inl ⟨nested_error hlt hx, hs₁⟩
      · exact .inr (herring.nested hlt)

instance deepens_givesUp : Deepens (fun _ x y => GivesUp x y) := ⟨GivesUp.nested⟩

/-- All forms give up where a declaration in them fails. -/
instance walk_givesUp : Walk (fun _ x y => GivesUp x y) (fun x => x) where
  pure _ := givesUp_of_silent
  bind hx hf := hx.bind hf
  look _ := givesUp_of_silent
  failHere _ := givesUp_of_silent
  failBefore _ := givesUp_of_silent
  take _ _ _ := givesUp_of_silent
  recode _ _ := givesUp_of_silent
  intern _ := givesUp_of_silent
  beginScope := givesUp_of_silent
  beginFunction _ _ := givesUp_of_silent
  finishFunction := givesUp_of_silent
  endScope := givesUp_of_silent
  addSuper := givesUp_of_silent
  markInitialized := givesUp_of_silent
  captureVariable _ := givesUp_of_silent
  classes _ := givesUp_of_silent
  declaredName _ := givesUp_of_silent
  declaredClass := givesUp_of_silent
  recovering h := h.recovering

/-! ### Sources -/

/-- A declaration of a source fails: without going on after errors, a problem stops the script. -/
def DeclarationFails (source : String) (heap : Heap) (outer : List Handle) : Prop :=
  ∃ e s, scriptOf (fun x => x) (State.start source heap outer) = .error (.problem e) s

/-- A script is made if no errors were reported, and only then. -/
theorem script_made {o : Option Handle} (h : script s = .ok o s') :
    o.isSome ↔ s'.errors = #[] := by
  obtain ⟨left, s₁, -, h⟩ := run_bind.mp h
  obtain ⟨_, s₂, -, h⟩ := run_bind.mp h
  obtain ⟨_, s₃, -, h⟩ := run_bind.mp h
  obtain ⟨clean, s₄, hlook, h⟩ := run_bind.mp h
  obtain ⟨hclean, rfl⟩ := run_look.mp hlook
  cases clean with
  | true =>
    obtain ⟨made, s₄, hfinish, h⟩ := run_bind.mp h
    obtain ⟨rfl, rfl⟩ := run_pure.mp h
    have herrors : s₄.errors = s₃.errors := (Quiet.still _ _ _ hfinish).errors
    exact ⟨fun _ => herrors.trans (Array.isEmpty_iff.mp hclean), fun _ => rfl⟩
  | false =>
    obtain ⟨rfl, rfl⟩ := run_pure.mp h
    refine ⟨fun hsome => (by cases hsome), fun hempty => ?_⟩
    rw [Array.isEmpty_iff.mpr hempty] at hclean
    cases hclean

/-- No problem stops a script. -/
theorem script_not_problem {e : CompileError} : script s ≠ .error (.problem e) s' := by
  intro h
  rcases stop_bind.mp h with h | ⟨left, s₁, -, h⟩
  · cases h
  rcases stop_bind.mp h with h | ⟨_, s₂, -, h⟩
  · exact program_not_problem (maxNesting + 1) h
  rcases stop_bind.mp h with h | ⟨_, s₃, -, h⟩
  · obtain ⟨s₃, hreturn⟩ : ∃ s₃, emitReturn s₂ = .ok () s₃ := ⟨_, rfl⟩
    cases hreturn.symm.trans h
  rcases stop_bind.mp h with h | ⟨clean, s₄, -, h⟩
  · cases h
  cases clean with
  | true =>
    rcases stop_bind.mp h with h | ⟨made, s₅, -, h⟩
    · unfold finishFunction at h
      dsimp only at h
      repeat' split at h
      all_goals cases h
    · cases h
  | false => cases h

/-- A source is refused if and only if reading it found problems or a declaration of it fails,
unless compiling it ends in a fault. -/
theorem refused_iff {source : String} {heap : Heap} {outer : List Handle}
    (hfault : ∀ f, (compile source heap outer).1 ≠ .fault f) :
    (∃ es, (compile source heap outer).1 = .errors es) ↔
      (Token.read source).problems ≠ #[] ∨ DeclarationFails source heap outer := by
  have hwalk : GivesUp script (scriptOf fun x => x) :=
    walks_script (R := fun _ x y => GivesUp x y)
  have hstart : (State.start source heap outer).errors = #[] ↔
      (Token.read source).problems = #[] := by simp [State.start]
  unfold compile at hfault ⊢
  constructor
  · rintro ⟨es, hes⟩
    by_cases hclean : (State.start source heap outer).errors = #[]
    · cases hstrict : scriptOf (fun x => x) (State.start source heap outer) with
      | ok o s =>
        obtain ⟨hscript, hs⟩ := hwalk.ok _ _ _ hclean hstrict
        obtain ⟨function, rfl⟩ := Option.isSome_iff_exists.mp ((script_made hscript).mpr hs)
        rw [hscript] at hes
        cases hes
      | error e s =>
        cases e with
        | problem e => exact .inr ⟨e, s, hstrict⟩
        | fault f =>
          rw [hwalk.fault _ _ _ hclean hstrict] at hes
          cases hes
    · exact .inl fun hread => hclean (hstart.mpr hread)
  · intro hsome
    have herring : Erring (script (State.start source heap outer)) := by
      by_cases hclean : (State.start source heap outer).errors = #[]
      · obtain ⟨e, s, hstrict⟩ := hsome.resolve_left fun h => h (hstart.mp hclean)
        exact (hwalk.problem _ _ _ hclean hstrict).resolve_left fun h => script_not_problem h.1
      · exact hwalk.erring _ hclean
    cases hscript : script (State.start source heap outer) with
    | ok o s =>
      rw [hscript] at herring
      cases o with
      | none => exact ⟨_, rfl⟩
      | some function => exact absurd ((script_made hscript).mp rfl) herring
    | error e s =>
      cases e with
      | problem e => exact absurd hscript script_not_problem
      | fault f =>
        rw [hscript] at hfault
        exact absurd rfl (hfault f)

end ScriptMachine.Compile
