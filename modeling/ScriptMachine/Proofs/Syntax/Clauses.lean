import ScriptMachine.Proofs.Syntax.Levels
import ScriptMachine.Proofs.Syntax.Phrases

/-!
# Reading statements

Without errors in the end, a statement or a declaration that the compiler has gone past is spelled
by a grammatical tree, and what the compiler did is what it does for that tree.
-/

namespace ScriptMachine

open Compile

/-! ### Translations report no errors -/

instance {name : String} : Clean (bindName name) := by
  unfold bindName
  infer_instance

instance : Quiet refuseReturn := by
  unfold refuseReturn
  infer_instance

instance {count : Nat} : Clean (checkArguments count) := by
  unfold checkArguments
  infer_instance

instance {body : Compiler Unit} [Clean body] : Clean (skipping body) := by
  unfold skipping
  infer_instance

/-- Arguments that are translated without an error had none, each of them. -/
theorem clean_expr_list {args : List Expr} (h : ∀ a ∈ args, Clean a.translate) :
    Clean (Expr.listTranslate args) := by
  induction args with
  | nil => exact inferInstanceAs (Clean (pure ()))
  | cons a args ih =>
    have := h a List.mem_cons_self
    have := ih fun b hb => h b (List.mem_cons_of_mem _ hb)
    cases args with
    | nil => assumption
    | cons b args =>
      exact inferInstanceAs (Clean (a.translate >>= fun _ => advance >>= fun _ => _))

instance Expr.clean_translate (e : Expr) : Clean e.translate := by
  induction e with
  | superCall name args hargs | call f args _ hargs | invoke o name args _ hargs =>
    have := clean_expr_list hargs
    simp only [Expr.translate]
    repeat refine @Clean.bind _ _ _ _ inferInstance fun _ => ?_
    infer_instance
  | _ =>
    simp only [Expr.translate]
    repeat refine @Clean.bind _ _ _ _ inferInstance fun _ => ?_
    infer_instance

instance {test : Expr} : Clean test.translateCondition := by
  unfold Expr.translateCondition
  infer_instance

instance (params : List String) : Clean (translateParameters params) := by
  induction params with
  | nil => exact inferInstanceAs (Clean (pure ()))
  | cons name params ih =>
    cases params with
    | nil => simp only [translateParameters]; infer_instance
    | cons other params => simp only [translateParameters]; infer_instance

instance {kind : FunctionKind} {name : String} {params : List String} {body : Compiler Unit}
    [Clean body] : Clean (translateFunction kind name params body) := by
  simp only [translateFunction, translateSignature]
  repeat refine @Clean.bind _ _ _ _ inferInstance fun _ => ?_
  infer_instance

instance {name : String} {parent : Option String} : Clean (translateParent name parent) := by
  cases parent with
  | none => exact inferInstanceAs (Clean (pure ()))
  | some parent =>
    repeat refine @Clean.bind _ _ _ _ inferInstance fun _ => ?_
    infer_instance

instance {test : Option Expr} : Clean (translateTest test) := by
  cases test <;> simp only [translateTest] <;> infer_instance

instance {start : Nat} {step : Option Expr} : Clean (translateStep start step) := by
  cases step with
  | none => exact inferInstanceAs (Clean (advance >>= fun _ => pure start))
  | some e =>
    repeat refine @Clean.bind _ _ _ _ inferInstance fun _ => ?_
    infer_instance

instance {stop : Option Nat} : Quiet (translateExit stop) := by
  cases stop <;> simp only [translateExit] <;> infer_instance

/-- Statements that are translated without an error had none, each of them. -/
theorem clean_stmt_list {body : List Stmt} (h : ∀ s ∈ body, Clean s.translate) :
    Clean (Stmt.listTranslate body) := by
  induction body with
  | nil => exact inferInstanceAs (Clean (pure ()))
  | cons s body ih =>
    have := h s List.mem_cons_self
    have := ih fun b hb => h b (List.mem_cons_of_mem _ hb)
    exact inferInstanceAs (Clean (s.translate >>= fun _ => Stmt.listTranslate body))

/-- Methods that are translated without an error had none, each of them. -/
theorem clean_methods {methods : List Function}
    (h : ∀ f ∈ methods, ∀ s ∈ f.body, Clean s.translate) :
    Clean (Function.listTranslate methods) := by
  induction methods with
  | nil => exact inferInstanceAs (Clean (pure ()))
  | cons f methods ih =>
    obtain ⟨name, params, body⟩ := f
    have : Clean (Stmt.listTranslate body) :=
      clean_stmt_list (h ⟨name, params, body⟩ List.mem_cons_self)
    have := ih fun f hf => h f (List.mem_cons_of_mem _ hf)
    simp only [Function.listTranslate]
    repeat refine @Clean.bind _ _ _ _ inferInstance fun _ => ?_
    infer_instance

instance Stmt.clean_translate (s : Stmt) : Clean s.translate := by
  induction s with
  | let_ name init | return_ init =>
    cases init <;> simp only [Stmt.translate] <;>
      (repeat refine @Clean.bind _ _ _ _ inferInstance fun _ => ?_) <;> infer_instance
  | def_ name params body hbody =>
    have := clean_stmt_list hbody
    simp only [Stmt.translate]
    infer_instance
  | class_ name parent methods hmethods =>
    have := clean_methods hmethods
    simp only [Stmt.translate]
    repeat refine @Clean.bind _ _ _ _ inferInstance fun _ => ?_
    infer_instance
  | if_ test body otherwise _ hotherwise =>
    cases otherwise with
    | none =>
      simp only [Stmt.translate]
      repeat refine @Clean.bind _ _ _ _ inferInstance fun _ => ?_
      infer_instance
    | some s =>
      have := hotherwise s rfl
      simp only [Stmt.translate]
      repeat refine @Clean.bind _ _ _ _ inferInstance fun _ => ?_
      infer_instance
  | for_ init test step body hinit _ =>
    cases init with
    | none =>
      simp only [Stmt.translate]
      repeat refine @Clean.bind _ _ _ _ inferInstance fun _ => ?_
      infer_instance
    | some s =>
      have := hinit s rfl
      simp only [Stmt.translate]
      repeat refine @Clean.bind _ _ _ _ inferInstance fun _ => ?_
      infer_instance
  | block body hbody =>
    have := clean_stmt_list hbody
    simp only [Stmt.translate]
    repeat refine @Clean.bind _ _ _ _ inferInstance fun _ => ?_
    infer_instance
  | _ =>
    simp only [Stmt.translate]
    repeat refine @Clean.bind _ _ _ _ inferInstance fun _ => ?_
    infer_instance

instance {body : List Stmt} : Clean (Stmt.listTranslate body) :=
  clean_stmt_list fun s _ => s.clean_translate

instance {methods : List Function} : Clean (Function.listTranslate methods) :=
  clean_methods fun _ _ s _ => s.clean_translate

/-! ### Simple statements -/

namespace Compile

variable {s s' s₀ s₁ : State} {inner : Parsers}

/-- From `s` to `s'` the compiler read and translated a statement. -/
structure ReadStmt (t : Stmt) (s s' : State) : Prop where
  grammatical : t.Grammatical
  rest : s.rest = t.tokens ++ s'.rest
  run : t.translate s = .ok () s'
  closed : t.isOpen = true → s'.rest.head? ≠ some (.keyword .else_)

/-- Without errors in the end, a parser reads statements or declarations. -/
def ReadsDeclaration (x : Compiler Unit) : Prop :=
  ∀ s s', x s = .ok () s' → s'.errors = #[] → ∃ t, ReadStmt t s s'

/-- A declaration that is read back had no error before. -/
theorem ReadsDeclaration.clean {x : Compiler Unit} (h : ReadsDeclaration x) : Clean x where
  clean s _ s' hx hs := by
    obtain ⟨t, ht⟩ := h s s' hx hs
    exact clean_of_run ht.run hs

/-- Without errors in the end, a parser reads statements. -/
def ReadsStatement (x : Compiler Unit) : Prop :=
  ∀ s s', x s = .ok () s' → s'.errors = #[] → ∃ t, ReadStmt t s s' ∧ t.declares = false

/-- The parsers for what stands one level further in read it. -/
structure ReadsInner (inner : Parsers) : Prop where
  expression : ReadsNested inner.expression
  statement : ReadsStatement inner.statement
  declaration : ReadsDeclaration inner.declaration

namespace ReadsInner

variable (hn : ReadsInner inner)
include hn

/-- An expression that compiles without an error had none before. -/
theorem cleanExpression : Clean (Compile.expression inner) where
  clean s _ s' h hs := by
    obtain ⟨e, he, -, -⟩ := hn.expression .assignment (by decide) s s' h
    exact clean_of_run he.run hs

/-- A statement that compiles without an error had none before. -/
theorem cleanStatement : Clean inner.statement where
  clean s _ s' h hs := by
    obtain ⟨t, ht, -⟩ := hn.statement s s' h hs
    exact clean_of_run ht.run hs

/-- A full expression. -/
theorem full (h : Compile.expression inner s = .ok () s') : ∃ e, ReadAs e s s' := by
  obtain ⟨e, he, -, -⟩ := hn.expression .assignment (by decide) s s' h
  exact ⟨e, he⟩

/-- A condition in parentheses. -/
theorem condition {what : Expectation} (h : Compile.condition inner what s = .ok () s') :
    ∃ test : Expr, test.Grammatical ∧
      s.rest = .symbol .leftParen :: test.tokens ++ .symbol .rightParen :: s'.rest ∧
      test.translateCondition s = .ok () s' := by
  obtain ⟨_, s₁, hopen, h⟩ := run_bind.mp h
  obtain ⟨_, s₂, htest, hclose⟩ := run_bind.mp h
  obtain ⟨test, he⟩ := hn.full htest
  have hopen := run_expect hopen
  have hclose := run_expect hclose
  refine ⟨test, he.grammatical, ?_, run_then hopen.2 (run_then he.run hclose.2)⟩
  simp [hopen.1, he.rest, hclose.1]

end ReadsInner

/-- A name that is declared was gone past. -/
theorem declareName_run {what : Expectation} {name : String} {k : UInt16}
    (h : declareName what s = .ok (name, k) s') :
    s.rest = .name name :: s'.rest ∧ bindName name s = .ok k s' := by
  obtain ⟨spelling, s₁, hname, h₁⟩ := run_bind.mp h
  obtain ⟨_, s₂, hdeclare, h₂⟩ := run_bind.mp h₁
  obtain ⟨depth, s₃, hlook, h₃⟩ := run_bind.mp h₂
  have hname := run_expectName hname
  obtain ⟨-, rfl⟩ := run_look.mp hlook
  have hmid : s₂.rest = s₁.rest := Quiet.rest hdeclare
  split at h₃
  · next hdepth =>
    obtain ⟨heq, rfl⟩ := run_pure.mp h₃
    obtain ⟨rfl, rfl⟩ := Prod.mk.inj heq
    refine ⟨hmid ▸ hname.1, run_then hname.2 (run_then hdeclare (run_then hlook ?_))⟩
    rw [if_pos hdepth]
    rfl
  · next hdepth =>
    obtain ⟨k', s₄, hconstant, h₄⟩ := run_bind.mp h₃
    obtain ⟨heq, rfl⟩ := run_pure.mp h₄
    obtain ⟨rfl, rfl⟩ := Prod.mk.inj heq
    refine ⟨((Quiet.rest hconstant).trans hmid) ▸ hname.1,
      run_then hname.2 (run_then hdeclare (run_then hlook ?_))⟩
    rw [if_neg hdepth]
    exact hconstant

section Forms

variable (hn : ReadsInner inner)
include hn

/-- A variable declaration is read back from what was gone past. -/
theorem let_reads (hkeyword : Passes (.keyword .let_) s₀ s)
    (h : letDeclaration inner s = .ok () s') : ∃ t, ReadStmt t s₀ s' ∧ t.startsLoop = true := by
  obtain ⟨⟨name, k⟩, s₁, hname, h₁⟩ := run_bind.mp h
  obtain ⟨hit, s₂, hassign, h₂⟩ := run_bind.mp h₁
  obtain ⟨hspelled, hbind⟩ := declareName_run hname
  rcases run_accept hassign with ⟨rfl, hpass⟩ | ⟨rfl, -, rfl⟩
  · obtain ⟨_, s₃, hvalue, h₃⟩ := run_bind.mp h₂
    obtain ⟨_, s₄, hend, hdefine⟩ := run_bind.mp h₃
    obtain ⟨e, he⟩ := hn.full hvalue
    have hend := run_expect hend
    have hlast : s'.rest = s₄.rest := Quiet.rest hdefine
    refine ⟨.let_ name (some e), ⟨he.grammatical, ?_, ?_, fun h => by cases h⟩, rfl⟩
    · simp [Stmt.tokens, hkeyword.1, hspelled, hpass.1, he.rest, hend.1, hlast]
    · exact run_then hkeyword.2 (run_then hbind (run_then hpass.2 (run_then he.run
        (run_then hend.2 hdefine))))
  · obtain ⟨_, s₃, hnull, h₃⟩ := run_bind.mp h₂
    obtain ⟨_, s₄, hend, hdefine⟩ := run_bind.mp h₃
    have hend := run_expect hend
    have hmid : s₃.rest = s₁.rest := Quiet.rest hnull
    have hlast : s'.rest = s₄.rest := Quiet.rest hdefine
    refine ⟨.let_ name none, ⟨trivial, ?_, ?_, fun h => by cases h⟩, rfl⟩
    · simp [Stmt.tokens, hkeyword.1, hspelled, ← hmid, hend.1, hlast]
    · exact run_then hkeyword.2 (run_then hbind (run_then hnull (run_then hend.2 hdefine)))

/-- An expression statement is read back from what was gone past. -/
theorem expressionStatement_reads (h : expressionStatement inner s = .ok () s') :
    ∃ t, ReadStmt t s s' ∧ t.startsLoop = true ∧ t.declares = false := by
  obtain ⟨_, s₁, hvalue, h₁⟩ := run_bind.mp h
  obtain ⟨_, s₂, hend, hpop⟩ := run_bind.mp h₁
  obtain ⟨e, he⟩ := hn.full hvalue
  have hend := run_expect hend
  have hlast : s'.rest = s₂.rest := Quiet.rest hpop
  refine ⟨.expression e, ⟨he.grammatical, ?_, ?_, fun h => by cases h⟩, rfl, rfl⟩
  · simp [Stmt.tokens, he.rest, hend.1, hlast]
  · exact run_then he.run (run_then hend.2 hpop)

/-- A print statement is read back from what was gone past. -/
theorem print_reads (hkeyword : Passes (.keyword .print_) s₀ s)
    (h : printStatement inner s = .ok () s') : ∃ t, ReadStmt t s₀ s' ∧ t.declares = false := by
  obtain ⟨_, s₁, hvalue, h₁⟩ := run_bind.mp h
  obtain ⟨_, s₂, hend, hprint⟩ := run_bind.mp h₁
  obtain ⟨e, he⟩ := hn.full hvalue
  have hend := run_expect hend
  have hlast : s'.rest = s₂.rest := Quiet.rest hprint
  refine ⟨.print e, ⟨he.grammatical, ?_, ?_, fun h => by cases h⟩, rfl⟩
  · simp [Stmt.tokens, hkeyword.1, he.rest, hend.1, hlast]
  · exact run_then hkeyword.2 (run_then he.run (run_then hend.2 hprint))

/-- A return statement is read back from what was gone past. -/
theorem return_reads (hkeyword : Passes (.keyword .return_) s₀ s)
    (h : returnStatement inner s = .ok () s') : ∃ t, ReadStmt t s₀ s' ∧ t.declares = false := by
  obtain ⟨kind, s₁, hkind, h₁⟩ := run_bind.mp h
  obtain ⟨rfl, rfl⟩ := run_look.mp hkind
  split at h₁
  · obtain ⟨_, _, hfail, -⟩ := run_bind.mp h₁
    exact (run_failBefore.mp hfail).elim
  · next hinside =>
    have hallowed : refuseReturn s = .ok () s :=
      run_then hkind (by rw [if_neg hinside]; exact run_pure.mpr ⟨rfl, rfl⟩)
    obtain ⟨hit, s₁, hend, h₂⟩ := run_bind.mp h₁
    rcases run_accept hend with ⟨rfl, hpass⟩ | ⟨rfl, -, rfl⟩
    · have hreturn : emitReturn s₁ = .ok () s' := h₂
      have hlast : s'.rest = s₁.rest := Quiet.rest hreturn
      refine ⟨.return_ none, ⟨trivial, ?_, ?_, fun h => by cases h⟩, rfl⟩
      · simp [Stmt.tokens, Expr.optionTokens, hkeyword.1, hpass.1, hlast]
      · exact run_then hkeyword.2 (run_then hallowed (run_then hpass.2 hreturn))
    · obtain ⟨_, s₂, hvalue, h₃⟩ := run_bind.mp h₂
      obtain ⟨_, s₃, hsemicolon, hreturn⟩ := run_bind.mp h₃
      obtain ⟨e, he⟩ := hn.full hvalue
      have hsemicolon := run_expect hsemicolon
      have hlast : s'.rest = s₃.rest := Quiet.rest hreturn
      refine ⟨.return_ (some e), ⟨he.grammatical, ?_, ?_, fun h => by cases h⟩, rfl⟩
      · simp [Stmt.tokens, Expr.optionTokens, hkeyword.1, he.rest, hsemicolon.1, hlast]
      · exact run_then hkeyword.2 (run_then hallowed (run_then hkind (run_then he.run
          (run_then hsemicolon.2 hreturn))))

end Forms

end Compile

end ScriptMachine
