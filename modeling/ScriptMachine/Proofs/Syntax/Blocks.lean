import ScriptMachine.Proofs.Syntax.Clauses

/-!
# Reading what holds statements

Conditional statements, loops, blocks, functions and classes, over parsers that read the
statements in them.

A source that compiles is spelled by a grammatical program, and what the compiler did is what it
does for that program.
-/

namespace ScriptMachine.Compile

variable {s s' s₀ s₁ : State} {inner : Parsers}

section Forms

variable (hn : ReadsInner inner)
include hn

attribute [local simp] Stmt.tokens

/-! ### Conditional statements and loops -/

/-- A conditional statement is read back from what was gone past. -/
theorem if_reads (hkeyword : Passes (.keyword .if_) s₀ s) (h : ifStatement inner s = .ok () s')
    (hclean : s'.errors = #[]) : ∃ t, ReadStmt t s₀ s' ∧ t.declares = false := by
  have := hn.cleanStatement
  obtain ⟨_, s₁, htest, h₁⟩ := run_bind.mp h
  obtain ⟨otherwise, s₂, hjump, h₂⟩ := run_bind.mp h₁
  obtain ⟨_, s₃, hpop, h₃⟩ := run_bind.mp h₂
  obtain ⟨_, s₄, hbody, h₄⟩ := run_bind.mp h₃
  obtain ⟨stop, s₅, hskip, h₅⟩ := run_bind.mp h₄
  obtain ⟨_, s₆, hpatch, h₆⟩ := run_bind.mp h₅
  obtain ⟨_, s₇, hpop', h₇⟩ := run_bind.mp h₆
  obtain ⟨hit, s₈, helse, h₈⟩ := run_bind.mp h₇
  obtain ⟨test, hg, hspelled, htranslate⟩ := hn.condition htest
  obtain ⟨body, hb, hstatement⟩ := hn.statement s₃ s₄ hbody (clean_of_run h₄ hclean)
  have hmid : s₃.rest = s₁.rest := (Quiet.rest hpop).trans (Quiet.rest hjump)
  have hmid' : s₇.rest = s₄.rest :=
    (Quiet.rest hpop').trans ((Quiet.rest hpatch).trans (Quiet.rest hskip))
  rcases run_acceptKeyword helse with ⟨rfl, hpass⟩ | ⟨rfl, hother, rfl⟩
  · obtain ⟨_, s₉, hno, hend⟩ := run_bind.mp h₈
    have hlast : s'.rest = s₉.rest := Quiet.rest hend
    obtain ⟨no, ht, hstatement'⟩ := hn.statement s₈ s₉ hno (clean_of_run hend hclean)
    have hclosed : body.isOpen = false := by
      cases hopen : body.isOpen with
      | false => rfl
      | true => exact absurd (by rw [← hmid', hpass.1]; rfl) (hb.closed hopen)
    refine ⟨.if_ test body (some no), ⟨⟨hg, ⟨hb.grammatical, hstatement, hclosed⟩, ht.grammatical,
      hstatement'⟩, ?_, ?_, fun hopen => hlast ▸ ht.closed hopen⟩, rfl⟩
    · simp [hkeyword.1, hspelled, ← hmid, hb.rest, ← hmid', hpass.1, ht.rest, hlast]
    · exact run_then hkeyword.2 (run_then htranslate (run_then hjump
        (run_then (run_seqRight.mpr ⟨_, _, hpop, hb.run⟩) (run_then hskip (run_then hpatch
          (run_then (run_then hpop' (run_then hpass.2 ht.run)) hend))))))
  · have hend : patchJump stop s₇ = .ok () s' := h₈
    have hlast : s'.rest = s₇.rest := Quiet.rest hend
    refine ⟨.if_ test body none, ⟨⟨hg, hb.grammatical, hstatement⟩, ?_, ?_,
      fun _ => hlast ▸ hother⟩, rfl⟩
    · simp [hkeyword.1, hspelled, ← hmid, hb.rest, hlast, hmid']
    · exact run_then hkeyword.2 (run_then htranslate (run_then hjump
        (run_then (run_seqRight.mpr ⟨_, _, hpop, hb.run⟩) (run_then hskip (run_then hpatch
          (run_then hpop' hend))))))

/-- A loop is read back from what was gone past. -/
theorem while_reads (hkeyword : Passes (.keyword .while_) s₀ s)
    (h : whileStatement inner s = .ok () s') (hclean : s'.errors = #[]) :
    ∃ t, ReadStmt t s₀ s' ∧ t.declares = false := by
  obtain ⟨start, s₁, hstart, h₁⟩ := run_bind.mp h
  obtain ⟨_, s₂, htest, h₂⟩ := run_bind.mp h₁
  obtain ⟨stop, s₃, hjump, h₃⟩ := run_bind.mp h₂
  obtain ⟨_, s₄, hpop, h₄⟩ := run_bind.mp h₃
  obtain ⟨_, s₅, hbody, h₅⟩ := run_bind.mp h₄
  obtain ⟨_, s₆, hloop, h₆⟩ := run_bind.mp h₅
  obtain ⟨_, s₇, hpatch, hpop'⟩ := run_bind.mp h₆
  obtain ⟨test, hg, hspelled, htranslate⟩ := hn.condition htest
  obtain ⟨body, hb, hstatement⟩ := hn.statement s₄ s₅ hbody (clean_of_run h₅ hclean)
  have hfirst : s₁.rest = s.rest := Quiet.rest hstart
  have hmid : s₄.rest = s₂.rest := (Quiet.rest hpop).trans (Quiet.rest hjump)
  have hlast : s'.rest = s₅.rest :=
    (Quiet.rest hpop').trans ((Quiet.rest hpatch).trans (Quiet.rest hloop))
  refine ⟨.while_ test body, ⟨⟨hg, hb.grammatical, hstatement⟩, ?_, ?_,
    fun hopen => hlast ▸ hb.closed hopen⟩, rfl⟩
  · simp [hkeyword.1, ← hfirst, hspelled, ← hmid, hb.rest, hlast]
  · exact run_then hkeyword.2 (run_then hstart (run_then htranslate
      (run_then (run_then hjump (run_then (run_then hpop (run_then hb.run hloop)) hpatch)) hpop')))

/-- A loop with its condition behind is read back from what was gone past. -/
theorem doWhile_reads (hkeyword : Passes (.keyword .do_) s₀ s)
    (h : doWhileStatement inner s = .ok () s') (hclean : s'.errors = #[]) :
    ∃ t, ReadStmt t s₀ s' ∧ t.declares = false := by
  have := hn.cleanExpression
  obtain ⟨start, s₁, hstart, h₁⟩ := run_bind.mp h
  obtain ⟨_, s₂, hbody, h₂⟩ := run_bind.mp h₁
  obtain ⟨_, s₃, hwhile, h₃⟩ := run_bind.mp h₂
  obtain ⟨_, s₄, htest, h₄⟩ := run_bind.mp h₃
  obtain ⟨_, s₅, hend, h₅⟩ := run_bind.mp h₄
  obtain ⟨stop, s₆, hjump, h₆⟩ := run_bind.mp h₅
  obtain ⟨_, s₇, hpop, h₇⟩ := run_bind.mp h₆
  obtain ⟨_, s₈, hloop, h₈⟩ := run_bind.mp h₇
  obtain ⟨_, s₉, hpatch, hpop'⟩ := run_bind.mp h₈
  obtain ⟨test, hg, hspelled, htranslate⟩ := hn.condition htest
  have hclean₃ : s₃.errors = #[] := clean_of_run htranslate (clean_of_run h₄ hclean)
  obtain ⟨body, hb, hstatement⟩ := hn.statement s₁ s₂ hbody (clean_of_run hwhile hclean₃)
  have hwhile := run_expectKeyword hwhile
  have hend := run_expect hend
  have hfirst : s₁.rest = s.rest := Quiet.rest hstart
  have hlast : s'.rest = s₅.rest := (Quiet.rest hpop').trans ((Quiet.rest hpatch).trans
    ((Quiet.rest hloop).trans ((Quiet.rest hpop).trans (Quiet.rest hjump))))
  refine ⟨.doWhile body test, ⟨⟨hg, hb.grammatical, hstatement⟩, ?_, ?_, fun h => by cases h⟩, rfl⟩
  · simp [hkeyword.1, ← hfirst, hb.rest, hwhile.1, hspelled, hend.1, hlast]
  · exact run_then hkeyword.2 (run_then hstart (run_then hb.run (run_then hwhile.2
      (run_then htranslate (run_then hend.2 (run_then (run_then hjump
        (run_then (run_then hpop hloop) hpatch)) hpop'))))))

/-- The condition of a counting loop. -/
theorem forCondition_reads {stop : Option Nat} (h : forCondition inner s = .ok stop s') :
    ∃ test, Expr.OptionGrammatical test ∧
      s.rest = Expr.optionTokens test ++ .symbol .semicolon :: s'.rest ∧
      translateTest test s = .ok stop s' := by
  obtain ⟨hit, s₁, hend, h₁⟩ := run_bind.mp h
  rcases run_accept hend with ⟨rfl, hpass⟩ | ⟨rfl, -, rfl⟩
  · obtain ⟨rfl, rfl⟩ := run_pure.mp h₁
    exact ⟨none, trivial, hpass.1, run_then hpass.2 (run_pure.mpr ⟨rfl, rfl⟩)⟩
  · obtain ⟨_, s₁, htest, h₂⟩ := run_bind.mp h₁
    obtain ⟨_, s₂, hend, h₃⟩ := run_bind.mp h₂
    obtain ⟨at_, s₃, hjump, h₄⟩ := run_bind.mp h₃
    obtain ⟨_, s₄, hpop, h₅⟩ := run_bind.mp h₄
    obtain ⟨rfl, rfl⟩ := run_pure.mp h₅
    obtain ⟨test, he⟩ := hn.full htest
    have hend := run_expect hend
    have hlast : s₄.rest = s₂.rest := (Quiet.rest hpop).trans (Quiet.rest hjump)
    refine ⟨some test, he.grammatical, ?_, ?_⟩
    · simp [Expr.optionTokens, he.rest, hend.1, hlast]
    · exact run_then he.run (run_then hend.2 (run_then hjump (run_then hpop
        (run_pure.mpr ⟨rfl, rfl⟩))))

/-- What a counting loop does after its body. -/
theorem forStep_reads {start back : Nat} (h : forStep inner start s = .ok back s') :
    ∃ step, Expr.OptionGrammatical step ∧
      s.rest = Expr.optionTokens step ++ .symbol .rightParen :: s'.rest ∧
      translateStep start step s = .ok back s' := by
  obtain ⟨hit, s₁, hend, h₁⟩ := run_bind.mp h
  rcases run_accept hend with ⟨rfl, hpass⟩ | ⟨rfl, -, rfl⟩
  · obtain ⟨rfl, rfl⟩ := run_pure.mp h₁
    exact ⟨none, trivial, hpass.1, run_then hpass.2 (run_pure.mpr ⟨rfl, rfl⟩)⟩
  · obtain ⟨body, s₁, hjump, h₂⟩ := run_bind.mp h₁
    obtain ⟨at_, s₂, hhere, h₃⟩ := run_bind.mp h₂
    obtain ⟨_, s₃, hstep, h₄⟩ := run_bind.mp h₃
    obtain ⟨_, s₄, hpop, h₅⟩ := run_bind.mp h₄
    obtain ⟨_, s₅, hend, h₆⟩ := run_bind.mp h₅
    obtain ⟨_, s₆, hloop, h₇⟩ := run_bind.mp h₆
    obtain ⟨_, s₇, hpatch, h₈⟩ := run_bind.mp h₇
    obtain ⟨rfl, rfl⟩ := run_pure.mp h₈
    obtain ⟨step, he⟩ := hn.full hstep
    have hend := run_expect hend
    have hfirst : s₂.rest = s.rest := (Quiet.rest hhere).trans (Quiet.rest hjump)
    have hmid : s₄.rest = s₃.rest := Quiet.rest hpop
    have hlast : s₇.rest = s₅.rest := (Quiet.rest hpatch).trans (Quiet.rest hloop)
    refine ⟨some step, he.grammatical, ?_, ?_⟩
    · simp [Expr.optionTokens, ← hfirst, he.rest, ← hmid, hend.1, hlast]
    · exact run_then hjump (run_then hhere (run_then he.run (run_then hpop (run_then hend.2
        (run_then hloop (run_then hpatch (run_pure.mpr ⟨rfl, rfl⟩)))))))

/-- The first clause of a counting loop: none, a declaration or an expression. -/
theorem forStart_reads (h : forStart inner s = .ok () s') :
    Passes (.symbol .semicolon) s s' ∨ ∃ init, ReadStmt init s s' ∧ init.startsLoop = true := by
  obtain ⟨hit, s₁, hnone, h₁⟩ := run_bind.mp h
  rcases run_accept hnone with ⟨rfl, hpass⟩ | ⟨rfl, -, rfl⟩
  · obtain ⟨-, rfl⟩ := run_pure.mp h₁
    exact .inl hpass
  · obtain ⟨hit, s₁, hlet, h₂⟩ := run_bind.mp h₁
    rcases run_acceptKeyword hlet with ⟨rfl, hpass⟩ | ⟨rfl, -, rfl⟩
    · exact .inr (let_reads hn hpass h₂)
    · obtain ⟨t, ht, hstarts, -⟩ := expressionStatement_reads hn h₂
      exact .inr ⟨t, ht, hstarts⟩

/-- A counting loop is read back from what was gone past. -/
theorem for_reads (hkeyword : Passes (.keyword .for_) s₀ s) (h : forStatement inner s = .ok () s')
    (hclean : s'.errors = #[]) : ∃ t, ReadStmt t s₀ s' ∧ t.declares = false := by
  obtain ⟨_, s₁, hscope, h₁⟩ := run_bind.mp h
  obtain ⟨_, s₂, hopen, h₂⟩ := run_bind.mp h₁
  obtain ⟨_, s₃, hinit, h₃⟩ := run_bind.mp h₂
  obtain ⟨start, s₄, hhere, h₄⟩ := run_bind.mp h₃
  obtain ⟨stop, s₅, htest, h₅⟩ := run_bind.mp h₄
  obtain ⟨back, s₆, hstep, h₆⟩ := run_bind.mp h₅
  obtain ⟨_, s₇, hbody, h₇⟩ := run_bind.mp h₆
  obtain ⟨_, s₈, hloop, h₈⟩ := run_bind.mp h₇
  have hexit : (translateExit stop >>= fun _ => endScope) s₈ = .ok () s' := by
    cases stop with
    | none => exact h₈
    | some stop =>
      obtain ⟨_, s₉, hpatch, h₉⟩ := run_bind.mp h₈
      obtain ⟨_, s₁₀, hpop, hend⟩ := run_bind.mp h₉
      exact run_then (run_then hpatch hpop) hend
  obtain ⟨test, htestGrammatical, htestSpelled, htestRun⟩ := forCondition_reads hn htest
  obtain ⟨step, hstepGrammatical, hstepSpelled, hstepRun⟩ := forStep_reads hn hstep
  have hclean₇ : s₇.errors = #[] := clean_of_run hloop (clean_of_run hexit hclean)
  obtain ⟨body, hb, hstatement⟩ := hn.statement s₆ s₇ hbody hclean₇
  have hopen := run_expect hopen
  have hfirst : s₁.rest = s.rest := Quiet.rest hscope
  have hmid : s₄.rest = s₃.rest := Quiet.rest hhere
  have hlast : s'.rest = s₇.rest := (Quiet.rest hexit).trans (Quiet.rest hloop)
  rcases forStart_reads hn hinit with hpass | ⟨init, hi, hstarts⟩
  · refine ⟨.for_ none test step body,
      ⟨⟨htestGrammatical, hstepGrammatical, hb.grammatical, hstatement⟩, ?_, ?_,
        fun hopen => hlast ▸ hb.closed hopen⟩, rfl⟩
    · simp [hkeyword.1, ← hfirst, hopen.1, hpass.1, ← hmid, htestSpelled,
        hstepSpelled, hb.rest, hlast]
    · exact run_then hkeyword.2 (run_then hscope (run_then hopen.2 (run_then hpass.2
        (run_then hhere (run_then htestRun (run_then hstepRun (run_then hb.run
          (run_then hloop hexit))))))))
  · refine ⟨.for_ (some init) test step body, ⟨⟨⟨hi.grammatical, hstarts⟩, htestGrammatical,
      hstepGrammatical, hb.grammatical, hstatement⟩, ?_, ?_,
        fun hopen => hlast ▸ hb.closed hopen⟩, rfl⟩
    · simp [hkeyword.1, ← hfirst, hopen.1, hi.rest, ← hmid, htestSpelled,
        hstepSpelled, hb.rest, hlast]
    · exact run_then hkeyword.2 (run_then hscope (run_then hopen.2 (run_then hi.run
        (run_then hhere (run_then htestRun (run_then hstepRun (run_then hb.run
          (run_then hloop hexit))))))))

/-! ### Blocks and functions -/

/-- From `s` to `s'` the compiler read and translated statements. -/
structure ReadStmts (body : List Stmt) (s s' : State) : Prop where
  grammatical : Stmt.ListGrammatical body
  rest : s.rest = Stmt.listTokens body ++ s'.rest
  run : Stmt.listTranslate body s = .ok () s'

/-- The declarations of a block are read back, by induction on how many may follow. -/
theorem declarations_reads {fuel : Nat} (h : declarations inner fuel s = .ok () s')
    (hclean : s'.errors = #[]) : ∃ body, ReadStmts body s s' := by
  induction fuel generalizing s with
  | zero =>
    obtain ⟨-, rfl⟩ := run_pure.mp h
    exact ⟨[], trivial, rfl, rfl⟩
  | succ fuel ih =>
    obtain ⟨done, s₁, hlook, h₁⟩ := run_bind.mp h
    obtain ⟨-, rfl⟩ := run_look.mp hlook
    cases done with
    | true =>
      obtain ⟨-, rfl⟩ := run_pure.mp h₁
      exact ⟨[], trivial, rfl, rfl⟩
    | false =>
      obtain ⟨_, s₁, hfirst, hmore⟩ := run_bind.mp h₁
      obtain ⟨body, hbody⟩ := ih hmore
      obtain ⟨t, ht⟩ := hn.declaration s s₁ hfirst (clean_of_run hbody.run hclean)
      refine ⟨t :: body, ⟨ht.grammatical, hbody.grammatical⟩, ?_, run_then ht.run hbody.run⟩
      simp [Stmt.listTokens, ht.rest, hbody.rest]

/-- A block up to its closing brace. -/
theorem block_reads (h : block inner s = .ok () s') (hclean : s'.errors = #[]) :
    ∃ body s₁, ReadStmts body s s₁ ∧ Passes (.symbol .rightBrace) s₁ s' := by
  obtain ⟨left, s₁, hlook, h₁⟩ := run_bind.mp h
  obtain ⟨_, s₂, hbody, hend⟩ := run_bind.mp h₁
  obtain ⟨-, rfl⟩ := run_look.mp hlook
  obtain ⟨body, hread⟩ := declarations_reads hn hbody (clean_of_run hend hclean)
  exact ⟨body, s₂, hread, run_expect hend⟩

/-- A block is read back from what was gone past. -/
theorem blockStatement_reads (hopen : Passes (.symbol .leftBrace) s₀ s)
    (h : blockStatement inner s = .ok () s') (hclean : s'.errors = #[]) :
    ∃ t, ReadStmt t s₀ s' ∧ t.declares = false := by
  obtain ⟨_, s₁, hscope, h₁⟩ := run_bind.mp h
  obtain ⟨_, s₂, hblock, hend⟩ := run_bind.mp h₁
  obtain ⟨body, s₁', hbody, hclose⟩ := block_reads hn hblock (clean_of_run hend hclean)
  have hfirst : s₁.rest = s.rest := Quiet.rest hscope
  have hlast : s'.rest = s₂.rest := Quiet.rest hend
  refine ⟨.block body, ⟨hbody.grammatical, ?_, ?_, fun h => by cases h⟩, rfl⟩
  · simp [hopen.1, ← hfirst, hbody.rest, hclose.1, hlast]
  · exact run_then hopen.2 (run_then hscope (run_then hbody.run (run_then hclose.2 hend)))

omit hn in
/-- The parameters are read back, by induction on how many may follow. -/
theorem parameters_reads {room n : Nat} (h : parameters room s = .ok n s') :
    ∃ params, params ≠ [] ∧ s.rest = nameTokens params ++ s'.rest ∧
      translateParameters params s = .ok () s' ∧ n = params.length := by
  induction room generalizing s n with
  | zero => exact (run_failHere.mp h).elim
  | succ room ih =>
    obtain ⟨⟨name, k⟩, s₁, hname, h₁⟩ := run_bind.mp h
    obtain ⟨_, s₂, hdefine, h₂⟩ := run_bind.mp h₁
    obtain ⟨hit, s₃, hcomma, h₃⟩ := run_bind.mp h₂
    obtain ⟨hspelled, hbind⟩ := declareName_run hname
    have hmid : s₂.rest = s₁.rest := Quiet.rest hdefine
    rcases run_accept hcomma with ⟨rfl, hpass⟩ | ⟨rfl, -, rfl⟩
    · obtain ⟨m, s₄, hmore, h₄⟩ := run_bind.mp h₃
      obtain ⟨rfl, rfl⟩ := run_pure.mp h₄
      obtain ⟨params, hne, hrest, hrun, rfl⟩ := ih hmore
      obtain ⟨p, ps, rfl⟩ := List.exists_cons_of_ne_nil hne
      refine ⟨name :: p :: ps, by simp, ?_, ?_, rfl⟩
      · simp [nameTokens, hspelled, ← hmid, hpass.1, hrest]
      · exact run_then hbind (run_then hdefine (run_then hpass.2 hrun))
    · obtain ⟨rfl, rfl⟩ := run_pure.mp h₃
      refine ⟨[name], by simp, ?_, run_then hbind hdefine, rfl⟩
      simp [nameTokens, hspelled, hmid]


/-- A function after its parameters. -/
theorem functionBody_reads (h : (do
      expect .rightParen .parametersClose
      expect .leftBrace .bodyOpen
      block inner
      emitReturn
      let (function, captures) ← finishFunction
      let constant ← makeConstant (.ofHandle function)
      emitClosure constant captures : Compiler Unit) s = .ok () s') (hclean : s'.errors = #[]) :
    ∃ body s₁, Passes (.symbol .rightParen) s s₁ ∧ Stmt.ListGrammatical body ∧
      s₁.rest = .symbol .leftBrace :: Stmt.listTokens body ++ .symbol .rightBrace :: s'.rest ∧
      (do
        advance
        Stmt.listTranslate body
        advance
        emitReturn
        let (function, captures) ← finishFunction
        let constant ← makeConstant (.ofHandle function)
        emitClosure constant captures : Compiler Unit) s₁ = .ok () s' := by
  obtain ⟨_, s₁, hclose, h₁⟩ := run_bind.mp h
  obtain ⟨_, s₂, hopen, h₂⟩ := run_bind.mp h₁
  obtain ⟨_, s₃, hblock, hend⟩ := run_bind.mp h₂
  have hopen := run_expect hopen
  obtain ⟨body, s₂', hbody, hpass⟩ := block_reads hn hblock (clean_of_run hend hclean)
  have hlast : s'.rest = s₃.rest := Quiet.rest hend
  refine ⟨body, s₁, run_expect hclose, hbody.grammatical, ?_, ?_⟩
  · simp [hopen.1, hbody.rest, hpass.1, hlast]
  · exact run_then hopen.2 (run_then hbody.run (run_then hpass.2 hend))

/-- A function after its name. -/
theorem functionRest_reads {kind : FunctionKind} {name : String}
    (h : functionRest inner kind name s = .ok () s') (hclean : s'.errors = #[]) :
    ∃ params body, Stmt.ListGrammatical body ∧
      s.rest = .symbol .leftParen :: nameTokens params ++ .symbol .rightParen ::
        .symbol .leftBrace :: Stmt.listTokens body ++ .symbol .rightBrace :: s'.rest ∧
      translateFunction kind name params (Stmt.listTranslate body) s = .ok () s' := by
  obtain ⟨r, s₁, hintern, h₁⟩ := run_bind.mp h
  obtain ⟨_, s₂, hbegin, h₂⟩ := run_bind.mp h₁
  obtain ⟨_, s₃, hscope, h₃⟩ := run_bind.mp h₂
  obtain ⟨_, s₄, hopen, h₄⟩ := run_bind.mp h₃
  obtain ⟨hit, s₅, hcheck, h₅⟩ := run_bind.mp h₄
  obtain ⟨-, rfl⟩ := run_check.mp hcheck
  have hopen := run_expect hopen
  have hfirst : s₃.rest = s.rest :=
    (Quiet.rest hscope).trans ((Quiet.rest hbegin).trans (Quiet.rest hintern))
  cases hit with
  | true =>
    obtain ⟨body, s₅, hpass, hg, hrest, hrun⟩ := functionBody_reads hn h₅ hclean
    refine ⟨[], body, hg, ?_, run_then hintern (run_then hbegin (run_then hscope
      (run_then (run_then hopen.2 hpass.2) hrun)))⟩
    simp [← hfirst, hopen.1, nameTokens, hpass.1, hrest]
  | false =>
    obtain ⟨arity, s₅, hparams, h₆⟩ := run_bind.mp h₅
    obtain ⟨_, s₆, harity, h₇⟩ := run_bind.mp h₆
    obtain ⟨params, hne, hspelled, htranslate, rfl⟩ := parameters_reads hparams
    obtain ⟨body, s₇, hpass, hg, hrest, hrun⟩ := functionBody_reads hn h₇ hclean
    have hmid : s₆.rest = s₅.rest := Quiet.rest harity
    have hsignature : translateSignature params s₃ = .ok () s₇ := by
      refine run_then hopen.2 ?_
      rw [if_pos hne]
      exact run_then htranslate (run_then harity hpass.2)
    refine ⟨params, body, hg, ?_, run_then hintern (run_then hbegin (run_then hscope
      (run_then hsignature hrun)))⟩
    simp [← hfirst, hopen.1, hspelled, ← hmid, hpass.1, hrest]

/-- A function declaration is read back from what was gone past. -/
theorem functionDeclaration_reads (hkeyword : Passes (.keyword .def_) s₀ s)
    (h : functionDeclaration inner s = .ok () s') (hclean : s'.errors = #[]) :
    ∃ t, ReadStmt t s₀ s' := by
  obtain ⟨⟨name, k⟩, s₁, hname, h₁⟩ := run_bind.mp h
  obtain ⟨_, s₂, hmark, h₂⟩ := run_bind.mp h₁
  obtain ⟨_, s₃, hrest, hdefine⟩ := run_bind.mp h₂
  obtain ⟨hspelled, hbind⟩ := declareName_run hname
  obtain ⟨params, body, hg, hrest, hrun⟩ :=
    functionRest_reads hn hrest (clean_of_run hdefine hclean)
  have hmid : s₂.rest = s₁.rest := Quiet.rest hmark
  have hlast : s'.rest = s₃.rest := Quiet.rest hdefine
  refine ⟨.def_ ⟨name, params, body⟩, ⟨hg, ?_, ?_, fun h => by cases h⟩⟩
  · simp [Function.tokens, hkeyword.1, hspelled, ← hmid, hrest, hlast]
  · exact run_then hkeyword.2 (run_then hbind (run_then hmark (run_then hrun hdefine)))

/-! ### Classes -/

/-- From `s` to `s'` the compiler read and translated methods. -/
structure ReadMethods (fs : List Function) (s s' : State) : Prop where
  grammatical : Function.ListGrammatical fs
  rest : s.rest = Function.listTokens fs ++ s'.rest
  run : Function.listTranslate fs s = .ok () s'

/-- The methods of a class are read back, by induction on how many may follow. -/
theorem methods_reads {fuel : Nat} (h : methods inner fuel s = .ok () s')
    (hclean : s'.errors = #[]) : ∃ fs, ReadMethods fs s s' := by
  induction fuel generalizing s with
  | zero =>
    obtain ⟨-, rfl⟩ := run_pure.mp h
    exact ⟨[], trivial, rfl, rfl⟩
  | succ fuel ih =>
    obtain ⟨done, s₁, hlook, h₁⟩ := run_bind.mp h
    obtain ⟨-, rfl⟩ := run_look.mp hlook
    cases done with
    | true =>
      obtain ⟨-, rfl⟩ := run_pure.mp h₁
      exact ⟨[], trivial, rfl, rfl⟩
    | false =>
      obtain ⟨_, s₁, hfirst, hmore⟩ := run_bind.mp h₁
      obtain ⟨fs, hfs⟩ := ih hmore
      have hclean₁ : s₁.errors = #[] := clean_of_run hfs.run hclean
      obtain ⟨_, s₂, hdef, h₂⟩ := run_bind.mp hfirst
      obtain ⟨name, s₃, hname, h₃⟩ := run_bind.mp h₂
      obtain ⟨constant, s₄, hconstant, h₄⟩ := run_bind.mp h₃
      obtain ⟨_, s₅, hrest, hemit⟩ := run_bind.mp h₄
      have hdef := run_expectKeyword hdef
      have hname := run_expectName hname
      obtain ⟨params, body, hg, hrest, hrun⟩ :=
        functionRest_reads hn hrest (clean_of_run hemit hclean₁)
      have hmid : s₄.rest = s₃.rest := Quiet.rest hconstant
      have hlast : s₁.rest = s₅.rest := Quiet.rest hemit
      refine ⟨⟨name, params, body⟩ :: fs, ⟨hg, hfs.grammatical⟩, ?_, ?_⟩
      · simp [Function.listTokens, Function.tokens, hdef.1, hname.1, ← hmid, hrest, ← hlast,
          hfs.rest]
      · exact run_then hdef.2 (run_then hname.2 (run_then hconstant (run_then hrun
          (run_then hemit hfs.run))))

omit hn in
/-- The superclass is read back, and is another class. -/
theorem superclass_reads {name : String} (hcolon : Passes (.symbol .colon) s₀ s)
    (h : superclass inner name s = .ok () s') : ∃ parent,
      s₀.rest = .symbol .colon :: .name parent :: s'.rest ∧
      translateParent name (some parent) s₀ = .ok () s' := by
  obtain ⟨parent, s₁, hname, h₁⟩ := run_bind.mp h
  obtain ⟨_, s₂, hread, h₂⟩ := run_bind.mp h₁
  have hname := run_expectName hname
  rw [namedVariable_false] at hread
  split at h₂
  · obtain ⟨_, _, hfail, -⟩ := run_bind.mp h₂
    exact (run_failBefore.mp hfail).elim
  · obtain ⟨_, s₃, hscope, h₃⟩ := run_bind.mp h₂
    obtain ⟨_, s₄, hlocal, h₄⟩ := run_bind.mp h₃
    obtain ⟨_, s₅, hdefine, h₅⟩ := run_bind.mp h₄
    obtain ⟨_, s₆, hread', h₆⟩ := run_bind.mp h₅
    obtain ⟨_, s₇, hemit, hmodify⟩ := run_bind.mp h₆
    rw [namedVariable_false] at hread'
    have hlast : s'.rest = s₁.rest := (Quiet.rest hmodify).trans ((Quiet.rest hemit).trans
      ((Quiet.rest hread').trans ((Quiet.rest hdefine).trans ((Quiet.rest hlocal).trans
        ((Quiet.rest hscope).trans (Quiet.rest hread))))))
    refine ⟨parent, by rw [hcolon.1, hname.1, hlast], ?_⟩
    exact run_then hcolon.2 (run_then hname.2 (run_then hread (run_then hscope (run_then hlocal
      (run_then hdefine (run_then hread' (run_then hemit hmodify)))))))

/-- A class after its superclass. -/
theorem classBody_reads {name : String} (h : (do
      namedVariable inner.expression name false
      expect .leftBrace .classOpen
      let left ← look State.remaining
      methods inner left
      expect .rightBrace .classClose
      emit .pop
      let hasSuperclass ← look fun s => s.classes.head?.getD false
      modify fun s => { s with classes := s.classes.tail }
      if hasSuperclass then endScope : Compiler Unit) s = .ok () s') (hclean : s'.errors = #[]) :
    ∃ fs, Function.ListGrammatical fs ∧
      s.rest = .symbol .leftBrace :: Function.listTokens fs ++ .symbol .rightBrace :: s'.rest ∧
      (do
        readVariable name
        advance
        Function.listTranslate fs
        advance
        emit .pop
        let hasSuperclass ← look fun s => s.classes.head?.getD false
        modify fun s => { s with classes := s.classes.tail }
        if hasSuperclass then endScope : Compiler Unit) s = .ok () s' := by
  obtain ⟨_, s₁, hread, h₁⟩ := run_bind.mp h
  obtain ⟨_, s₂, hopen, h₂⟩ := run_bind.mp h₁
  obtain ⟨left, s₃, hlook, h₃⟩ := run_bind.mp h₂
  obtain ⟨_, s₄, hmethods, h₄⟩ := run_bind.mp h₃
  obtain ⟨_, s₅, hclose, hend⟩ := run_bind.mp h₄
  obtain ⟨-, rfl⟩ := run_look.mp hlook
  rw [namedVariable_false] at hread
  obtain ⟨fs, hfs⟩ := methods_reads hn hmethods (clean_of_run h₄ hclean)
  have hopen := run_expect hopen
  have hclose := run_expect hclose
  have hfirst : s₁.rest = s.rest := Quiet.rest hread
  have hlast : s'.rest = s₅.rest := Quiet.rest hend
  refine ⟨fs, hfs.grammatical, ?_, ?_⟩
  · simp [← hfirst, hopen.1, hfs.rest, hclose.1, hlast]
  · exact run_then hread (run_then hopen.2 (run_then hfs.run (run_then hclose.2 hend)))

/-- A class declaration is read back from what was gone past. -/
theorem class_reads (hkeyword : Passes (.keyword .class_) s₀ s)
    (h : classDeclaration inner s = .ok () s') (hclean : s'.errors = #[]) :
    ∃ t, ReadStmt t s₀ s' := by
  obtain ⟨name, s₁, hname, h₁⟩ := run_bind.mp h
  obtain ⟨constant, s₂, hconstant, h₂⟩ := run_bind.mp h₁
  obtain ⟨_, s₃, hdeclare, h₃⟩ := run_bind.mp h₂
  obtain ⟨_, s₄, hclass, h₄⟩ := run_bind.mp h₃
  obtain ⟨_, s₅, hdefine, h₅⟩ := run_bind.mp h₄
  obtain ⟨_, s₆, henter, h₆⟩ := run_bind.mp h₅
  obtain ⟨hit, s₇, hcolon, h₇⟩ := run_bind.mp h₆
  have hname := run_expectName hname
  have hfirst : s₆.rest = s₁.rest := (Quiet.rest henter).trans ((Quiet.rest hdefine).trans
    ((Quiet.rest hclass).trans ((Quiet.rest hdeclare).trans (Quiet.rest hconstant))))
  rcases run_accept hcolon with ⟨rfl, hpass⟩ | ⟨rfl, -, rfl⟩
  · obtain ⟨_, s₈, hparent, h₈⟩ := run_bind.mp h₇
    obtain ⟨parent, hspelled, htranslate⟩ := superclass_reads hpass hparent
    obtain ⟨fs, hg, hrest, hrun⟩ := classBody_reads hn h₈ hclean
    refine ⟨.class_ name (some parent) fs, ⟨hg, ?_, ?_, fun h => by cases h⟩⟩
    · simp [hkeyword.1, hname.1, ← hfirst, hspelled, hrest]
    · exact run_then hkeyword.2 (run_then hname.2 (run_then hconstant (run_then hdeclare
        (run_then hclass (run_then hdefine (run_then henter (run_then htranslate hrun)))))))
  · obtain ⟨fs, hg, hrest, hrun⟩ := classBody_reads hn h₇ hclean
    refine ⟨.class_ name none fs, ⟨hg, ?_, ?_, fun h => by cases h⟩⟩
    · simp [hkeyword.1, hname.1, ← hfirst, hrest]
    · exact run_then hkeyword.2 (run_then hname.2 (run_then hconstant (run_then hdeclare
        (run_then hclass (run_then hdefine (run_then henter
          (run_then (run_pure.mpr ⟨rfl, rfl⟩) hrun)))))))

/-! ### All statements -/

/-- A statement is read back, by what it starts with. -/
theorem statementBody_reads : ReadsStatement (statementBody inner) := by
  intro s s' h hclean
  obtain ⟨t, s₁, hlook, h₁⟩ := run_bind.mp h
  obtain ⟨ht, rfl⟩ := run_look.mp hlook
  split at h₁
  · obtain ⟨_, s₁, hpass, hform⟩ := run_seqRight.mp h₁
    exact print_reads hn (passes_of_advance hpass ht) hform
  · obtain ⟨_, s₁, hpass, hform⟩ := run_seqRight.mp h₁
    exact if_reads hn (passes_of_advance hpass ht) hform hclean
  · obtain ⟨_, s₁, hpass, hform⟩ := run_seqRight.mp h₁
    exact while_reads hn (passes_of_advance hpass ht) hform hclean
  · obtain ⟨_, s₁, hpass, hform⟩ := run_seqRight.mp h₁
    exact doWhile_reads hn (passes_of_advance hpass ht) hform hclean
  · obtain ⟨_, s₁, hpass, hform⟩ := run_seqRight.mp h₁
    exact for_reads hn (passes_of_advance hpass ht) hform hclean
  · obtain ⟨_, s₁, hpass, hform⟩ := run_seqRight.mp h₁
    exact return_reads hn (passes_of_advance hpass ht) hform
  · obtain ⟨_, s₁, hpass, hform⟩ := run_seqRight.mp h₁
    exact blockStatement_reads hn (passes_of_advance hpass ht) hform hclean
  · obtain ⟨t, ht, -, hstatement⟩ := expressionStatement_reads hn h₁
    exact ⟨t, ht, hstatement⟩

/-- A declaration or a statement is read back, by what it starts with. -/
theorem declarationBody_reads : ReadsDeclaration (declarationBody inner) := by
  intro s s' h hclean
  obtain ⟨hit, s₁, hclass, h₁⟩ := run_bind.mp h
  rcases run_acceptKeyword hclass with ⟨rfl, hpass⟩ | ⟨rfl, -, rfl⟩
  · exact class_reads hn hpass h₁ hclean
  · obtain ⟨hit, s₂, hdef, h₂⟩ := run_bind.mp h₁
    rcases run_acceptKeyword hdef with ⟨rfl, hpass⟩ | ⟨rfl, -, rfl⟩
    · exact functionDeclaration_reads hn hpass h₂ hclean
    · obtain ⟨hit, s₃, hlet, h₃⟩ := run_bind.mp h₂
      rcases run_acceptKeyword hlet with ⟨rfl, hpass⟩ | ⟨rfl, -, rfl⟩
      · obtain ⟨t, ht, -⟩ := let_reads hn hpass h₃
        exact ⟨t, ht⟩
      · obtain ⟨t, ht, -⟩ := hn.statement _ s' h₃ hclean
        exact ⟨t, ht⟩

end Forms

end ScriptMachine.Compile

namespace ScriptMachine

/-- Every statement has a token. -/
theorem Stmt.tokens_ne_nil (t : Stmt) : t.tokens ≠ [] := by
  cases t with
  | let_ _ init => cases init <;> simp [Stmt.tokens]
  | class_ _ parent => cases parent <;> simp [Stmt.tokens]
  | if_ _ _ otherwise => cases otherwise <;> simp [Stmt.tokens]
  | for_ init => cases init <;> simp [Stmt.tokens]
  | _ => simp [Stmt.tokens]

namespace Compile

variable {s s' : State}

/-- An error that was recovered from is reported, or there were too many before. -/
theorem State.recover_errors {e : CompileError} {back : Checkpoint} :
    (s.recover e back).errors ≠ #[] := by
  have hreport : (s.report e).errors ≠ #[] := by
    unfold report
    dsimp only
    split
    · simp
    · next hfull =>
      intro hnil
      have hnil : s.errors = #[] := hnil
      simp [hnil, maxErrors] at hfull
  have hkeep (t : State) (n : Nat) : (t.keepDrafts n).errors = t.errors := by
    unfold keepDrafts
    split <;> rfl
  show ((s.report e).keepDrafts back.depth).errors ≠ #[]
  rwa [hkeep]

/-- Without an error nothing was recovered from. -/
theorem recovering_reads {body : Compiler Unit} (hb : ReadsDeclaration body) :
    ReadsDeclaration (recovering body) := by
  intro s s' h hclean
  unfold recovering at h
  dsimp only at h
  split at h
  · next hbody =>
    obtain rfl := (EStateM.Result.ok.inj h).2
    exact hb _ _ hbody hclean
  · obtain rfl := (EStateM.Result.ok.inj h).2
    exact absurd hclean State.recover_errors
  · cases h

/-- An expression one level deeper is read as one. -/
theorem nested_readsExpr {p : Precedence} {x : Compiler Unit} (hx : ReadsExpr p x) :
    ReadsExpr p (nested x) := by
  intro s s' h
  obtain ⟨-, s₁, hr, rfl⟩ := nested_ok_iff.mp h
  obtain ⟨e, he, hp, hstops⟩ := hx _ _ hr
  exact ⟨e, ⟨he.grammatical, he.rest, run_shallower he.run, he.loose, he.method⟩, hp, hstops⟩

/-- A tree read one level deeper is read on the level around. -/
theorem ReadStmt.shallower {t : Stmt} (h : ReadStmt t s.deeper s') : ReadStmt t s s'.shallower :=
  ⟨h.grammatical, h.rest, run_shallower h.run, h.closed⟩

/-- Counting a level reads nothing, around a statement. -/
theorem nested_readsStatement {x : Compiler Unit} (hx : ReadsStatement x) :
    ReadsStatement (nested x) := by
  intro s s' h hclean
  obtain ⟨-, s₁, hr, rfl⟩ := nested_ok_iff.mp h
  obtain ⟨t, ht, hdeclares⟩ := hx _ _ hr hclean
  exact ⟨t, ht.shallower, hdeclares⟩

/-- Counting a level reads nothing, around a declaration. -/
theorem nested_readsDeclaration {x : Compiler Unit} (hx : ReadsDeclaration x) :
    ReadsDeclaration (nested x) := by
  intro s s' h hclean
  obtain ⟨-, s₁, hr, rfl⟩ := nested_ok_iff.mp h
  obtain ⟨t, ht⟩ := hx _ _ hr hclean
  exact ⟨t, ht.shallower⟩

/-- By induction on the room to nest, what is nested is read back. -/
theorem readsInner_parsers (room : Nat) : ReadsInner (parsers room) := by
  induction room with
  | zero =>
    refine ⟨fun p _ s s' h => (run_failHere.mp h).elim, fun s s' h _ => (run_failHere.mp h).elim,
      recovering_reads fun s s' h _ => (run_failHere.mp h).elim⟩
  | succ room ih =>
    exact ⟨fun p hp => nested_readsExpr (expressionBody_reads ih.expression p hp),
      nested_readsStatement (statementBody_reads ih),
      recovering_reads (nested_readsDeclaration (declarationBody_reads ih))⟩

/-- A program that compiles without an error had none on the way. -/
theorem clean_program {declaration : Compiler Unit} [Clean declaration] (fuel : Nat) :
    Clean (program declaration fuel) := by
  induction fuel with
  | zero => exact inferInstanceAs (Clean (pure ()))
  | succ fuel ih =>
    unfold program
    infer_instance

/-- Every declaration takes a token, so the tokens left bound their number. -/
theorem program_reads {declaration : Compiler Unit} (hd : ReadsDeclaration declaration)
    {fuel : Nat} (h : program declaration fuel s = .ok () s') (hclean : s'.errors = #[])
    (hfuel : s.rest.length ≤ fuel) : ∃ body, ReadStmts body s s' ∧ s'.rest = [] := by
  induction fuel generalizing s with
  | zero =>
    obtain ⟨-, rfl⟩ := run_pure.mp h
    exact ⟨[], ⟨trivial, rfl, rfl⟩, List.eq_nil_of_length_eq_zero (Nat.le_zero.mp hfuel)⟩
  | succ fuel ih =>
    obtain ⟨done, s₁, hlook, h₁⟩ := run_bind.mp h
    obtain ⟨hdone, rfl⟩ := run_look.mp hlook
    cases done with
    | true =>
      obtain ⟨-, rfl⟩ := run_pure.mp h₁
      refine ⟨[], ⟨trivial, rfl, rfl⟩, State.atEnd_iff.mp ?_⟩
      simpa [hclean, maxErrors] using hdone
    | false =>
      obtain ⟨_, s₁, hfirst, hmore⟩ := run_bind.mp h₁
      have := hd.clean
      have := @clean_program declaration _ fuel
      obtain ⟨t, ht⟩ := hd s s₁ hfirst (clean_of_run hmore hclean)
      have hshorter : s₁.rest.length ≤ fuel := by
        have hlength := congrArg List.length ht.rest
        have hpos := List.length_pos_iff.mpr t.tokens_ne_nil
        rw [List.length_append] at hlength
        omega
      obtain ⟨body, hbody, hnil⟩ := ih hmore hshorter
      refine ⟨t :: body, ⟨⟨ht.grammatical, hbody.grammatical⟩, ?_, ?_⟩, hnil⟩
      · simp [Stmt.listTokens, ht.rest, hbody.rest]
      · exact run_then ht.run hbody.run

/-- The tokens of a source. -/
def sourceTokens (source : String) : List Token :=
  (Token.read source).tokens.toList.map Lexeme.token

/-- The compiler starts in front of all tokens of the source. -/
theorem rest_start (source : String) (heap : Heap) (outer : List Handle) :
    (State.start source heap outer).rest = sourceTokens source := by
  simp [State.rest, State.start, sourceTokens]

/-- A source that compiles is spelled by a grammatical program, and its function is what the
program is translated to. -/
theorem compile_reads {source : String} {heap h : Heap} {outer : List Handle} {r : Handle}
    (hdone : compile source heap outer = (.function r, h)) :
    ∃ body s, Spells body (sourceTokens source) ∧
      translateProgram body (State.start source heap outer) = .ok r s ∧
      s.heap = h ∧ s.errors = #[] := by
  unfold compile at hdone
  split at hdone
  · next r' s hscript =>
    obtain ⟨hr, rfl⟩ := Prod.mk.inj hdone
    obtain rfl := Result.function.inj hr
    obtain ⟨left, s₁, hlook, h₁⟩ := run_bind.mp hscript
    obtain ⟨_, s₂, hprogram, h₂⟩ := run_bind.mp h₁
    obtain ⟨_, s₃, hreturn, h₃⟩ := run_bind.mp h₂
    obtain ⟨clean, s₄, hlook', h₄⟩ := run_bind.mp h₃
    obtain ⟨rfl, rfl⟩ := run_look.mp hlook
    obtain ⟨hclean, rfl⟩ := run_look.mp hlook'
    cases clean with
    | false => cases (run_pure.mp h₄).1
    | true =>
      obtain ⟨⟨function, captures⟩, s₄, hfinish, h₅⟩ := run_bind.mp h₄
      obtain ⟨heq, rfl⟩ := run_pure.mp h₅
      obtain rfl := Option.some.inj heq
      have hclean : s₃.errors = #[] := Array.isEmpty_iff.mp hclean
      obtain ⟨body, hbody, hnil⟩ := program_reads (readsInner_parsers (maxNesting + 1)).declaration
        hprogram (clean_of_run hreturn hclean) (Nat.le_of_eq (State.remaining_eq _).symm)
      have herrors : s₄.errors = s₃.errors := (Quiet.still _ _ _ hfinish).errors
      refine ⟨body, s₄, ⟨?_, hbody.grammatical⟩, ?_, rfl, herrors.trans hclean⟩
      · rw [← rest_start source heap outer, hbody.rest, hnil, List.append_nil]
      · exact run_then hbody.run (run_then hreturn (run_then hfinish (run_pure.mpr ⟨rfl, rfl⟩)))
  all_goals cases (Prod.mk.inj hdone).1

/-! ### What compiling answers -/

/-- The function that a source was compiled to. -/
def Result.function? : Result → Option Handle
  | .function r => some r
  | _ => none

/-- The errors that a source was refused with. -/
def Result.errors? : Result → Option (List CompileError)
  | .errors es => some es
  | _ => none

/-- A function that was compiled is the result. -/
theorem Result.function?_eq_some {result : Result} {r : Handle} (h : result.function? = some r) :
    result = .function r := by
  cases result <;> simp_all [function?]

/-- The errors a source was refused with are the result. -/
theorem Result.errors?_eq_some {result : Result} {es : List CompileError}
    (h : result.errors? = some es) : result = .errors es := by
  cases result <;> simp_all [errors?]

end Compile

end ScriptMachine
