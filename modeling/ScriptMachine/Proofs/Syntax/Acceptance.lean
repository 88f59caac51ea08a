import ScriptMachine.Proofs.Syntax.Accepting

/-!
# Accepting programs

What a grammatical program spells, the compiler goes past, unless a problem beyond the syntax stops
it. An `else` is found by the nearest `if`, because no statement that would take it stands before
it.
-/

namespace ScriptMachine

open Compile

/-! ### How statements start -/

/-- Whether a token can be the first one of a statement or a declaration. -/
def Token.startsStmt (t : Token) : Bool :=
  startsStatement t || t.isSymbol .leftBrace || t.startsExpr

/-- What starts an expression starts a statement. -/
theorem Token.startsStmt_of_startsExpr {t : Token} (h : t.startsExpr = true) :
    t.startsStmt = true := by
  rw [startsStmt, h, Bool.or_true]

/-- The first token of a statement. -/
theorem Stmt.exists_start (t : Stmt) : ∃ u us, t.tokens = u :: us ∧ u.startsStmt = true := by
  cases t with
  | expression e =>
    obtain ⟨u, us, htokens, hstarts⟩ := e.exists_start
    exact ⟨u, _, by rw [tokens, htokens]; rfl, Token.startsStmt_of_startsExpr hstarts⟩
  | let_ _ init => cases init <;> exact ⟨_, _, rfl, rfl⟩
  | class_ _ parent => cases parent <;> exact ⟨_, _, rfl, rfl⟩
  | if_ _ _ otherwise => cases otherwise <;> exact ⟨_, _, rfl, rfl⟩
  | for_ init => cases init <;> exact ⟨_, _, rfl, rfl⟩
  | _ => exact ⟨_, _, rfl, rfl⟩

/-- No statement starts with a token that starts none. -/
theorem Stmt.head_ne {t : Stmt} {u : Token} {ts : List Token} (hu : u.startsStmt = false) :
    (t.tokens ++ ts).head? ≠ some u := by
  obtain ⟨v, us, htokens, hstarts⟩ := t.exists_start
  rw [htokens]
  rintro heq
  obtain rfl : v = u := Option.some.inj heq
  cases hu.symm.trans hstarts

namespace Compile

variable {s s' : State} {ts us vs : List Token} {inner : Parsers}

/-- Where a statement takes an `else`, none follows. -/
def Unclaimed (t : Stmt) (ts : List Token) : Prop :=
  t.isOpen = true → ts.head? ≠ some (.keyword .else_)

/-- The parsers of what is nested go past it. -/
structure AcceptsInner (inner : Parsers) : Prop where
  expression : AcceptsNested inner.expression
  statement : ∀ t : Stmt, t.Grammatical → t.declares = false → ∀ ts, Unclaimed t ts →
    Leads (t.tokens ++ ts) inner.statement ts
  declaration : ∀ t : Stmt, t.Grammatical → ∀ ts, Unclaimed t ts →
    Leads (t.tokens ++ ts) inner.declaration ts

/-! ### Blocks -/

/-- A token that starts no statement is not the first of statements. -/
theorem head_listTokens_ne {body : List Stmt} {u : Token} (hu : u.startsStmt = false)
    (hts : ts.head? ≠ some u) : (Stmt.listTokens body ++ ts).head? ≠ some u := by
  cases body with
  | nil => exact hts
  | cons t body =>
    rw [Stmt.listTokens, List.append_assoc]
    exact Stmt.head_ne hu

/-- An expression is gone past. -/
theorem expression_leads (hn : AcceptsInner inner) {e : Expr} (he : e.Grammatical)
    (hf : Follows .assignment ts) : Leads (e.tokens ++ ts) (expression inner) ts :=
  nestedExpression_leads hn.expression he hf

/-- The rest of a print statement is gone past. -/
theorem print_leads (hn : AcceptsInner inner) {e : Expr} (he : e.Grammatical) :
    Leads (e.tokens ++ .symbol .semicolon :: ts) (printStatement inner) ts :=
  (expression_leads hn he follows_semicolon).bind fun _ => yields_expect.bind (leads_quiet _)

/-- An expression statement is gone past. -/
theorem expressionStatement_leads (hn : AcceptsInner inner) {e : Expr} (he : e.Grammatical) :
    Leads (e.tokens ++ .symbol .semicolon :: ts) (expressionStatement inner) ts :=
  (expression_leads hn he follows_semicolon).bind fun _ => yields_expect.bind (leads_quiet _)

/-- A condition is gone past with its parentheses. -/
theorem condition_leads (hn : AcceptsInner inner) {e : Expr} (he : e.Grammatical)
    {open_ : Expectation} : Leads (.symbol .leftParen :: (e.tokens ++ .symbol .rightParen :: ts))
      (condition inner open_) ts :=
  yields_expect.bind ((expression_leads hn he follows_rightParen).bind fun _ => yields_expect.leads)

/-- The condition of a counting loop is gone past, if there is one, and its semicolon. -/
theorem forCondition_leads (hn : AcceptsInner inner) {test : Option Expr}
    (htest : Expr.OptionGrammatical test) :
    Leads (Expr.optionTokens test ++ .symbol .semicolon :: ts) (forCondition inner) ts := by
  cases test with
  | none => exact yields_accept.bind (leads_pure _)
  | some test =>
    exact (yields_accept_miss (Expr.head_ne rfl)).bind
      ((expression_leads hn htest follows_semicolon).bind fun _ => yields_expect.bind
        (Leads.quietly fun _ => Leads.quietly fun _ => leads_pure _))

/-- The step of a counting loop is gone past, if there is one, and its parenthesis. -/
theorem forStep_leads (hn : AcceptsInner inner) {step : Option Expr}
    (hstep : Expr.OptionGrammatical step) {start : Nat} :
    Leads (Expr.optionTokens step ++ .symbol .rightParen :: ts) (forStep inner start) ts := by
  cases step with
  | none => exact yields_accept.bind (leads_pure _)
  | some step =>
    exact (yields_accept_miss (Expr.head_ne rfl)).bind (Leads.quietly fun _ =>
      Leads.quietly fun _ => (expression_leads hn hstep follows_rightParen).bind fun _ =>
        Leads.quietly fun _ => yields_expect.bind (Leads.quietly fun _ => Leads.quietly fun _ =>
          leads_pure _))

variable [inner.Grow]

/-- Declarations up to the end of a block: each takes a token. -/
theorem declarations_leads (hn : AcceptsInner inner) {body : List Stmt}
    (hbody : Stmt.ListGrammatical body) {fuel : Nat}
    (hfuel : (Stmt.listTokens body).length ≤ fuel) :
    Leads (Stmt.listTokens body ++ .symbol .rightBrace :: ts) (declarations inner fuel)
      (.symbol .rightBrace :: ts) := by
  have hlook (us : List Token) : Yields us
      (look fun s => s.peek?.any (·.isSymbol .rightBrace) || s.atEnd || maxErrors ≤ s.errors.size)
      (us.head?.any (·.isSymbol .rightBrace) || us.isEmpty) us := yields_look fun s hs => by
    rw [hs.peek?, hs.atEnd, hs.errors]
    simp [maxErrors]
  induction body generalizing fuel with
  | nil =>
    cases fuel with
    | zero => exact leads_pure ()
    | succ fuel => exact (hlook _).bind (leads_pure ())
  | cons t body ih =>
    obtain ⟨u, us, htokens, hstarts⟩ := t.exists_start
    obtain ⟨ht, hbody⟩ := hbody
    cases fuel with
    | zero => simp [Stmt.listTokens, htokens] at hfuel
    | succ fuel =>
      have hnot : ((Stmt.listTokens (t :: body) ++ .symbol .rightBrace :: ts).head?.any
          (·.isSymbol .rightBrace) || (Stmt.listTokens (t :: body) ++
          .symbol .rightBrace :: ts).isEmpty) = false := by
        rw [Stmt.listTokens, List.append_assoc, any_isSymbol_false (Stmt.head_ne rfl), htokens]
        rfl
      refine (hlook _).bind ?_
      rw [hnot, Stmt.listTokens, List.append_assoc]
      refine (hn.declaration t ht _ fun _ => head_listTokens_ne rfl (by simp)).bind fun _ =>
        ih hbody ?_
      simp only [Stmt.listTokens, htokens, List.length_append, List.length_cons] at hfuel
      omega

/-- The statements of a block are gone past with the brace that closes it. -/
theorem block_leads (hn : AcceptsInner inner) {body : List Stmt}
    (hbody : Stmt.ListGrammatical body) :
    Leads (Stmt.listTokens body ++ .symbol .rightBrace :: ts) (block inner) ts := by
  refine yields_remaining.bind ((declarations_leads hn hbody ?_).bind fun _ => yields_expect.leads)
  rw [List.length_append]
  exact Nat.le_add_right _ _

/-! ### Functions and classes -/

/-- A name that is declared is gone past. -/
theorem declareName_leads {name : String} {what : Expectation} :
    Leads (.name name :: ts) (declareName what) ts :=
  yields_expectName.bind (leads_quiet _)

/-- Parameters are gone past, by induction on them. -/
theorem parameters_leads {params : List String} (hne : params ≠ []) {room : Nat} :
    Leads (nameTokens params ++ .symbol .rightParen :: ts) (parameters room)
      (.symbol .rightParen :: ts) := by
  induction params generalizing room with
  | nil => exact absurd rfl hne
  | cons name params ih =>
    cases room with
    | zero => exact leads_failHere
    | succ room =>
      unfold parameters
      cases params with
      | nil =>
        exact declareName_leads.bind fun _ => Leads.quietly fun _ =>
          (yields_accept_miss (by simp)).bind (leads_pure _)
      | cons name' params =>
        exact declareName_leads.bind fun _ => Leads.quietly fun _ =>
          yields_accept.bind ((ih (by simp)).bind fun _ => leads_pure _)

/-- A function after its parameters. -/
def functionBody (inner : Parsers) : Compiler Unit := do
  expect .rightParen .parametersClose
  expect .leftBrace .bodyOpen
  block inner
  emitReturn
  let (function, captures) ← finishFunction
  let constant ← makeConstant (.ofHandle function)
  emitClosure constant captures

instance : Grows (functionBody inner) := by
  unfold functionBody
  repeat refine @Grows.bind _ _ _ _ inferInstance fun _ => ?_
  infer_instance

/-- A function is gone past from the end of its parameters. -/
theorem functionBody_leads (hn : AcceptsInner inner) {body : List Stmt}
    (hbody : Stmt.ListGrammatical body) :
    Leads (.symbol .rightParen :: .symbol .leftBrace :: (Stmt.listTokens body ++
      .symbol .rightBrace :: ts)) (functionBody inner) ts :=
  yields_expect.bind (yields_expect.bind ((block_leads hn hbody).bind fun _ => leads_quiet _))

/-- A function is gone past from its parameters on. -/
theorem functionRest_leads (hn : AcceptsInner inner) {kind : FunctionKind} {name : String}
    {params : List String} {body : List Stmt} (hbody : Stmt.ListGrammatical body) :
    Leads (.symbol .leftParen :: (nameTokens params ++ .symbol .rightParen :: .symbol .leftBrace ::
      (Stmt.listTokens body ++ .symbol .rightBrace :: ts))) (functionRest inner kind name) ts := by
  refine Leads.quietly fun _ => Leads.quietly fun _ => Leads.quietly fun _ => yields_expect.bind ?_
  by_cases hparams : params = []
  · subst hparams
    exact yields_check.bind (functionBody_leads hn hbody)
  · have hhead : (nameTokens params ++ .symbol .rightParen :: .symbol .leftBrace ::
        (Stmt.listTokens body ++ .symbol .rightBrace :: ts)).head? ≠
        some (.symbol .rightParen) := by
      cases params with
      | nil => exact absurd rfl hparams
      | cons name params => cases params <;> simp [nameTokens]
    refine (yields_check_miss hhead).bind ?_
    show Leads _ (parameters 255 >>= fun arity => do
        modifyDraft fun d => { d with arity := arity.toUInt8 }
        functionBody inner) ts
    exact (parameters_leads hparams).bind fun _ => Leads.quietly fun _ =>
      functionBody_leads hn hbody

/-- A function declaration is gone past from its name on. -/
theorem functionDeclaration_leads (hn : AcceptsInner inner) {f : Function} (hf : f.Grammatical) :
    Leads (f.tokens ++ ts) (functionDeclaration inner) ts := by
  obtain ⟨name, params, body⟩ := f
  have hleads : Leads (.name name :: .symbol .leftParen :: (nameTokens params ++
      .symbol .rightParen :: .symbol .leftBrace :: (Stmt.listTokens body ++ .symbol .rightBrace ::
        ts))) (functionDeclaration inner) ts :=
    declareName_leads.bind fun _ => Leads.quietly fun _ =>
      (functionRest_leads hn hf).bind fun _ => leads_quiet _
  simpa [Function.tokens] using hleads

/-- A method is gone past with its reserved word. -/
theorem method_leads (hn : AcceptsInner inner) {f : Function} (hf : f.Grammatical) :
    Leads (.keyword .def_ :: (f.tokens ++ ts)) (method inner) ts := by
  obtain ⟨name, params, body⟩ := f
  have hleads : Leads (.keyword .def_ :: .name name :: .symbol .leftParen :: (nameTokens params ++
      .symbol .rightParen :: .symbol .leftBrace :: (Stmt.listTokens body ++ .symbol .rightBrace ::
        ts))) (method inner) ts :=
    yields_expectKeyword.bind (yields_expectName.bind (Leads.quietly fun _ =>
      (functionRest_leads hn hf).bind fun _ => leads_quiet _))
  simpa [Function.tokens] using hleads

/-- Methods are gone past, by induction on them: their tokens are rounds enough. -/
theorem methods_leads (hn : AcceptsInner inner) {fs : List Function}
    (hfs : Function.ListGrammatical fs) {fuel : Nat}
    (hfuel : (Function.listTokens fs).length ≤ fuel) :
    Leads (Function.listTokens fs ++ .symbol .rightBrace :: ts) (methods inner fuel)
      (.symbol .rightBrace :: ts) := by
  have hlook (us : List Token) : Yields us
      (look fun s => s.peek?.any (·.isSymbol .rightBrace) || s.atEnd)
      (us.head?.any (·.isSymbol .rightBrace) || us.isEmpty) us := yields_look fun s hs => by
    rw [hs.peek?, hs.atEnd]
  induction fs generalizing fuel with
  | nil =>
    cases fuel with
    | zero => exact leads_pure ()
    | succ fuel => exact (hlook _).bind (leads_pure ())
  | cons f fs ih =>
    obtain ⟨hf, hfs⟩ := hfs
    cases fuel with
    | zero => simp [Function.listTokens] at hfuel
    | succ fuel =>
      refine (hlook _).bind ?_
      simp only [Function.listTokens, List.cons_append, List.append_assoc]
      refine (method_leads hn hf).bind fun _ => ih hfs ?_
      simp only [Function.listTokens, List.cons_append, List.length_cons,
        List.length_append] at hfuel
      omega

/-- A superclass that is another class. -/
def superclassBody (inner : Parsers) (className : String) : Compiler Unit := do
  beginScope
  addLocal "super" Source.Span.none
  defineVariable 0
  namedVariable inner.expression className false
  emit .inherit
  modify fun s => { s with classes := true :: s.classes.tail }

instance {name : String} : Grows (superclassBody inner name) := by
  unfold superclassBody
  repeat refine @Grows.bind _ _ _ _ inferInstance fun _ => ?_
  infer_instance

omit [inner.Grow] in
/-- What a superclass is made of is no token. -/
theorem superclassBody_leads {name : String} : Leads ts (superclassBody inner name) ts :=
  Leads.quietly fun _ => Leads.quietly fun _ => Leads.quietly fun _ =>
    Leads.quietly fun _ => leads_quiet _

/-- A superclass is a variable that is read, and another class. -/
theorem superclass_eq (inner : Parsers) (name : String) : superclass inner name = (do
    let parent ← expectName .superclassName
    namedVariable inner.expression parent false
    if parent = name then failBefore .inheritFromSelf
    superclassBody inner name) := rfl

/-- The name of a superclass is gone past. -/
theorem superclass_leads {name parent : String} :
    Leads (.name parent :: ts) (superclass inner name) ts := by
  rw [superclass_eq]
  refine yields_expectName.bind ?_
  by_cases hsame : parent = name
  · simp only [if_pos hsame]
    exact Leads.quietly fun _ => leads_failBefore.bind fun _ => superclassBody_leads
  · simp only [if_neg hsame]
    exact Leads.quietly fun _ => superclassBody_leads

/-- A class after its superclass. -/
def classRest (inner : Parsers) (name : String) : Compiler Unit := do
  namedVariable inner.expression name false
  expect .leftBrace .classOpen
  let left ← look State.remaining
  methods inner left
  expect .rightBrace .classClose
  emit .pop
  let hasSuperclass ← look fun s => s.classes.head?.getD false
  modify fun s => { s with classes := s.classes.tail }
  if hasSuperclass then endScope

instance {name : String} : Grows (classRest inner name) := by
  unfold classRest
  repeat refine @Grows.bind _ _ _ _ inferInstance fun _ => ?_
  infer_instance

/-- A class is gone past from its opening brace on. -/
theorem classRest_leads (hn : AcceptsInner inner) {name : String} {fs : List Function}
    (hfs : Function.ListGrammatical fs) :
    Leads (.symbol .leftBrace :: (Function.listTokens fs ++ .symbol .rightBrace :: ts))
      (classRest inner name) ts := by
  refine Leads.quietly fun _ => yields_expect.bind (yields_remaining.bind ?_)
  refine (methods_leads hn hfs ?_).bind fun _ => yields_expect.bind (leads_quiet _)
  rw [List.length_append]
  exact Nat.le_add_right _ _

/-- A class declaration is gone past from its name on. -/
theorem classDeclaration_leads (hn : AcceptsInner inner) {name : String} {parent : Option String}
    {fs : List Function} (hfs : Function.ListGrammatical fs) :
    Leads ((Stmt.class_ name parent fs).tokens.tail ++ ts) (classDeclaration inner) ts := by
  have hnone : Leads (.name name :: .symbol .leftBrace :: (Function.listTokens fs ++
      .symbol .rightBrace :: ts)) (classDeclaration inner) ts :=
    yields_expectName.bind (Leads.quietly fun _ => Leads.quietly fun _ => Leads.quietly fun _ =>
      Leads.quietly fun _ => Leads.quietly fun _ => (yields_accept_miss (by simp)).bind
        (classRest_leads hn hfs))
  have hsome (parent : String) : Leads (.name name :: .symbol .colon :: .name parent ::
      .symbol .leftBrace :: (Function.listTokens fs ++ .symbol .rightBrace :: ts))
      (classDeclaration inner) ts := by
    refine yields_expectName.bind (Leads.quietly fun _ => Leads.quietly fun _ => Leads.quietly fun _ =>
      Leads.quietly fun _ => Leads.quietly fun _ => yields_accept.bind ?_)
    show Leads _ (superclass inner name >>= fun _ => classRest inner name) ts
    exact superclass_leads.bind fun _ => classRest_leads hn hfs
  cases parent with
  | none => simpa [Stmt.tokens] using hnone
  | some parent => simpa [Stmt.tokens] using hsome parent

/-! ### Simple statements -/

/-- A variable declaration is gone past from its name on. -/
theorem letDeclaration_leads (hn : AcceptsInner inner) {name : String} {init : Option Expr}
    (hinit : Expr.OptionGrammatical init) :
    Leads ((Stmt.let_ name init).tokens.tail ++ ts) (letDeclaration inner) ts := by
  cases init with
  | none =>
    exact declareName_leads.bind fun _ => (yields_accept_miss (by simp)).bind
      (Leads.quietly fun _ => yields_expect.bind (leads_quiet _))
  | some e =>
    have hleads : Leads (.name name :: .symbol .assign :: (e.tokens ++ .symbol .semicolon :: ts))
        (letDeclaration inner) ts :=
      declareName_leads.bind fun _ => yields_accept.bind
        ((expression_leads hn hinit follows_semicolon).bind fun _ =>
          yields_expect.bind (leads_quiet _))
    simpa [Stmt.tokens] using hleads

/-- What a return statement answers with. -/
def returnValue (inner : Parsers) (kind : FunctionKind) : Compiler Unit := do
  if ← accept .semicolon then emitReturn
  else
    expression inner
    expect .semicolon .returnEnd
    if kind = .initializer then
      emit .pop
      emitReturn
    else emit .return_

instance {kind : FunctionKind} : Grows (returnValue inner kind) := by
  unfold returnValue
  infer_instance

omit [inner.Grow] in
/-- What is returned, if anything, is gone past with its semicolon. -/
theorem returnValue_leads (hn : AcceptsInner inner) {e : Option Expr}
    (he : Expr.OptionGrammatical e) {kind : FunctionKind} :
    Leads (Expr.optionTokens e ++ .symbol .semicolon :: ts) (returnValue inner kind) ts := by
  cases e with
  | none => exact yields_accept.bind (leads_quiet emitReturn)
  | some e =>
    exact (yields_accept_miss (Expr.head_ne rfl)).bind
      ((expression_leads hn he follows_semicolon).bind fun _ => yields_expect.bind (leads_quiet _))

/-- A return statement is gone past behind its reserved word. -/
theorem return_leads (hn : AcceptsInner inner) {e : Option Expr}
    (he : Expr.OptionGrammatical e) :
    Leads (Expr.optionTokens e ++ .symbol .semicolon :: ts) (returnStatement inner) ts := by
  have heq : returnStatement inner = (do
    let kind ← look fun s => s.draft.kind
    if kind = .script then failBefore .returnAtTopLevel
    returnValue inner kind) := rfl
  rw [heq]
  refine Leads.quietly fun kind => ?_
  by_cases hkind : kind = .script
  · simp only [if_pos hkind]
    exact leads_failBefore.bind fun _ => returnValue_leads hn he
  · simp only [if_neg hkind]
    exact returnValue_leads hn he

/-- A block is gone past behind its opening brace. -/
theorem blockStatement_leads (hn : AcceptsInner inner) {body : List Stmt}
    (hbody : Stmt.ListGrammatical body) :
    Leads (Stmt.listTokens body ++ .symbol .rightBrace :: ts) (blockStatement inner) ts :=
  Leads.quietly fun _ => (block_leads hn hbody).bind fun _ => leads_quiet _

/-! ### Conditional statements and loops -/

/-- What follows the first branch of a conditional statement. -/
def otherBranch (inner : Parsers) (otherwise : Nat) : Compiler Unit := do
  let stop ← emitJump .jump
  patchJump otherwise
  emit .pop
  if ← acceptKeyword .else_ then inner.statement
  patchJump stop

instance {otherwise : Nat} : Grows (otherBranch inner otherwise) := by
  unfold otherBranch
  repeat refine @Grows.bind _ _ _ _ inferInstance fun _ => ?_
  dsimp only
  split <;> infer_instance

/-- A conditional statement is gone past, unless an `else` that it would take follows. -/
theorem if_leads (hn : AcceptsInner inner) {test : Expr} {body : Stmt} {otherwise : Option Stmt}
    (hg : (Stmt.if_ test body otherwise).Grammatical)
    (hts : Unclaimed (.if_ test body otherwise) ts) :
    Leads ((Stmt.if_ test body otherwise).tokens.tail ++ ts) (ifStatement inner) ts := by
  have heq : ifStatement inner = (do
    condition inner .ifOpen
    let otherwise ← emitJump .jumpIfFalse
    emit .pop
    inner.statement
    otherBranch inner otherwise) := rfl
  rw [heq]
  cases otherwise with
  | none =>
    obtain ⟨htest, hbody, hstatement⟩ := hg
    have htokens : (Stmt.if_ test body none).tokens.tail ++ ts = .symbol .leftParen ::
        (test.tokens ++ .symbol .rightParen :: (body.tokens ++ ts)) := by simp [Stmt.tokens]
    rw [htokens]
    exact (condition_leads hn htest).bind fun _ => Leads.quietly fun _ => Leads.quietly fun _ =>
      (hn.statement body hbody hstatement ts fun _ => hts rfl).bind fun _ =>
        Leads.quietly fun _ => Leads.quietly fun _ => Leads.quietly fun _ =>
          (yields_acceptKeyword_miss (hts rfl)).bind (leads_quiet (patchJump _))
  | some no =>
    obtain ⟨htest, ⟨hbody, hstatement, hclosed⟩, hno, hstatement'⟩ := hg
    have htokens : (Stmt.if_ test body (some no)).tokens.tail ++ ts = .symbol .leftParen ::
        (test.tokens ++ .symbol .rightParen :: (body.tokens ++ .keyword .else_ ::
          (no.tokens ++ ts))) := by simp [Stmt.tokens]
    rw [htokens]
    refine (condition_leads hn htest).bind fun _ => Leads.quietly fun _ => Leads.quietly fun _ => ?_
    refine (hn.statement body hbody hstatement _ fun hopen => ?_).bind fun _ =>
      Leads.quietly fun _ => Leads.quietly fun _ => Leads.quietly fun _ => yields_acceptKeyword.bind
        ((hn.statement no hno hstatement' ts hts).bind fun _ => leads_quiet (patchJump _))
    rw [hclosed] at hopen
    cases hopen

set_option synthInstance.maxSize 400 in
/-- A loop is gone past behind its reserved word. -/
theorem while_leads (hn : AcceptsInner inner) {test : Expr} {body : Stmt}
    (hg : (Stmt.while_ test body).Grammatical) (hts : Unclaimed (.while_ test body) ts) :
    Leads ((Stmt.while_ test body).tokens.tail ++ ts) (whileStatement inner) ts := by
  obtain ⟨htest, hbody, hstatement⟩ := hg
  have hleads : Leads (.symbol .leftParen :: (test.tokens ++ .symbol .rightParen ::
      (body.tokens ++ ts))) (whileStatement inner) ts :=
    Leads.quietly fun _ => (condition_leads hn htest).bind fun _ => Leads.quietly fun _ =>
      Leads.quietly fun _ => (hn.statement body hbody hstatement ts hts).bind fun _ => leads_quiet _
  simpa [Stmt.tokens] using hleads

set_option synthInstance.maxSize 400 in
/-- A loop with its condition behind is gone past. -/
theorem doWhile_leads (hn : AcceptsInner inner) {test : Expr} {body : Stmt}
    (hg : (Stmt.doWhile body test).Grammatical) :
    Leads ((Stmt.doWhile body test).tokens.tail ++ ts) (doWhileStatement inner) ts := by
  obtain ⟨htest, hbody, hstatement⟩ := hg
  have hleads : Leads (body.tokens ++ .keyword .while_ :: .symbol .leftParen :: (test.tokens ++
      .symbol .rightParen :: .symbol .semicolon :: ts)) (doWhileStatement inner) ts :=
    Leads.quietly fun _ => (hn.statement body hbody hstatement _ fun _ => by simp).bind fun _ =>
      yields_expectKeyword.bind ((condition_leads hn htest).bind fun _ =>
        yields_expect.bind (leads_quiet _))
  simpa [Stmt.tokens] using hleads

/-- A counting loop after its condition. -/
def forBody (inner : Parsers) (start : Nat) (stop : Option Nat) : Compiler Unit := do
  let back ← forStep inner start
  inner.statement
  emitLoop back
  match stop with
  | some stop =>
    patchJump stop
    emit .pop
  | none => pure ()
  endScope

instance {start : Nat} {stop : Option Nat} : Grows (forBody inner start stop) := by
  unfold forBody
  cases stop <;>
  · repeat refine @Grows.bind _ _ _ _ inferInstance fun _ => ?_
    infer_instance

/-- A counting loop is gone past from its step on. -/
theorem forBody_leads (hn : AcceptsInner inner) {step : Option Expr} {body : Stmt}
    (hstep : Expr.OptionGrammatical step) (hbody : body.Grammatical)
    (hstatement : body.declares = false) (hts : Unclaimed body ts) {start : Nat}
    {stop : Option Nat} :
    Leads (Expr.optionTokens step ++ .symbol .rightParen :: (body.tokens ++ ts))
      (forBody inner start stop) ts := by
  unfold forBody
  cases stop with
  | none =>
    exact (forStep_leads hn hstep).bind fun _ =>
      (hn.statement body hbody hstatement ts hts).bind fun _ => leads_quiet _
  | some stop =>
    exact (forStep_leads hn hstep).bind fun _ =>
      (hn.statement body hbody hstatement ts hts).bind fun _ => leads_quiet _

/-- A counting loop after its first clause. -/
def forRest (inner : Parsers) : Compiler Unit := do
  let start ← here
  let stop ← forCondition inner
  forBody inner start stop

instance : Grows (forRest inner) := by
  unfold forRest
  infer_instance

/-- The first clause of a counting loop that has one. -/
theorem forStart_leads (hn : AcceptsInner inner) {init : Stmt} (hg : init.Grammatical)
    (hstarts : init.startsLoop = true) : Leads (init.tokens ++ ts) (forStart inner) ts := by
  cases init with
  | let_ name init =>
    have hleads : Leads (.keyword .let_ :: ((Stmt.let_ name init).tokens.tail ++ ts))
        (forStart inner) ts :=
      (yields_accept_miss (by simp)).bind (yields_acceptKeyword.bind (letDeclaration_leads hn hg))
    cases init <;> exact hleads
  | expression e =>
    have hleads : Leads (e.tokens ++ .symbol .semicolon :: ts) (forStart inner) ts :=
      (yields_accept_miss (Expr.head_ne rfl)).bind ((yields_acceptKeyword_miss (Expr.head_ne rfl)).bind
        (expressionStatement_leads hn hg))
    simpa [Stmt.tokens] using hleads
  | _ => cases hstarts

/-- A counting loop is gone past behind its reserved word. -/
theorem for_leads (hn : AcceptsInner inner) {init : Option Stmt} {test step : Option Expr}
    {body : Stmt} (hg : (Stmt.for_ init test step body).Grammatical)
    (hts : Unclaimed (.for_ init test step body) ts) :
    Leads ((Stmt.for_ init test step body).tokens.tail ++ ts) (forStatement inner) ts := by
  have heq : forStatement inner = (do
    beginScope
    expect .leftParen .forOpen
    forStart inner
    forRest inner) := rfl
  rw [heq]
  have hrest (htest : Expr.OptionGrammatical test) (hstep : Expr.OptionGrammatical step)
      (hbody : body.Grammatical) (hstatement : body.declares = false) :
      Leads (Expr.optionTokens test ++ .symbol .semicolon :: (Expr.optionTokens step ++
        .symbol .rightParen :: (body.tokens ++ ts))) (forRest inner) ts :=
    Leads.quietly fun _ => (forCondition_leads hn htest).bind fun _ =>
      forBody_leads hn hstep hbody hstatement hts
  cases init with
  | none =>
    obtain ⟨htest, hstep, hbody, hstatement⟩ := hg
    have htokens : (Stmt.for_ none test step body).tokens.tail ++ ts = .symbol .leftParen ::
        .symbol .semicolon :: (Expr.optionTokens test ++ .symbol .semicolon ::
          (Expr.optionTokens step ++ .symbol .rightParen :: (body.tokens ++ ts))) := by
      simp [Stmt.tokens]
    rw [htokens]
    refine Leads.quietly fun _ => yields_expect.bind ?_
    have hnone (us : List Token) : Leads (.symbol .semicolon :: us) (forStart inner) us :=
      yields_accept.bind (leads_pure ())
    exact (hnone _).bind fun _ => hrest htest hstep hbody hstatement
  | some init =>
    obtain ⟨⟨hinit, hstarts⟩, htest, hstep, hbody, hstatement⟩ := hg
    have htokens : (Stmt.for_ (some init) test step body).tokens.tail ++ ts = .symbol .leftParen ::
        (init.tokens ++ (Expr.optionTokens test ++ .symbol .semicolon ::
          (Expr.optionTokens step ++ .symbol .rightParen :: (body.tokens ++ ts)))) := by
      simp [Stmt.tokens]
    rw [htokens]
    exact Leads.quietly fun _ => yields_expect.bind ((forStart_leads hn hinit hstarts).bind fun _ =>
      hrest htest hstep hbody hstatement)

/-! ### All statements -/

/-- A statement is gone past, by what it starts with. -/
theorem statementBody_leads (hn : AcceptsInner inner) {t : Stmt} (hg : t.Grammatical)
    (hstatement : t.declares = false) (hts : Unclaimed t ts) :
    Leads (t.tokens ++ ts) (statementBody inner) ts := by
  cases t with
  | let_ | def_ | class_ => cases hstatement
  | print e =>
    have htokens : (Stmt.print e).tokens ++ ts = .keyword .print_ ::
        (e.tokens ++ .symbol .semicolon :: ts) := by simp [Stmt.tokens]
    rw [htokens]
    exact yields_peek.bind (yields_advance.then_ (print_leads hn hg))
  | return_ e =>
    have htokens : (Stmt.return_ e).tokens ++ ts = .keyword .return_ ::
        (Expr.optionTokens e ++ .symbol .semicolon :: ts) := by simp [Stmt.tokens]
    rw [htokens]
    exact yields_peek.bind (yields_advance.then_ (return_leads hn hg))
  | block body =>
    have htokens : (Stmt.block body).tokens ++ ts = .symbol .leftBrace ::
        (Stmt.listTokens body ++ .symbol .rightBrace :: ts) := by simp [Stmt.tokens]
    rw [htokens]
    exact yields_peek.bind (yields_advance.then_ (blockStatement_leads hn hg))
  | if_ test body otherwise =>
    have htokens : (Stmt.if_ test body otherwise).tokens ++ ts = .keyword .if_ ::
        ((Stmt.if_ test body otherwise).tokens.tail ++ ts) := by cases otherwise <;> rfl
    rw [htokens]
    exact yields_peek.bind (yields_advance.then_ (if_leads hn hg hts))
  | while_ test body => exact yields_peek.bind (yields_advance.then_ (while_leads hn hg hts))
  | doWhile body test => exact yields_peek.bind (yields_advance.then_ (doWhile_leads hn hg))
  | for_ init test step body =>
    have htokens : (Stmt.for_ init test step body).tokens ++ ts = .keyword .for_ ::
        ((Stmt.for_ init test step body).tokens.tail ++ ts) := by cases init <;> rfl
    rw [htokens]
    exact yields_peek.bind (yields_advance.then_ (for_leads hn hg hts))
  | expression e =>
    have htokens : (Stmt.expression e).tokens ++ ts = e.tokens ++ .symbol .semicolon :: ts := by
      simp [Stmt.tokens]
    rw [htokens]
    refine yields_peek.bind ?_
    -- no expression starts as one of the other statements does
    split
    case h_8 => exact expressionStatement_leads hn hg
    all_goals
      rename_i hhead
      exact absurd hhead (Expr.head_ne rfl)

/-- A statement that declares nothing starts with none of the words of the declarations. -/
theorem head_statement_ne {t : Stmt} (hstatement : t.declares = false) {keyword : Keyword}
    (hkeyword : keyword ∈ [.class_, .def_, .let_]) :
    (t.tokens ++ ts).head? ≠ some (.keyword keyword) := by
  have hstarts : Token.startsExpr (.keyword keyword) = false := by
    rcases keyword with _ | _ <;> first | rfl | simp at hkeyword
  cases t with
  | let_ | def_ | class_ => cases hstatement
  | expression e =>
    rw [Stmt.tokens, List.append_assoc]
    exact Expr.head_ne hstarts
  | if_ _ _ otherwise => cases otherwise <;> rintro ⟨⟩ <;> simp at hkeyword
  | for_ init => cases init <;> rintro ⟨⟩ <;> simp at hkeyword
  | block => intro h; cases h
  | _ => rintro ⟨⟩; simp at hkeyword

/-- A declaration or a statement is gone past, by what it starts with. -/
theorem declarationBody_leads (hn : AcceptsInner inner) {t : Stmt} (hg : t.Grammatical)
    (hts : Unclaimed t ts) : Leads (t.tokens ++ ts) (declarationBody inner) ts := by
  by_cases hdeclares : t.declares = false
  · exact (yields_acceptKeyword_miss (head_statement_ne hdeclares (by simp))).bind
      ((yields_acceptKeyword_miss (head_statement_ne hdeclares (by simp))).bind
        ((yields_acceptKeyword_miss (head_statement_ne hdeclares (by simp))).bind
          (hn.statement t hg hdeclares ts hts)))
  · cases t with
    | let_ name init =>
      have htokens : (Stmt.let_ name init).tokens ++ ts = .keyword .let_ ::
          ((Stmt.let_ name init).tokens.tail ++ ts) := by cases init <;> rfl
      rw [htokens]
      exact (yields_acceptKeyword_miss (by simp)).bind ((yields_acceptKeyword_miss (by simp)).bind
        (yields_acceptKeyword.bind (letDeclaration_leads hn hg)))
    | def_ f =>
      exact (yields_acceptKeyword_miss (by simp [Stmt.tokens])).bind
        (yields_acceptKeyword.bind (functionDeclaration_leads hn hg))
    | class_ name parent fs =>
      have htokens : (Stmt.class_ name parent fs).tokens ++ ts = .keyword .class_ ::
          ((Stmt.class_ name parent fs).tokens.tail ++ ts) := by cases parent <;> rfl
      rw [htokens]
      exact yields_acceptKeyword.bind (classDeclaration_leads hn hg)
    | _ => exact absurd rfl hdeclares

/-! ### Programs -/

/-- What goes on after errors goes past what it is over, or an error is reported. -/
theorem recovering_leads {body : Compiler Unit} [Grows body] (h : Leads ts body us) :
    Leads ts (recovering body) us := by
  intro s hs
  have hgoes := h s hs
  unfold recovering
  dsimp only
  split
  · next hok =>
    rw [hok] at hgoes
    exact hgoes
  · next e s₁ herror =>
    rw [herror] at hgoes
    refine .inl ?_
    rcases hgoes with hspoilt | ⟨hsemantic, hnone⟩
    · exact hspoilt.grown ((s₁.grown_report e).trans (State.grown_of_eq (s₁.errors_recover e _)))
    · refine ⟨e, ?_, hsemantic⟩
      rw [State.errors_recover, State.report]
      simp [hnone, maxErrors]
  · trivial

/-- A form one level deeper goes past what it goes past, or the level is the problem. -/
theorem nested_leads {α : Type} {form : Compiler α} (h : Leads ts form us) :
    Leads ts (nested form) us := by
  intro s hs
  rcases Nat.lt_or_ge s.nesting maxNesting with hlt | hfull
  · have hgoes := h s.deeper ⟨hs.rest, hs.errors⟩
    cases hr : form s.deeper with
    | ok a s₁ =>
      rw [hr] at hgoes
      rw [nested_ok hlt hr]
      exact hgoes.imp id fun hahead => ⟨hahead.rest, hahead.errors⟩
    | error stop s₁ =>
      rw [hr] at hgoes
      rw [nested_error hlt hr]
      cases stop with
      | problem e => exact hgoes
      | fault f => trivial
  · rw [nested_full hfull]
    exact leads_failHere s hs

/-- By induction on the room to nest, whatever fits in it is gone past. -/
theorem acceptsInner_parsers (room : Nat) : AcceptsInner (parsers room) := by
  induction room with
  | zero =>
    exact ⟨fun p hp e hg hle ts hf => leads_failHere, fun t hg hstatement ts hts => leads_failHere,
      fun t hg ts hts => recovering_leads leads_failHere⟩
  | succ room ih =>
    exact ⟨fun p hp e hg hle ts hf =>
        nested_leads (expressionBody_accepts ih.expression p hp e hg hle ts hf),
      fun t hg hstatement ts hts => nested_leads (statementBody_leads ih hg hstatement hts),
      fun t hg ts hts => recovering_leads (nested_leads (declarationBody_leads ih hg hts))⟩

/-- Every declaration takes a token, so the tokens left bound their number. -/
theorem program_leads (room : Nat) {body : List Stmt} (hbody : Stmt.ListGrammatical body)
    {fuel : Nat} (hfuel : (Stmt.listTokens body).length ≤ fuel) :
    Leads (Stmt.listTokens body) (program (parsers room).declaration fuel) [] := by
  have hlook (us : List Token) : Yields us (look fun s => s.atEnd || maxErrors ≤ s.errors.size)
      us.isEmpty us := yields_look fun s hs => by
    rw [hs.atEnd, hs.errors]
    simp [maxErrors]
  induction body generalizing fuel with
  | nil =>
    cases fuel with
    | zero => exact leads_pure ()
    | succ fuel => exact (hlook _).bind (leads_pure ())
  | cons t body ih =>
    obtain ⟨u, us, htokens, hstarts⟩ := t.exists_start
    obtain ⟨ht, hbody⟩ := hbody
    cases fuel with
    | zero => simp [Stmt.listTokens, htokens] at hfuel
    | succ fuel =>
      have hnot : (Stmt.listTokens (t :: body)).isEmpty = false := by
        rw [Stmt.listTokens, htokens]
        rfl
      refine (hlook _).bind ?_
      rw [hnot, Stmt.listTokens]
      refine ((acceptsInner_parsers room).declaration t ht _ fun _ => ?_).bind fun _ => ih hbody ?_
      · have hne : (Stmt.listTokens body ++ []).head? ≠ some (.keyword .else_) :=
          head_listTokens_ne rfl (by simp)
        rwa [List.append_nil] at hne
      · simp only [Stmt.listTokens, htokens, List.length_append, List.length_cons] at hfuel
        omega

/-- No problem stops a program: each is reported, and the next declaration follows. -/
theorem program_not_problem (room : Nat) {fuel : Nat} {e : CompileError} :
    program (parsers room).declaration fuel s ≠ .error (.problem e) s' := by
  have hdeclaration (s : State) : (parsers room).declaration s ≠ .error (.problem e) s' := by
    cases room <;>
    · unfold parsers recovering
      dsimp only
      split <;> (intro h; cases h)
  induction fuel generalizing s with
  | zero => intro h; cases h
  | succ fuel ih =>
    intro h
    rcases stop_bind.mp h with hlook | ⟨done, s₁, hlook, hmore⟩
    · cases hlook
    · cases done with
      | true => cases hmore
      | false =>
        rcases stop_bind.mp hmore with hfirst | ⟨_, s₂, -, hmore⟩
        · exact hdeclaration s₁ hfirst
        · exact ih hmore

/-- Every error is reported: there are at most as many as a report can hold. -/
theorem State.mem_reported {e : CompileError} (hbound : s.errors.size ≤ maxErrors)
    (he : e ∈ s.errors) : e ∈ s.reported := by
  rw [reported, List.take_of_length_le (by simpa using hbound), List.mem_mergeSort]
  exact Array.mem_toList_iff.mpr he

/-- A source without lexical problems that a grammatical program spells is refused for a problem
beyond the syntax only. -/
theorem compile_accepts {source : String} {heap h : Heap} {outer : List Handle}
    {es : List CompileError} {body : List Stmt} (hlexed : (Token.read source).problems = #[])
    (hspells : Spells body (sourceTokens source))
    (hfailed : compile source heap outer = (.errors es, h)) :
    ∃ e ∈ es, e.kind.isSyntactic = false := by
  have hstart : (State.start source heap outer).Ahead (Stmt.listTokens body) := by
    refine ⟨(rest_start source heap outer).trans hspells.tokens.symm, ?_⟩
    simp [State.start, hlexed]
  have hleft : (Stmt.listTokens body).length ≤ (State.start source heap outer).remaining :=
    Nat.le_of_eq (by rw [State.remaining_eq, hstart.rest])
  unfold compile at hfailed
  split at hfailed
  · cases (Prod.mk.inj hfailed).1
  · next s hscript =>
    obtain rfl := Result.errors.inj (Prod.mk.inj hfailed).1
    obtain ⟨left, s₁, hlook, h₁⟩ := run_bind.mp hscript
    obtain ⟨_, s₂, hprogram, h₂⟩ := run_bind.mp h₁
    obtain ⟨_, s₃, hreturn, h₃⟩ := run_bind.mp h₂
    obtain ⟨clean, s₄, hlook', h₄⟩ := run_bind.mp h₃
    obtain ⟨rfl, rfl⟩ := run_look.mp hlook
    obtain ⟨hclean, rfl⟩ := run_look.mp hlook'
    cases clean with
    | true =>
      obtain ⟨⟨function, captures⟩, s₄, -, h₅⟩ := run_bind.mp h₄
      cases (run_pure.mp h₅).1
    | false =>
      obtain ⟨-, rfl⟩ := run_pure.mp h₄
      have herrors : s₃.errors = s₂.errors := (Quiet.still _ _ _ hreturn).errors
      have hbound : s₂.errors.size ≤ maxErrors :=
        (Grows.ok _ _ _ hprogram).bounded (by simp [hstart.errors])
      have hgoes := program_leads (maxNesting + 1) hspells.grammatical hleft _ hstart
      rw [hprogram] at hgoes
      rcases hgoes with ⟨e, he, hsemantic⟩ | hahead
      · exact ⟨e, State.mem_reported (herrors ▸ hbound) (herrors ▸ he), hsemantic⟩
      · simp [herrors, hahead.errors] at hclean
  · next e s hscript =>
    obtain rfl := Result.errors.inj (Prod.mk.inj hfailed).1
    refine ⟨e, List.mem_singleton_self e, ?_⟩
    rcases stop_bind.mp hscript with hlook | ⟨left, s₁, -, hrest⟩
    · cases hlook
    · rcases stop_bind.mp hrest with hprogram | ⟨_, s₂, -, hend⟩
      · exact absurd hprogram (program_not_problem (maxNesting + 1))
      · exact (Quiet.stopped _ _ _ hend).2
  · cases (Prod.mk.inj hfailed).1

end Compile

end ScriptMachine
