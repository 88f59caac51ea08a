import ScriptMachine.Proofs.Syntax.Readback

/-!
# Reading programs back

A program is the only grammatical one with its tokens. The reader of statements takes an `else` for
the last `if` that has none, as the grammar does, because no statement that would take it stands
before the `else` of another.
-/

namespace ScriptMachine

open Compile

/-! ### The reader -/

/-- Reads names up to the closing parenthesis. -/
def readNames : Reader (List String)
  | .symbol .rightParen :: ts => some ([], ts)
  | .name name :: .symbol .rightParen :: ts => some ([name], ts)
  | .name name :: .symbol .comma :: ts => (readNames ts).map fun (names, us) => (name :: names, us)
  | _ => none

/-- Reads an expression up to a symbol, or the symbol alone. -/
def readOption (symbol : Symbol) : Reader (Option Expr)
  | .symbol symbol' :: ts =>
    if symbol' = symbol then some (none, ts)
    else (readExpr.upTo symbol).map some (.symbol symbol' :: ts)
  | ts => (readExpr.upTo symbol).map some ts

section Statements

variable (one : Reader Stmt)

/-- Reads statements up to the closing brace. -/
def readStmts : (fuel : Nat) → Reader (List Stmt)
  | _, .symbol .rightBrace :: ts => some ([], ts)
  | 0, _ => none
  | fuel + 1, ts => (one ts).bind fun (t, us) => (readStmts fuel).map (t :: ·) us

/-- Reads a block after its opening brace. -/
def readBlock : Reader (List Stmt) := fun ts => readStmts one ts.length ts

/-- Reads a function after its reserved word. -/
def readFunction : Reader Function
  | .name name :: .symbol .leftParen :: ts => (readNames ts).bind fun
    | (params, .symbol .leftBrace :: us) => (readBlock one).map (.mk name params) us
    | _ => none
  | _ => none

/-- Reads methods up to the closing brace. -/
def readMethods : (fuel : Nat) → Reader (List Function)
  | _, .symbol .rightBrace :: ts => some ([], ts)
  | fuel + 1, .keyword .def_ :: ts => (readFunction one ts).bind fun (f, us) =>
    (readMethods fuel).map (f :: ·) us
  | _, _ => none

/-- Reads what a conditional statement does after its condition. -/
def readBranches (test : Expr) : Reader Stmt := fun ts => (one ts).bind fun
  | (body, .keyword .else_ :: us) => one.map (fun otherwise => .if_ test body (some otherwise)) us
  | (body, us) => some (.if_ test body none, us)

/-- Reads a counting loop after its first clause. -/
def readClauses (init : Option Stmt) : Reader Stmt := fun ts =>
  (readOption .semicolon ts).bind fun (test, us) => (readOption .rightParen us).bind
    fun (step, vs) => one.map (.for_ init test step) vs

/-- Reads a counting loop after its opening parenthesis. -/
def readFor : Reader Stmt
  | .symbol .semicolon :: ts => readClauses one none ts
  | ts => (one ts).bind fun (init, us) => readClauses one (some init) us

/-- Reads the condition of a loop that has done its body. -/
def readUntil (body : Stmt) : Reader Stmt
  | .keyword .while_ :: .symbol .leftParen :: ts =>
    ((readExpr.upTo .rightParen ts).bind fun
      | (test, .symbol .semicolon :: us) => some (.doWhile body test, us)
      | _ => none)
  | _ => none

/-- Reads a statement after its reserved word, or an expression that starts with one. -/
def readKeyword : Keyword → Reader Stmt
  | .let_, .name name :: .symbol .semicolon :: ts => some (.let_ name none, ts)
  | .let_, .name name :: .symbol .assign :: ts =>
    (readExpr.upTo .semicolon).map (fun e => .let_ name (some e)) ts
  | .def_, ts => (readFunction one).map .def_ ts
  | .class_, .name name :: .symbol .leftBrace :: ts =>
    (readMethods one ts.length).map (.class_ name none) ts
  | .class_, .name name :: .symbol .colon :: .name parent :: .symbol .leftBrace :: ts =>
    (readMethods one ts.length).map (.class_ name (some parent)) ts
  | .print_, ts => (readExpr.upTo .semicolon).map .print ts
  | .return_, ts => (readOption .semicolon).map .return_ ts
  | .if_, .symbol .leftParen :: ts =>
    (readExpr.upTo .rightParen ts).bind fun (test, us) => readBranches one test us
  | .while_, .symbol .leftParen :: ts =>
    (readExpr.upTo .rightParen ts).bind fun (test, us) => one.map (.while_ test) us
  | .do_, ts => (one ts).bind fun (body, us) => readUntil body us
  | .for_, .symbol .leftParen :: ts => readFor one ts
  | k, ts => (readExpr.upTo .semicolon).map .expression (.keyword k :: ts)

/-- Reads a statement. -/
def readStmtBody : Reader Stmt
  | .keyword k :: ts => readKeyword one k ts
  | .symbol .leftBrace :: ts => (readBlock one).map .block ts
  | ts => (readExpr.upTo .semicolon).map .expression ts

end Statements

/-- Reads a statement with parts nested up to a depth. -/
def readStmt : (depth : Nat) → Reader Stmt
  | 0 => fun _ => none
  | depth + 1 => readStmtBody (readStmt depth)

/-! ### What is read back -/

section Statements

variable {one : Reader Stmt} {ts : List Token}

/-- A list of parameters is read back, by induction on it. -/
theorem readNames_back (params : List String) :
    readNames (nameTokens params ++ .symbol .rightParen :: ts) = some (params, ts) := by
  induction params with
  | nil => rfl
  | cons name names ih =>
    cases names with
    | nil => rfl
    | cons name' names =>
      have htokens : nameTokens (name :: name' :: names) ++ .symbol .rightParen :: ts =
        .name name :: .symbol .comma :: (nameTokens (name' :: names) ++
          .symbol .rightParen :: ts) := by simp [nameTokens]
      rw [htokens, readNames, ih]
      rfl

/-- An expression is read back before a symbol that nothing in an expression takes. -/
theorem readUpTo_back {e : Expr} {symbol : Symbol} (hg : e.Grammatical)
    (hsymbol : bindingOf? symbol = none) (hassign : isAssignment (.symbol symbol) = false) :
    readExpr.upTo symbol (e.tokens ++ .symbol symbol :: ts) = some (e, ts) :=
  Reader.upTo_eq (readExpr_back hg (follows_symbol hsymbol hassign))

/-- An expression that may be left out is read back before the symbol that ends it. -/
theorem readOption_back {e : Option Expr} {symbol : Symbol} (hg : Expr.OptionGrammatical e)
    (hsymbol : bindingOf? symbol = none) (hassign : isAssignment (.symbol symbol) = false)
    (hstart : Token.startsExpr (.symbol symbol) = false) :
    readOption symbol (Expr.optionTokens e ++ .symbol symbol :: ts) = some (e, ts) := by
  cases e with
  | none => exact if_pos rfl
  | some e =>
    have hhead : (e.tokens ++ .symbol symbol :: ts).head? ≠ some (.symbol symbol) :=
      Expr.head_ne hstart
    have hread : (readExpr.upTo symbol).map some (e.tokens ++ .symbol symbol :: ts) =
      some (some e, ts) := Reader.map_eq (readUpTo_back hg hsymbol hassign)
    show readOption symbol (e.tokens ++ .symbol symbol :: ts) = _
    unfold readOption
    split
    · next symbol' us heq =>
      rw [heq] at hhead
      have hne : symbol' ≠ symbol := by
        rintro rfl
        exact hhead rfl
      rw [if_neg hne, ← heq]
      exact hread
    · exact hread

/-- A reader reads a statement back wherever the statement may stand. -/
def ReadsBackStmt (one : Reader Stmt) (t : Stmt) : Prop :=
  ∀ ts, Unclaimed t ts → one (t.tokens ++ ts) = some (t, ts)

/-- Unless the brace closes, a statement is read first and the others behind it. -/
theorem readStmts_succ {fuel : Nat} (h : ts.head? ≠ some (.symbol .rightBrace)) :
    readStmts one (fuel + 1) ts =
      (one ts).bind fun (t, us) => (readStmts one fuel).map (t :: ·) us := by
  cases ts with
  | nil => rfl
  | cons t ts =>
    cases t with
    | symbol s => cases s <;> first | rfl | exact absurd rfl h
    | _ => rfl

/-- The statements of a block are read back, by induction on them. -/
theorem readStmts_back {body : List Stmt} (hbody : ∀ t ∈ body, ReadsBackStmt one t) {fuel : Nat}
    (hfuel : body.length ≤ fuel) :
    readStmts one fuel (Stmt.listTokens body ++ .symbol .rightBrace :: ts) = some (body, ts) := by
  induction body generalizing fuel with
  | nil => cases fuel <;> rfl
  | cons t body ih =>
    obtain ⟨ht, hbody⟩ := List.forall_mem_cons.mp hbody
    cases fuel with
    | zero => cases hfuel
    | succ fuel =>
      have hread := ht (Stmt.listTokens body ++ .symbol .rightBrace :: ts)
        fun _ => head_listTokens_ne rfl (by simp)
      rw [Stmt.listTokens, List.append_assoc, readStmts_succ (Stmt.head_ne rfl), hread]
      exact Reader.map_eq (ih hbody (Nat.le_of_succ_le_succ hfuel))

/-- There are as many tokens as statements, each of them having one. -/
theorem Stmt.length_le_listTokens (body : List Stmt) :
    body.length ≤ (Stmt.listTokens body).length := by
  induction body with
  | nil => exact Nat.le_refl _
  | cons t body ih =>
    have hpos := List.length_pos_iff.mpr t.tokens_ne_nil
    simp only [Stmt.listTokens, List.length_append, List.length_cons]
    omega

/-- The tokens of a block are room enough for its statements. -/
theorem readBlock_back {body : List Stmt} (hbody : ∀ t ∈ body, ReadsBackStmt one t) :
    readBlock one (Stmt.listTokens body ++ .symbol .rightBrace :: ts) = some (body, ts) := by
  refine readStmts_back hbody ?_
  rw [List.length_append]
  exact Nat.le_add_right_of_le (Stmt.length_le_listTokens body)

/-- A function is read back if the statements of its body are. -/
theorem readFunction_back {f : Function} (hbody : ∀ t ∈ f.body, ReadsBackStmt one t) :
    readFunction one (f.tokens ++ ts) = some (f, ts) := by
  obtain ⟨name, params, body⟩ := f
  have htokens : (Function.mk name params body).tokens ++ ts = .name name :: .symbol .leftParen ::
      (nameTokens params ++ .symbol .rightParen :: .symbol .leftBrace ::
        (Stmt.listTokens body ++ .symbol .rightBrace :: ts)) := by simp [Function.tokens]
  rw [htokens, readFunction, readNames_back]
  exact Reader.map_eq (readBlock_back hbody)

/-- The methods of a class are read back, by induction on them. -/
theorem readMethods_back {methods : List Function}
    (hmethods : ∀ f ∈ methods, ∀ t ∈ f.body, ReadsBackStmt one t) {fuel : Nat}
    (hfuel : methods.length ≤ fuel) :
    readMethods one fuel (Function.listTokens methods ++ .symbol .rightBrace :: ts) =
      some (methods, ts) := by
  induction methods generalizing fuel with
  | nil => cases fuel <;> rfl
  | cons f methods ih =>
    obtain ⟨hf, hmethods⟩ := List.forall_mem_cons.mp hmethods
    cases fuel with
    | zero => cases hfuel
    | succ fuel =>
      have htokens : Function.listTokens (f :: methods) ++ .symbol .rightBrace :: ts =
          .keyword .def_ :: (f.tokens ++ (Function.listTokens methods ++
            .symbol .rightBrace :: ts)) := by simp [Function.listTokens]
      rw [htokens, readMethods, readFunction_back hf]
      exact Reader.map_eq (ih hmethods (Nat.le_of_succ_le_succ hfuel))

/-- There are as many tokens as methods. -/
theorem Function.length_le_listTokens (methods : List Function) :
    methods.length ≤ (Function.listTokens methods).length := by
  induction methods with
  | nil => exact Nat.le_refl _
  | cons f methods ih =>
    simp only [Function.listTokens, List.cons_append, List.length_append, List.length_cons]
    omega

/-- An expression statement is read as one, whatever its expression starts with. -/
theorem readStmtBody_expression {e : Expr} (hg : e.Grammatical) :
    readStmtBody one (e.tokens ++ .symbol .semicolon :: ts) = some (.expression e, ts) := by
  have hread : (readExpr.upTo .semicolon).map Stmt.expression
      (e.tokens ++ .symbol .semicolon :: ts) = some (.expression e, ts) :=
    Reader.map_eq (readUpTo_back hg rfl rfl)
  obtain ⟨t, us, htokens, hstart⟩ := e.exists_start
  rw [htokens] at hread ⊢
  cases t with
  | number | text | name => exact hread
  | keyword k => cases k <;> first | exact hread | cases hstart
  | symbol s => cases s <;> first | exact hread | cases hstart

/-- The first clause of a counting loop is read as a statement of its own. -/
theorem readFor_back {init : Stmt} {us : List Token} (hinit : ReadsBackStmt one init)
    (hclosed : init.isOpen = false) (hhead : (init.tokens ++ us).head? ≠ some (.symbol .semicolon)) :
    readFor one (init.tokens ++ us) = readClauses one (some init) us := by
  have hread := hinit us fun hopen => by rw [hclosed] at hopen; cases hopen
  unfold readFor
  split
  · next heq => exact absurd (heq ▸ rfl) hhead
  · rw [hread]
    rfl

/-- The other clauses of a counting loop are read back if its body is. -/
theorem readClauses_back {init : Option Stmt} {test step : Option Expr} {body : Stmt}
    (htest : Expr.OptionGrammatical test) (hstep : Expr.OptionGrammatical step)
    (hbody : one (body.tokens ++ ts) = some (body, ts)) :
    readClauses one init (Expr.optionTokens test ++ .symbol .semicolon ::
      (Expr.optionTokens step ++ .symbol .rightParen :: (body.tokens ++ ts))) =
      some (.for_ init test step body, ts) := by
  rw [readClauses, readOption_back htest rfl rfl rfl]
  dsimp only [Option.bind_some]
  rw [readOption_back hstep rfl rfl rfl]
  exact Reader.map_eq hbody

/-- Without an `else` behind it, a conditional statement has no other branch. -/
theorem readBranches_open {test : Expr} {body : Stmt} (hbody : ReadsBackStmt one body)
    (hts : ts.head? ≠ some (.keyword .else_)) :
    readBranches one test (body.tokens ++ ts) = some (.if_ test body none, ts) := by
  rw [readBranches, hbody ts fun _ => hts]
  cases ts with
  | nil => rfl
  | cons t ts =>
    cases t with
    | keyword k => cases k <;> first | rfl | exact absurd rfl hts
    | _ => rfl

/-- The `else` behind a body that takes none belongs to the `if` before it. -/
theorem readBranches_closed {test : Expr} {body otherwise : Stmt} (hbody : ReadsBackStmt one body)
    (hclosed : body.isOpen = false)
    (hotherwise : one (otherwise.tokens ++ ts) = some (otherwise, ts)) :
    readBranches one test (body.tokens ++ .keyword .else_ :: (otherwise.tokens ++ ts)) =
      some (.if_ test body (some otherwise), ts) := by
  rw [readBranches, hbody _ fun hopen => by rw [hclosed] at hopen; cases hopen]
  exact Reader.map_eq (f := fun no => Stmt.if_ test body (some no)) hotherwise

/-- The condition behind the body of a loop is read back. -/
theorem readUntil_back {body : Stmt} {test : Expr} (hg : test.Grammatical) :
    readUntil body (.keyword .while_ :: .symbol .leftParen :: (test.tokens ++
      .symbol .rightParen :: .symbol .semicolon :: ts)) = some (.doWhile body test, ts) := by
  rw [readUntil, readUpTo_back hg rfl rfl]
  rfl

/-- A statement has no more tokens than the list it stands in. -/
theorem Stmt.length_tokens_le {body : List Stmt} {t : Stmt} (ht : t ∈ body) :
    t.tokens.length ≤ (Stmt.listTokens body).length := by
  induction body with
  | nil => cases ht
  | cons s body ih =>
    rw [Stmt.listTokens, List.length_append]
    rcases List.mem_cons.mp ht with rfl | ht
    · exact Nat.le_add_right _ _
    · exact Nat.le_add_left_of_le (ih ht)

/-- The body of a function has fewer tokens than the function. -/
theorem Function.length_body_lt (f : Function) :
    (Stmt.listTokens f.body).length < f.tokens.length := by
  obtain ⟨name, params, body⟩ := f
  simp only [Function.body, Function.tokens, List.cons_append, List.length_append,
    List.length_cons]
  omega

/-- A method has no more tokens than its class has for methods. -/
theorem Function.length_tokens_le {methods : List Function} {f : Function} (hf : f ∈ methods) :
    f.tokens.length ≤ (Function.listTokens methods).length := by
  induction methods with
  | nil => cases hf
  | cons g methods ih =>
    rw [Function.listTokens, List.length_append]
    rcases List.mem_cons.mp hf with rfl | hf
    · exact Nat.le_add_right_of_le (Nat.le_succ _)
    · exact Nat.le_add_left_of_le (ih hf)

/-- Room for the tokens of a statement is room for one more level. -/
theorem Stmt.exists_room {t : Stmt} {depth : Nat} (h : t.tokens.length ≤ depth) :
    ∃ d, depth = d + 1 :=
  Nat.exists_eq_add_one.mpr (Nat.lt_of_lt_of_le (List.length_pos_iff.mpr t.tokens_ne_nil) h)

/-- A reader with room for the tokens of a statement reads it back. -/
theorem readStmt_back {t : Stmt} {depth : Nat} (hsize : t.tokens.length ≤ depth)
    (hg : t.Grammatical) : ReadsBackStmt (readStmt depth) t := by
  induction t generalizing depth with
  | let_ name init =>
    intro ts _
    obtain ⟨depth, rfl⟩ := Stmt.exists_room hsize
    cases init with
    | none => rfl
    | some e =>
      have htokens : (Stmt.let_ name (some e)).tokens ++ ts = .keyword .let_ :: .name name ::
          .symbol .assign :: (e.tokens ++ .symbol .semicolon :: ts) := by simp [Stmt.tokens]
      rw [htokens]
      exact Reader.map_eq (f := fun e => Stmt.let_ name (some e)) (readUpTo_back hg rfl rfl)
  | def_ name params body ih =>
    intro ts _
    obtain ⟨depth, rfl⟩ := Stmt.exists_room hsize
    have hlength := Function.length_body_lt ⟨name, params, body⟩
    simp only [Stmt.tokens, List.length_cons] at hsize
    refine Reader.map_eq (readFunction_back fun t ht => ih t ht ?_ (hg.mem ht))
    have hle := Stmt.length_tokens_le ht
    omega
  | class_ name parent methods ih =>
    intro ts _
    obtain ⟨depth, rfl⟩ := Stmt.exists_room hsize
    have hmethods : ∀ f ∈ methods, ∀ t ∈ f.body, ReadsBackStmt (readStmt depth) t := by
      intro f hf t ht
      refine ih f hf t ht ?_ ((Function.ListGrammatical.mem hg hf).mem ht)
      have hle := Function.length_tokens_le hf
      have hlt := f.length_body_lt
      have hle' := Stmt.length_tokens_le ht
      cases parent <;> simp only [Stmt.tokens, List.cons_append, List.length_append,
        List.length_cons] at hsize <;> omega
    have hfuel : methods.length ≤
        (Function.listTokens methods ++ .symbol .rightBrace :: ts).length := by
      rw [List.length_append]
      exact Nat.le_add_right_of_le (Function.length_le_listTokens methods)
    have hread : readMethods _ _ (_ ++ .symbol .rightBrace :: ts) = _ :=
      readMethods_back hmethods hfuel
    cases parent with
    | none =>
      have htokens : (Stmt.class_ name none methods).tokens ++ ts = .keyword .class_ ::
          .name name :: .symbol .leftBrace :: (Function.listTokens methods ++
            .symbol .rightBrace :: ts) := by simp [Stmt.tokens]
      rw [htokens]
      exact Reader.map_eq hread
    | some parent =>
      have htokens : (Stmt.class_ name (some parent) methods).tokens ++ ts = .keyword .class_ ::
          .name name :: .symbol .colon :: .name parent :: .symbol .leftBrace ::
            (Function.listTokens methods ++ .symbol .rightBrace :: ts) := by simp [Stmt.tokens]
      rw [htokens]
      exact Reader.map_eq hread
  | print e =>
    intro ts _
    obtain ⟨depth, rfl⟩ := Stmt.exists_room hsize
    have htokens : (Stmt.print e).tokens ++ ts = .keyword .print_ ::
        (e.tokens ++ .symbol .semicolon :: ts) := by simp [Stmt.tokens]
    rw [htokens]
    exact Reader.map_eq (readUpTo_back hg rfl rfl)
  | expression e =>
    intro ts _
    obtain ⟨depth, rfl⟩ := Stmt.exists_room hsize
    have htokens : (Stmt.expression e).tokens ++ ts = e.tokens ++ .symbol .semicolon :: ts := by
      simp [Stmt.tokens]
    rw [htokens]
    exact readStmtBody_expression hg
  | return_ e =>
    intro ts _
    obtain ⟨depth, rfl⟩ := Stmt.exists_room hsize
    have htokens : (Stmt.return_ e).tokens ++ ts = .keyword .return_ ::
        (Expr.optionTokens e ++ .symbol .semicolon :: ts) := by simp [Stmt.tokens]
    rw [htokens]
    exact Reader.map_eq (readOption_back hg rfl rfl rfl)
  | if_ test body otherwise ihbody ihotherwise =>
    intro ts hts
    obtain ⟨depth, rfl⟩ := Stmt.exists_room hsize
    cases otherwise with
    | none =>
      obtain ⟨htest, hbody, -⟩ := hg
      simp only [Stmt.tokens, List.cons_append, List.length_append, List.length_cons] at hsize
      have htokens : (Stmt.if_ test body none).tokens ++ ts = .keyword .if_ ::
          .symbol .leftParen :: (test.tokens ++ .symbol .rightParen :: (body.tokens ++ ts)) := by
        simp [Stmt.tokens]
      rw [htokens]
      show (readExpr.upTo .rightParen _).bind _ = _
      rw [readUpTo_back htest rfl rfl]
      exact readBranches_open (ihbody (by omega) hbody) (hts rfl)
    | some otherwise =>
      obtain ⟨htest, ⟨hbody, -, hclosed⟩, hotherwise, -⟩ := hg
      simp only [Stmt.tokens, List.cons_append, List.length_append, List.length_cons] at hsize
      have htokens : (Stmt.if_ test body (some otherwise)).tokens ++ ts = .keyword .if_ ::
          .symbol .leftParen :: (test.tokens ++ .symbol .rightParen :: (body.tokens ++
            .keyword .else_ :: (otherwise.tokens ++ ts))) := by simp [Stmt.tokens]
      rw [htokens]
      show (readExpr.upTo .rightParen _).bind _ = _
      rw [readUpTo_back htest rfl rfl]
      exact readBranches_closed (ihbody (by omega) hbody) hclosed
        (ihotherwise otherwise rfl (by omega) hotherwise ts hts)
  | while_ test body ih =>
    intro ts hts
    obtain ⟨depth, rfl⟩ := Stmt.exists_room hsize
    obtain ⟨htest, hbody, -⟩ := hg
    simp only [Stmt.tokens, List.cons_append, List.length_append, List.length_cons] at hsize
    have htokens : (Stmt.while_ test body).tokens ++ ts = .keyword .while_ :: .symbol .leftParen ::
        (test.tokens ++ .symbol .rightParen :: (body.tokens ++ ts)) := by simp [Stmt.tokens]
    rw [htokens]
    show (readExpr.upTo .rightParen _).bind _ = _
    rw [readUpTo_back htest rfl rfl]
    exact Reader.map_eq (ih (by omega) hbody ts hts)
  | doWhile body test ih =>
    intro ts _
    obtain ⟨depth, rfl⟩ := Stmt.exists_room hsize
    obtain ⟨htest, hbody, -⟩ := hg
    simp only [Stmt.tokens, List.cons_append, List.length_append, List.length_cons] at hsize
    have htokens : (Stmt.doWhile body test).tokens ++ ts = .keyword .do_ :: (body.tokens ++
        .keyword .while_ :: .symbol .leftParen :: (test.tokens ++ .symbol .rightParen ::
          .symbol .semicolon :: ts)) := by simp [Stmt.tokens]
    rw [htokens]
    show (readStmt depth _).bind _ = _
    rw [ih (by omega) hbody _ fun _ => by simp]
    exact readUntil_back htest
  | for_ init test step body ihinit ihbody =>
    intro ts hts
    obtain ⟨depth, rfl⟩ := Stmt.exists_room hsize
    cases init with
    | none =>
      obtain ⟨htest, hstep, hbody, -⟩ := hg
      simp only [Stmt.tokens, List.cons_append, List.append_assoc, List.length_append,
        List.length_cons] at hsize
      have htokens : (Stmt.for_ none test step body).tokens ++ ts = .keyword .for_ ::
          .symbol .leftParen :: .symbol .semicolon :: (Expr.optionTokens test ++
            .symbol .semicolon :: (Expr.optionTokens step ++ .symbol .rightParen ::
              (body.tokens ++ ts))) := by simp [Stmt.tokens]
      rw [htokens]
      exact readClauses_back htest hstep (ihbody (by omega) hbody ts hts)
    | some init =>
      obtain ⟨⟨hinit, hstarts⟩, htest, hstep, hbody, -⟩ := hg
      simp only [Stmt.tokens, List.cons_append, List.append_assoc, List.length_append,
        List.length_cons] at hsize
      have htokens : (Stmt.for_ (some init) test step body).tokens ++ ts = .keyword .for_ ::
          .symbol .leftParen :: (init.tokens ++ (Expr.optionTokens test ++
            .symbol .semicolon :: (Expr.optionTokens step ++ .symbol .rightParen ::
              (body.tokens ++ ts)))) := by simp [Stmt.tokens]
      rw [htokens]
      have hclosed : init.isOpen = false := by cases init <;> first | rfl | cases hstarts
      exact (readFor_back (ihinit init rfl (by omega) hinit) hclosed (Stmt.head_ne rfl)).trans
        (readClauses_back htest hstep (ihbody (by omega) hbody ts hts))
  | block body ih =>
    intro ts _
    obtain ⟨depth, rfl⟩ := Stmt.exists_room hsize
    simp only [Stmt.tokens, List.cons_append, List.length_append, List.length_cons] at hsize
    have htokens : (Stmt.block body).tokens ++ ts = .symbol .leftBrace :: (Stmt.listTokens body ++
        .symbol .rightBrace :: ts) := by simp [Stmt.tokens]
    rw [htokens]
    refine Reader.map_eq (readBlock_back fun t ht => ih t ht ?_ (hg.mem ht))
    have hle := Stmt.length_tokens_le ht
    omega

end Statements

/-- Only one program is spelled by tokens. -/
theorem Spells.unique {program program' : List Stmt} {ts : List Token}
    (h : Spells program ts) (h' : Spells program' ts) : program = program' := by
  have hread (body : List Stmt) (hbody : Spells body ts) :
      readBlock (readStmt ts.length) (ts ++ [.symbol .rightBrace]) = some (body, []) := by
    rw [← hbody.tokens]
    exact readBlock_back fun t ht =>
      readStmt_back (Stmt.length_tokens_le ht) (hbody.grammatical.mem ht)
  exact (Prod.mk.inj (Option.some.inj ((hread _ h).symm.trans (hread _ h')))).1

/-! ### Comparing tokens -/

/-- Whether tokens are the same and none of them is a number. -/
def Token.areSame : List Token → List Token → Bool
  | [], [] => true
  | .keyword k :: ts, .keyword l :: us => k = l && areSame ts us
  | .symbol s :: ts, .symbol u :: us => s = u && areSame ts us
  | .text s :: ts, .text u :: us => s = u && areSame ts us
  | .name s :: ts, .name u :: us => s = u && areSame ts us
  | _, _ => false

/-- Lists of tokens that compare as the same are the same. -/
theorem Token.eq_of_areSame {ts us : List Token} (h : areSame ts us = true) : ts = us := by
  fun_induction areSame ts us with
  | case1 => rfl
  | case6 => cases h
  | _ =>
    rename_i ih
    rw [Bool.and_eq_true, decide_eq_true_eq] at h
    rw [h.1, ih h.2]

end ScriptMachine
