import ScriptMachine.Proofs.Syntax.Grammar
import ScriptMachine.Proofs.Syntax.Acceptance

/-!
# Derivations and trees

The grammar derives the tokens that grammatical trees spell and no others. Operators of one level
group as their rule says; an `else` that the grammar puts anywhere is that of the nearest `if`
without one in the tree.
-/

namespace ScriptMachine

open Compile (Precedence)

namespace Grammar

variable {ts us : List Token}

/-! ### What is derived is spelled by a tree -/

/-- An expression that binds at least as tightly as `p` spells the tokens. -/
def Spelled (p : Precedence) (ts : List Token) : Prop :=
  ∃ e : Expr, e.Grammatical ∧ p.rank ≤ e.precedence.rank ∧ e.tokens = ts

/-- What of the syntax trees a rule is about. -/
def trees : Rule → List Token → Prop
  | .program, ts => ∃ body, Spells body ts
  | .declaration, ts => ∃ t : Stmt, t.Grammatical ∧ t.tokens = ts
  | .variableDeclaration, ts =>
    ∃ name init, (Stmt.let_ name init).Grammatical ∧ (Stmt.let_ name init).tokens = ts
  | .function, ts => ∃ params body, Stmt.ListGrammatical body ∧
    ∀ name, (Function.mk name params body).tokens = .name name :: ts
  | .block, ts => ∃ body, (Stmt.block body).Grammatical ∧ (Stmt.block body).tokens = ts
  | .statement, ts => ∃ t : Stmt, t.Grammatical ∧ t.declares = false ∧ t.tokens = ts
  | .expressionStatement, ts =>
    ∃ e, (Stmt.expression e).Grammatical ∧ (Stmt.expression e).tokens = ts
  | .expression, ts | .assignment, ts => Spelled .assignment ts
  | .either, ts => Spelled .or ts
  | .both, ts => Spelled .and ts
  | .equality, ts => Spelled .equality ts
  | .comparison, ts => Spelled .comparison ts
  | .term, ts => Spelled .term ts
  | .factor, ts => Spelled .factor ts
  | .unary, ts => Spelled .unary ts
  | .call, ts => Spelled .call ts
  | .arguments, ts => ∃ args, Expr.ListGrammatical args ∧ Expr.listTokens args = ts
  | .primary, ts => Spelled .primary ts

/-- What binds tightly binds more loosely, too. -/
theorem Spelled.mono {p q : Precedence} (h : Spelled q ts) (hle : p.rank ≤ q.rank) :
    Spelled p ts := by
  obtain ⟨e, he, hrank, htokens⟩ := h
  exact ⟨e, he, Nat.le_trans hle hrank, htokens⟩

/-- Operators that group to the left. -/
theorem spelled_left {q next : Precedence} (hnext : q.rank < next.rank) {operators : Form}
    (hoperators : ∀ us, operators.Means trees us →
      ∃ op : BinaryOp, op.precedence = q ∧ us = [.symbol op.symbol])
    {operand : Rule} (hoperand : trees operand = Spelled next)
    (h : (Form.level operand operators).Means trees ts) : Spelled q ts := by
  have hoperand (us : List Token) (h : trees operand us) : Spelled next us := hoperand ▸ h
  obtain ⟨first, _, hfirst, ⟨parts, hparts, rfl⟩, rfl⟩ := h
  obtain ⟨e, he, hle, htokens⟩ := (hoperand _ hfirst).mono (Nat.le_of_lt hnext)
  rw [← htokens]
  clear hfirst htokens
  induction parts generalizing e with
  | nil => exact ⟨e, he, hle, (List.append_nil _).symm⟩
  | cons part parts ih =>
    obtain ⟨⟨operator, us, hoperator, hus, hpart⟩, hrest⟩ := List.forall_mem_cons.mp hparts
    obtain ⟨op, hop, rfl⟩ := hoperators _ hoperator
    obtain ⟨r, hr, hlt, rfl⟩ := hoperand _ hus
    subst hop
    have hspelled := ih hrest (.binary op e r) ⟨⟨he, hle⟩, hr, Nat.lt_of_lt_of_le hnext hlt⟩
      (Nat.le_refl _)
    simpa [Expr.tokens, hpart] using hspelled

/-- Operators that group to the right, whose trees `join` makes. -/
theorem spelled_right {q next : Precedence} (hnext : q.rank < next.rank) {symbol : Symbol}
    (join : Expr → Expr → Expr)
    (hjoin : ∀ l r, (join l r).tokens = l.tokens ++ .symbol symbol :: r.tokens ∧
      (join l r).precedence = q ∧ (l.Grammatical → q.rank < l.precedence.rank →
        r.Grammatical → q.rank ≤ r.precedence.rank → (join l r).Grammatical))
    {operand : Rule} (hoperand : trees operand = Spelled next)
    (h : (Form.level operand (.symbol symbol)).Means trees ts) : Spelled q ts := by
  have hoperand (us : List Token) (h : trees operand us) : Spelled next us := hoperand ▸ h
  obtain ⟨first, _, hfirst, ⟨parts, hparts, rfl⟩, rfl⟩ := h
  induction parts generalizing first with
  | nil =>
    rw [List.flatten_nil, List.append_nil]
    exact (hoperand _ hfirst).mono (Nat.le_of_lt hnext)
  | cons part parts ih =>
    obtain ⟨⟨_, us, rfl, hus, rfl⟩, hrest⟩ := List.forall_mem_cons.mp hparts
    obtain ⟨r, hr, hle, htokens⟩ := ih us hus hrest
    obtain ⟨l, hl, hlt, rfl⟩ := hoperand _ hfirst
    obtain ⟨hspelled, hprecedence, hgrammatical⟩ := hjoin l r
    refine ⟨join l r, hgrammatical hl (Nat.lt_of_lt_of_le hnext hlt) hr hle, ?_, ?_⟩
    · exact Nat.le_of_eq (congrArg Precedence.rank hprecedence.symm)
    · rw [hspelled, htokens]
      simp

/-- A call or the access to a property after an expression. -/
theorem spelled_suffix {e : Expr} (he : e.Grammatical)
    (hle : Precedence.call.rank ≤ e.precedence.rank)
    (h : (Form.oneOf (Form.sequence [.symbol .leftParen, .rule .arguments, .symbol .rightParen])
      [Form.sequence [.symbol .dot, .name]]).Means trees us) :
    ∃ e' : Expr, e'.Grammatical ∧ Precedence.call.rank ≤ e'.precedence.rank ∧
      e'.tokens = e.tokens ++ us := by
  rcases h with ⟨_, _, rfl, ⟨_, _, ⟨args, hargs, rfl⟩, rfl, rfl⟩, rfl⟩ | ⟨_, _, rfl, ⟨name, rfl⟩, rfl⟩
  · cases hmethod : e.readsMethod with
    | false =>
      exact ⟨.call e args, ⟨⟨he, hle, hmethod⟩, hargs⟩, Nat.le_refl _, by simp [Expr.tokens]⟩
    | true =>
      -- a call of a method is a tree of its own
      cases e with
      | get o name =>
        exact ⟨.invoke o name args, ⟨he, hargs⟩, Nat.le_refl _, by simp [Expr.tokens]⟩
      | superGet name =>
        exact ⟨.superCall name args, hargs, hle, by simp [Expr.tokens]⟩
      | _ => cases hmethod
  · exact ⟨.get e name, ⟨he, hle⟩, Nat.le_refl _, by simp [Expr.tokens]⟩

/-- Calls and accesses are spelled by their trees, one behind the other. -/
theorem spelled_call (h : (rules .call).Means trees ts) : Spelled .call ts := by
  obtain ⟨first, _, hfirst, ⟨parts, hparts, rfl⟩, rfl⟩ := h
  obtain ⟨e, he, hle, htokens⟩ := Spelled.mono (p := .call) hfirst (by decide)
  rw [← htokens]
  clear hfirst htokens
  induction parts generalizing e with
  | nil => exact ⟨e, he, hle, (List.append_nil _).symm⟩
  | cons part parts ih =>
    obtain ⟨hpart, hrest⟩ := List.forall_mem_cons.mp hparts
    obtain ⟨e', he', hle', htokens⟩ := spelled_suffix he hle hpart
    have hspelled := ih hrest e' he' hle'
    rw [htokens, List.append_assoc] at hspelled
    exact hspelled

/-- An assignment is spelled by its tree. -/
theorem spelled_assignment (h : (rules .assignment).Means trees ts) : Spelled .assignment ts := by
  rcases h with ⟨target, _, htarget, ⟨_, _, ⟨name, rfl⟩, ⟨operator, _, hoperator,
    ⟨e, he, -, rfl⟩, rfl⟩, rfl⟩, rfl⟩ | hor
  · have hassigned : operator = [.symbol .assign] ∨
        ∃ op : Arithmetic, operator = [.symbol op.assigning] := by
      rcases hoperator with rfl | rfl | rfl | rfl | rfl
      · exact .inl rfl
      · exact .inr ⟨.add, rfl⟩
      · exact .inr ⟨.subtract, rfl⟩
      · exact .inr ⟨.multiply, rfl⟩
      · exact .inr ⟨.divide, rfl⟩
    rcases htarget with rfl | ⟨_, _, ⟨o, ho, hle, rfl⟩, rfl, rfl⟩
    · rcases hassigned with rfl | ⟨op, rfl⟩
      · exact ⟨.assign name e, he, Nat.le_refl _, by simp [Expr.tokens]⟩
      · exact ⟨.update name op e, he, Nat.le_refl _, by simp [Expr.tokens]⟩
    · rcases hassigned with rfl | ⟨op, rfl⟩
      · exact ⟨.set o name e, ⟨⟨ho, hle⟩, he⟩, Nat.le_refl _, by simp [Expr.tokens]⟩
      · exact ⟨.updateField o name op e, ⟨⟨ho, hle⟩, he⟩, Nat.le_refl _, by simp [Expr.tokens]⟩
  · exact Spelled.mono hor (by decide)

/-- A unary operator is spelled by its tree. -/
theorem spelled_unary (h : (rules .unary).Means trees ts) : Spelled .unary ts := by
  rcases h with ⟨_, _, rfl | rfl, ⟨e, he, hle, rfl⟩, rfl⟩ | hcall
  · exact ⟨.not e, ⟨he, hle⟩, Nat.le_refl _, rfl⟩
  · exact ⟨.negate e, ⟨he, hle⟩, Nat.le_refl _, rfl⟩
  · exact Spelled.mono hcall (by decide)

/-- What stands for itself is spelled by its tree. -/
theorem spelled_primary (h : (rules .primary).Means trees ts) : Spelled .primary ts := by
  rcases h with rfl | rfl | rfl | rfl | ⟨x, rfl⟩ | ⟨content, rfl⟩ | ⟨name, rfl⟩ |
    ⟨_, _, rfl, ⟨_, _, ⟨e, he, -, rfl⟩, rfl, rfl⟩, rfl⟩ | ⟨_, _, rfl, ⟨_, _, rfl, ⟨name, rfl⟩, rfl⟩, rfl⟩
  · exact ⟨.true_, trivial, Nat.le_refl _, rfl⟩
  · exact ⟨.false_, trivial, Nat.le_refl _, rfl⟩
  · exact ⟨.null, trivial, Nat.le_refl _, rfl⟩
  · exact ⟨.this, trivial, Nat.le_refl _, rfl⟩
  · exact ⟨.number x, trivial, Nat.le_refl _, rfl⟩
  · exact ⟨.text content, trivial, Nat.le_refl _, rfl⟩
  · exact ⟨.variable_ name, trivial, Nat.le_refl _, rfl⟩
  · exact ⟨.group e, he, Nat.le_refl _, rfl⟩
  · exact ⟨.superGet name, trivial, Nat.le_refl _, rfl⟩

/-- Arguments are spelled by the trees of the arguments. -/
theorem arguments_spelled (h : (rules .arguments).Means trees ts) :
    ∃ args, Expr.ListGrammatical args ∧ Expr.listTokens args = ts := by
  rcases h with rfl | ⟨_, _, ⟨e, he, -, rfl⟩, ⟨parts, hparts, rfl⟩, rfl⟩
  · exact ⟨[], trivial, rfl⟩
  · suffices ∃ args, Expr.ListGrammatical (e :: args) ∧
        Expr.listTokens (e :: args) = e.tokens ++ parts.flatten by
      obtain ⟨args, hargs⟩ := this
      exact ⟨e :: args, hargs⟩
    induction parts generalizing e with
    | nil => exact ⟨[], ⟨he, trivial⟩, (List.append_nil _).symm⟩
    | cons part parts ih =>
      obtain ⟨⟨_, _, rfl, ⟨e', he', -, rfl⟩, rfl⟩, hrest⟩ := List.forall_mem_cons.mp hparts
      obtain ⟨args, hargs, htokens⟩ := ih e' he' hrest
      refine ⟨e' :: args, ⟨he, hargs⟩, ?_⟩
      rw [Expr.listTokens_cons, htokens]
      simp

/-! ### Statements -/

/-- An `else` after a statement that would take one is that of an `if` in it. -/
theorem exists_otherwise {t no : Stmt} (hopen : t.isOpen = true) (ht : t.Grammatical)
    (hno : no.Grammatical) (hstatement : no.declares = false) :
    ∃ t' : Stmt, t'.Grammatical ∧ t'.declares = false ∧
      t'.tokens = t.tokens ++ .keyword .else_ :: no.tokens := by
  induction t with
  | if_ test body otherwise ihbody ihno =>
    cases otherwise with
    | none =>
      obtain ⟨htest, hbody, hdeclares⟩ := ht
      cases hclosed : body.isOpen with
      | false =>
        exact ⟨.if_ test body (some no), ⟨htest, ⟨hbody, hdeclares, hclosed⟩, hno, hstatement⟩, rfl,
          by simp [Stmt.tokens]⟩
      | true =>
        obtain ⟨body', hbody', hdeclares', htokens⟩ := ihbody hclosed hbody
        exact ⟨.if_ test body' none, ⟨htest, hbody', hdeclares'⟩, rfl,
          by simp [Stmt.tokens, htokens]⟩
    | some other =>
      obtain ⟨htest, hbody, hother, -⟩ := ht
      obtain ⟨other', hother', hdeclares', htokens⟩ := ihno other rfl hopen hother
      exact ⟨.if_ test body (some other'), ⟨htest, hbody, hother', hdeclares'⟩, rfl,
        by simp [Stmt.tokens, htokens]⟩
  | while_ test body ihbody =>
    obtain ⟨htest, hbody, -⟩ := ht
    obtain ⟨body', hbody', hdeclares', htokens⟩ := ihbody hopen hbody
    exact ⟨.while_ test body', ⟨htest, hbody', hdeclares'⟩, rfl, by simp [Stmt.tokens, htokens]⟩
  | for_ init test step body _ ihbody =>
    cases init with
    | none =>
      obtain ⟨htest, hstep, hbody, -⟩ := ht
      obtain ⟨body', hbody', hdeclares', htokens⟩ := ihbody hopen hbody
      exact ⟨.for_ none test step body', ⟨htest, hstep, hbody', hdeclares'⟩, rfl,
        by simp [Stmt.tokens, htokens]⟩
    | some init =>
      obtain ⟨hinit, htest, hstep, hbody, -⟩ := ht
      obtain ⟨body', hbody', hdeclares', htokens⟩ := ihbody hopen hbody
      exact ⟨.for_ (some init) test step body', ⟨hinit, htest, hstep, hbody', hdeclares'⟩, rfl,
        by simp [Stmt.tokens, htokens]⟩
  | _ => cases hopen

/-- An expression that may be left out. -/
theorem optional_spelled (h : (Form.optional (.rule .expression)).Means trees ts) :
    ∃ e, Expr.OptionGrammatical e ∧ Expr.optionTokens e = ts := by
  rcases h with rfl | ⟨e, he, -, rfl⟩
  · exact ⟨none, trivial, rfl⟩
  · exact ⟨some e, he, rfl⟩

/-- Declarations are spelled by their trees, by induction on them. -/
theorem statements_spelled {parts : List (List Token)}
    (hparts : ∀ us ∈ parts, trees .declaration us) :
    ∃ body, Stmt.ListGrammatical body ∧ Stmt.listTokens body = parts.flatten := by
  induction parts with
  | nil => exact ⟨[], trivial, rfl⟩
  | cons part parts ih =>
    obtain ⟨⟨t, ht, rfl⟩, hrest⟩ := List.forall_mem_cons.mp hparts
    obtain ⟨body, hbody, htokens⟩ := ih hrest
    exact ⟨t :: body, ⟨ht, hbody⟩, by rw [Stmt.listTokens, htokens, List.flatten_cons]⟩

/-- A block is spelled by its tree. -/
theorem block_spelled (h : (rules .block).Means trees ts) : trees .block ts := by
  obtain ⟨_, _, rfl, ⟨_, _, ⟨parts, hparts, rfl⟩, rfl, rfl⟩, rfl⟩ := h
  obtain ⟨body, hbody, htokens⟩ := statements_spelled hparts
  exact ⟨body, hbody, by simp [Stmt.tokens, htokens]⟩

/-- A statement is spelled by its tree. -/
theorem statement_spelled (h : (rules .statement).Means trees ts) : trees .statement ts := by
  rcases h with hprint | hif | hwhile | hdo | hfor | hreturn | ⟨body, hbody, rfl⟩ | ⟨e, he, rfl⟩
  · obtain ⟨_, _, rfl, ⟨_, _, ⟨e, he, -, rfl⟩, rfl, rfl⟩, rfl⟩ := hprint
    exact ⟨.print e, he, rfl, by simp [Stmt.tokens]⟩
  · obtain ⟨_, _, rfl, ⟨_, _, rfl, ⟨_, _, ⟨test, htest, -, rfl⟩, ⟨_, _, rfl,
      ⟨_, _, ⟨body, hbody, hdeclares, rfl⟩, helse, rfl⟩, rfl⟩, rfl⟩, rfl⟩, rfl⟩ := hif
    have hone : (Stmt.if_ test body none).Grammatical := ⟨htest, hbody, hdeclares⟩
    rcases helse with rfl | ⟨_, _, rfl, ⟨no, hno, hdeclares', rfl⟩, rfl⟩
    · exact ⟨.if_ test body none, hone, rfl, by simp [Stmt.tokens]⟩
    · obtain ⟨t, ht, hstatement, htokens⟩ := exists_otherwise rfl hone hno hdeclares'
      exact ⟨t, ht, hstatement, by simp [htokens, Stmt.tokens]⟩
  · obtain ⟨_, _, rfl, ⟨_, _, rfl, ⟨_, _, ⟨test, htest, -, rfl⟩, ⟨_, _, rfl,
      ⟨body, hbody, hdeclares, rfl⟩, rfl⟩, rfl⟩, rfl⟩, rfl⟩ := hwhile
    exact ⟨.while_ test body, ⟨htest, hbody, hdeclares⟩, rfl, by simp [Stmt.tokens]⟩
  · obtain ⟨_, _, rfl, ⟨_, _, ⟨body, hbody, hdeclares, rfl⟩, ⟨_, _, rfl, ⟨_, _, rfl,
      ⟨_, _, ⟨test, htest, -, rfl⟩, ⟨_, _, rfl, rfl, rfl⟩, rfl⟩, rfl⟩, rfl⟩, rfl⟩, rfl⟩ := hdo
    exact ⟨.doWhile body test, ⟨htest, hbody, hdeclares⟩, rfl, by simp [Stmt.tokens]⟩
  · obtain ⟨_, _, rfl, ⟨_, _, rfl, ⟨_, _, hfirst, ⟨_, _, hsecond, ⟨_, _, rfl, ⟨_, _, hthird,
      ⟨_, _, rfl, ⟨body, hbody, hdeclares, rfl⟩, rfl⟩, rfl⟩, rfl⟩, rfl⟩, rfl⟩, rfl⟩, rfl⟩ := hfor
    obtain ⟨test, htest, rfl⟩ := optional_spelled hsecond
    obtain ⟨step, hstep, rfl⟩ := optional_spelled hthird
    rcases hfirst with ⟨name, init, hinit, rfl⟩ | ⟨e, he, rfl⟩ | rfl
    · exact ⟨.for_ (some (.let_ name init)) test step body,
        ⟨⟨hinit, rfl⟩, htest, hstep, hbody, hdeclares⟩, rfl, by
          rw [Stmt.tokens]
          simp⟩
    · exact ⟨.for_ (some (.expression e)) test step body,
        ⟨⟨he, rfl⟩, htest, hstep, hbody, hdeclares⟩, rfl, by simp [Stmt.tokens]⟩
    · exact ⟨.for_ none test step body, ⟨htest, hstep, hbody, hdeclares⟩, rfl,
        by simp [Stmt.tokens]⟩
  · obtain ⟨_, _, rfl, ⟨_, _, hvalue, rfl, rfl⟩, rfl⟩ := hreturn
    obtain ⟨e, he, rfl⟩ := optional_spelled hvalue
    exact ⟨.return_ e, he, rfl, by simp [Stmt.tokens]⟩
  · exact ⟨.block body, hbody, rfl, rfl⟩
  · exact ⟨.expression e, he, rfl, rfl⟩

/-! ### Declarations -/

/-- A variable declaration is spelled by its tree. -/
theorem variableDeclaration_spelled (h : (rules .variableDeclaration).Means trees ts) :
    trees .variableDeclaration ts := by
  obtain ⟨_, _, rfl, ⟨_, _, ⟨name, rfl⟩, ⟨_, _, hinit, rfl, rfl⟩, rfl⟩, rfl⟩ := h
  rcases hinit with rfl | ⟨_, _, rfl, ⟨e, he, -, rfl⟩, rfl⟩
  · exact ⟨name, none, trivial, rfl⟩
  · exact ⟨name, some e, he, by simp [Stmt.tokens]⟩

/-- Parameters are spelled by their names. -/
theorem names_spelled (name : String) {parts : List (List Token)}
    (hparts : ∀ us ∈ parts, (Form.sequence [.symbol .comma, .name]).Means trees us) :
    ∃ names, nameTokens (name :: names) = .name name :: parts.flatten := by
  induction parts generalizing name with
  | nil => exact ⟨[], rfl⟩
  | cons part parts ih =>
    obtain ⟨⟨_, _, rfl, ⟨name', rfl⟩, rfl⟩, hrest⟩ := List.forall_mem_cons.mp hparts
    obtain ⟨names, htokens⟩ := ih name' hrest
    refine ⟨name' :: names, ?_⟩
    rw [nameTokens_cons, htokens]
    rfl

/-- A function is spelled by its tree, but for its name. -/
theorem function_spelled (h : (rules .function).Means trees ts) : trees .function ts := by
  obtain ⟨_, _, rfl, ⟨_, _, hparams, ⟨_, _, rfl, ⟨body, hbody, rfl⟩, rfl⟩, rfl⟩, rfl⟩ := h
  rcases hparams with rfl | ⟨_, _, ⟨name, rfl⟩, ⟨parts, hparts, rfl⟩, rfl⟩
  · exact ⟨[], body, hbody, fun name => by simp [Function.tokens, Stmt.tokens, nameTokens]⟩
  · obtain ⟨names, htokens⟩ := names_spelled name hparts
    exact ⟨name :: names, body, hbody, fun _ => by simp [Function.tokens, Stmt.tokens, htokens]⟩

/-- Methods are spelled by their trees, by induction on them. -/
theorem methods_spelled {parts : List (List Token)} (hparts : ∀ us ∈ parts,
    (Form.sequence [.keyword .def_, .name, .rule .function]).Means trees us) :
    ∃ methods, Function.ListGrammatical methods ∧
      Function.listTokens methods = parts.flatten := by
  induction parts with
  | nil => exact ⟨[], trivial, rfl⟩
  | cons part parts ih =>
    obtain ⟨⟨_, _, rfl, ⟨_, _, ⟨name, rfl⟩, ⟨params, body, hbody, hfunction⟩, rfl⟩, rfl⟩, hrest⟩ :=
      List.forall_mem_cons.mp hparts
    obtain ⟨methods, hmethods, htokens⟩ := ih hrest
    refine ⟨⟨name, params, body⟩ :: methods, ⟨hbody, hmethods⟩, ?_⟩
    rw [Function.listTokens, hfunction, htokens]
    simp

/-- A declaration is spelled by its tree. -/
theorem declaration_spelled (h : (rules .declaration).Means trees ts) : trees .declaration ts := by
  rcases h with hclass | hdef | ⟨name, init, hinit, rfl⟩ | ⟨t, ht, -, rfl⟩
  · obtain ⟨_, _, rfl, ⟨_, _, ⟨name, rfl⟩, ⟨_, _, hparent, ⟨_, _, rfl, ⟨_, _, ⟨parts, hparts, rfl⟩,
      rfl, rfl⟩, rfl⟩, rfl⟩, rfl⟩, rfl⟩ := hclass
    obtain ⟨methods, hmethods, htokens⟩ := methods_spelled hparts
    rcases hparent with rfl | ⟨_, _, rfl, ⟨parent, rfl⟩, rfl⟩
    · exact ⟨.class_ name none methods, hmethods, by simp [Stmt.tokens, htokens]⟩
    · exact ⟨.class_ name (some parent) methods, hmethods, by simp [Stmt.tokens, htokens]⟩
  · obtain ⟨_, _, rfl, ⟨_, _, ⟨name, rfl⟩, ⟨params, body, hbody, hfunction⟩, rfl⟩, rfl⟩ := hdef
    exact ⟨.def_ ⟨name, params, body⟩, hbody, by rw [Stmt.tokens, hfunction]; rfl⟩
  · exact ⟨.let_ name init, hinit, rfl⟩
  · exact ⟨t, ht, rfl⟩

/-- The trees are a meaning of the rules. -/
theorem trees_of_rules : ∀ r ts, (rules r).Means trees ts → trees r ts
  | .program, ts, h => by
    obtain ⟨parts, hparts, rfl⟩ := h
    obtain ⟨body, hbody, htokens⟩ := statements_spelled hparts
    exact ⟨body, htokens, hbody⟩
  | .declaration, _, h => declaration_spelled h
  | .variableDeclaration, _, h => variableDeclaration_spelled h
  | .function, _, h => function_spelled h
  | .block, _, h => block_spelled h
  | .statement, _, h => statement_spelled h
  | .expressionStatement, _, h => by
    obtain ⟨_, _, ⟨e, he, -, rfl⟩, rfl, rfl⟩ := h
    exact ⟨e, he, rfl⟩
  | .expression, _, h => h
  | .assignment, _, h => spelled_assignment h
  | .either, _, h => spelled_right (by decide) .either
      (fun l r => ⟨rfl, rfl, fun hl hlt hr hle => ⟨⟨hl, hlt⟩, hr, hle⟩⟩) rfl h
  | .both, _, h => spelled_right (by decide) .both
      (fun l r => ⟨rfl, rfl, fun hl hlt hr hle => ⟨⟨hl, hlt⟩, hr, hle⟩⟩) rfl h
  | .equality, _, h => by
    refine spelled_left (by decide) ?_ rfl h
    rintro us (rfl | rfl)
    · exact ⟨.equal, rfl, rfl⟩
    · exact ⟨.notEqual, rfl, rfl⟩
  | .comparison, _, h => by
    refine spelled_left (by decide) ?_ rfl h
    rintro us (rfl | rfl | rfl | rfl)
    · exact ⟨.greater, rfl, rfl⟩
    · exact ⟨.greaterEqual, rfl, rfl⟩
    · exact ⟨.less, rfl, rfl⟩
    · exact ⟨.lessEqual, rfl, rfl⟩
  | .term, _, h => by
    refine spelled_left (by decide) ?_ rfl h
    rintro us (rfl | rfl)
    · exact ⟨.arithmetic .add, rfl, rfl⟩
    · exact ⟨.arithmetic .subtract, rfl, rfl⟩
  | .factor, _, h => by
    refine spelled_left (by decide) ?_ rfl h
    rintro us (rfl | rfl)
    · exact ⟨.arithmetic .multiply, rfl, rfl⟩
    · exact ⟨.arithmetic .divide, rfl, rfl⟩
  | .unary, _, h => spelled_unary h
  | .call, _, h => spelled_call h
  | .arguments, _, h => arguments_spelled h
  | .primary, _, h => spelled_primary h

/-! ### What a tree spells is derived -/

/-- The rule for the expressions of a precedence. -/
def ruleOf : Precedence → Rule
  | .assignment => .assignment
  | .or => .either
  | .and => .both
  | .equality => .equality
  | .comparison => .comparison
  | .term => .term
  | .factor => .factor
  | .unary => .unary
  | .call => .call
  | .primary => .primary

section Levels

variable {r operand : Rule} {operators : Form} (hr : rules r = Form.level operand operators)
  {operator : List Token}
include hr

/-- An operand without an operator. -/
theorem derives_operand (h : Derives (.rule operand) ts) : Derives (.rule r) ts := by
  rw [derives_rule, hr]
  exact ⟨ts, [], h, ⟨[], List.forall_mem_nil _, rfl⟩, (List.append_nil _).symm⟩

/-- One more operand at the end. -/
theorem derives_append (hl : Derives (.rule r) ts)
    (ho : operators.Means (fun r => Derives (.rule r)) operator)
    (hu : Derives (.rule operand) us) : Derives (.rule r) (ts ++ (operator ++ us)) := by
  rw [derives_rule, hr] at hl ⊢
  obtain ⟨first, _, hfirst, ⟨parts, hparts, rfl⟩, rfl⟩ := hl
  refine ⟨first, _, hfirst, ⟨parts ++ [operator ++ us], ?_, rfl⟩, by simp⟩
  rw [List.forall_mem_append, List.forall_mem_singleton]
  exact ⟨hparts, operator, us, ho, hu, rfl⟩

/-- One more operand at the start. -/
theorem derives_prepend (hl : Derives (.rule operand) ts)
    (ho : operators.Means (fun r => Derives (.rule r)) operator)
    (hu : Derives (.rule r) us) : Derives (.rule r) (ts ++ (operator ++ us)) := by
  rw [derives_rule, hr] at hu ⊢
  obtain ⟨first, _, hfirst, ⟨parts, hparts, rfl⟩, rfl⟩ := hu
  refine ⟨ts, _, hl, ⟨(operator ++ first) :: parts, ?_, rfl⟩, by simp⟩
  exact List.forall_mem_cons.mpr ⟨⟨operator, first, ho, hfirst, rfl⟩, hparts⟩

end Levels

/-- One more call or access to a property. -/
theorem derives_suffix (h : Derives (.rule .call) ts)
    (hs : (Form.oneOf (Form.sequence [.symbol .leftParen, .rule .arguments, .symbol .rightParen])
      [Form.sequence [.symbol .dot, .name]]).Means (fun r => Derives (.rule r)) us) :
    Derives (.rule .call) (ts ++ us) := by
  rw [derives_rule] at h ⊢
  obtain ⟨first, _, hfirst, ⟨parts, hparts, rfl⟩, rfl⟩ := h
  refine ⟨first, _, hfirst, ⟨parts ++ [us], ?_, rfl⟩, by simp⟩
  rw [List.forall_mem_append, List.forall_mem_singleton]
  exact ⟨hparts, hs⟩

/-- What one level derives, the level that binds more loosely derives. -/
theorem derives_of_next {p : Precedence} (h : Derives (.rule (ruleOf p.next)) ts) :
    Derives (.rule (ruleOf p)) ts := by
  cases p with
  | assignment => exact derives_rule.mpr (.inr h)
  | or | and | equality | comparison | term | factor => exact derives_operand rfl h
  | unary => exact derives_rule.mpr (.inr h)
  | call =>
    exact derives_rule.mpr ⟨ts, [], h, ⟨[], List.forall_mem_nil _, rfl⟩, (List.append_nil _).symm⟩
  | primary => exact h

/-- The rule for a precedence derives what binds tighter. -/
theorem Derives.mono {p q : Precedence} (h : Derives (.rule (ruleOf q)) ts)
    (hle : p.rank ≤ q.rank) : Derives (.rule (ruleOf p)) ts := by
  obtain ⟨n, hn⟩ := Nat.exists_eq_add_of_le hle
  induction n generalizing p with
  | zero =>
    obtain rfl : q = p := by cases p <;> cases q <;> first | rfl | cases hn
    exact h
  | succ n ih =>
    have hnext : p.next.rank = p.rank + 1 := by
      cases p <;> first | rfl | (cases q <;> simp [Precedence.rank] at hn <;> omega)
    exact derives_of_next (ih (by omega) (by omega))

/-- Arguments are derived as one and the others behind commas. -/
theorem derives_nonempty_arguments {e : Expr} {args : List Expr}
    (h : ∀ a ∈ e :: args, Derives (.rule .assignment) a.tokens) :
    ∃ parts : List (List Token), (∀ us ∈ parts, (Form.sequence [.symbol .comma,
      .rule .expression]).Means (fun r => Derives (.rule r)) us) ∧
      Expr.listTokens (e :: args) = e.tokens ++ parts.flatten := by
  induction args generalizing e with
  | nil => exact ⟨[], List.forall_mem_nil _, (List.append_nil _).symm⟩
  | cons e' args ih =>
    obtain ⟨-, hrest⟩ := List.forall_mem_cons.mp h
    obtain ⟨parts, hparts, htokens⟩ := ih hrest
    refine ⟨(.symbol .comma :: e'.tokens) :: parts, ?_, ?_⟩
    · exact List.forall_mem_cons.mpr ⟨⟨_, _, rfl, derives_rule.mpr (hrest e' (by simp)), rfl⟩, hparts⟩
    · rw [Expr.listTokens_cons, htokens]
      simp

/-- Arguments are derived, if there are any. -/
theorem derives_arguments {args : List Expr}
    (h : ∀ a ∈ args, Derives (.rule .assignment) a.tokens) :
    Derives (.rule .arguments) (Expr.listTokens args) := by
  cases args with
  | nil => exact derives_rule.mpr (.inl rfl)
  | cons e args =>
    obtain ⟨parts, hparts, htokens⟩ := derives_nonempty_arguments h
    rw [htokens]
    exact derives_rule.mpr (.inr ⟨_, _, derives_rule.mpr (h e (by simp)), ⟨parts, hparts, rfl⟩, rfl⟩)

/-- A binary operator stands where its level has operators. -/
theorem level_of_binary (op : BinaryOp) : ∃ operators,
    rules (ruleOf op.precedence) = Form.level (ruleOf op.precedence.next) operators ∧
      operators.Means (fun r => Derives (.rule r)) [.symbol op.symbol] := by
  rcases op with (_ | _ | _ | _) | _ | _ | _ | _ | _ | _
  · exact ⟨_, rfl, .inl rfl⟩
  · exact ⟨_, rfl, .inr rfl⟩
  · exact ⟨_, rfl, .inl rfl⟩
  · exact ⟨_, rfl, .inr rfl⟩
  · exact ⟨_, rfl, .inl rfl⟩
  · exact ⟨_, rfl, .inr rfl⟩
  · exact ⟨_, rfl, .inl rfl⟩
  · exact ⟨_, rfl, .inr (.inl rfl)⟩
  · exact ⟨_, rfl, .inr (.inr (.inl rfl))⟩
  · exact ⟨_, rfl, .inr (.inr (.inr rfl))⟩

/-- Every operator of an assignment is one of the five. -/
theorem means_assigning (op : Arithmetic) : (Form.oneOf (.symbol .assign) [.symbol .plusAssign,
    .symbol .minusAssign, .symbol .starAssign, .symbol .slashAssign]).Means
      (fun r => Derives (.rule r)) [.symbol op.assigning] := by
  cases op
  · exact .inr (.inl rfl)
  · exact .inr (.inr (.inl rfl))
  · exact .inr (.inr (.inr (.inl rfl)))
  · exact .inr (.inr (.inr (.inr rfl)))

/-- What holds of grammatical expressions holds of grammatical arguments. -/
theorem forall_of_listGrammatical {args : List Expr} {P : Expr → Prop}
    (h : ∀ a ∈ args, a.Grammatical → P a) (hargs : Expr.ListGrammatical args) :
    ∀ a ∈ args, P a := by
  induction args with
  | nil => exact List.forall_mem_nil _
  | cons e args ih =>
    obtain ⟨he, hrest⟩ := List.forall_mem_cons.mp h
    exact List.forall_mem_cons.mpr ⟨he hargs.1, ih hrest hargs.2⟩

/-- An expression in parentheses is derived. -/
theorem derives_group {e : Expr} (h : Derives (.rule .assignment) e.tokens) :
    Derives (.rule .primary) (Expr.group e).tokens :=
  derives_rule.mpr (.inr (.inr (.inr (.inr (.inr (.inr (.inr (.inl ⟨_, _, rfl,
    ⟨_, _, derives_rule.mpr h, rfl, rfl⟩, rfl⟩))))))))

/-- A method of the superclass is derived. -/
theorem derives_super (name : String) :
    Derives (.rule .primary) (Expr.superGet name).tokens :=
  derives_rule.mpr (.inr (.inr (.inr (.inr (.inr (.inr (.inr (.inr ⟨_, _, rfl,
    ⟨_, _, rfl, ⟨name, rfl⟩, rfl⟩, rfl⟩))))))))

/-- A call is one of the things that follow a callee. -/
theorem means_call {args : List Expr} (h : Derives (.rule .arguments) (Expr.listTokens args)) :
    (Form.oneOf (Form.sequence [.symbol .leftParen, .rule .arguments, .symbol .rightParen])
      [Form.sequence [.symbol .dot, .name]]).Means (fun r => Derives (.rule r))
      (.symbol .leftParen :: (Expr.listTokens args ++ [.symbol .rightParen])) :=
  .inl ⟨_, _, rfl, ⟨_, _, h, rfl, rfl⟩, rfl⟩

/-- An access is one of the things that follow an object. -/
theorem means_access (name : String) :
    (Form.oneOf (Form.sequence [.symbol .leftParen, .rule .arguments, .symbol .rightParen])
      [Form.sequence [.symbol .dot, .name]]).Means (fun r => Derives (.rule r))
      [.symbol .dot, .name name] :=
  .inr ⟨_, _, rfl, ⟨name, rfl⟩, rfl⟩

/-- What an expression spells, the rule for its precedence derives; a call of a method of the
superclass is a call to the grammar. -/
theorem derives_expression {e : Expr} (hg : e.Grammatical) :
    ∀ p : Precedence, p.rank ≤ Precedence.call.rank → p.rank ≤ e.precedence.rank →
      Derives (.rule (ruleOf p)) e.tokens := by
  have hassignment (e : Expr) : Precedence.assignment.rank ≤ e.precedence.rank :=
    Precedence.assignment_le _
  have hlist {args : List Expr} (h : ∀ a ∈ args, a.Grammatical → ∀ p : Precedence,
      p.rank ≤ Precedence.call.rank → p.rank ≤ a.precedence.rank →
        Derives (.rule (ruleOf p)) a.tokens) (hargs : Expr.ListGrammatical args) :
      Derives (.rule .arguments) (Expr.listTokens args) :=
    derives_arguments (forall_of_listGrammatical
      (fun a ha hg => h a ha hg .assignment (by decide) (hassignment a)) hargs)
  have hprimary {ts : List Token} (h : Derives (.rule .primary) ts) (p : Precedence)
      (hp : p.rank ≤ Precedence.call.rank) : Derives (.rule (ruleOf p)) ts :=
    Derives.mono (q := .primary) h (Nat.le_trans hp (by decide))
  induction e with
  | true_ => exact fun p hp _ => hprimary (derives_rule.mpr (.inl rfl)) p hp
  | false_ => exact fun p hp _ => hprimary (derives_rule.mpr (.inr (.inl rfl))) p hp
  | null => exact fun p hp _ => hprimary (derives_rule.mpr (.inr (.inr (.inl rfl)))) p hp
  | this => exact fun p hp _ => hprimary (derives_rule.mpr (.inr (.inr (.inr (.inl rfl))))) p hp
  | number x =>
    exact fun p hp _ => hprimary (derives_rule.mpr (.inr (.inr (.inr (.inr (.inl ⟨x, rfl⟩)))))) p hp
  | text content =>
    exact fun p hp _ => hprimary
      (derives_rule.mpr (.inr (.inr (.inr (.inr (.inr (.inl ⟨content, rfl⟩))))))) p hp
  | variable_ name =>
    exact fun p hp _ => hprimary
      (derives_rule.mpr (.inr (.inr (.inr (.inr (.inr (.inr (.inl ⟨name, rfl⟩)))))))) p hp
  | group e ih =>
    exact fun p hp _ => hprimary (derives_group (ih hg .assignment (by decide) (hassignment e))) p hp
  | superGet name => exact fun p hp _ => hprimary (derives_super name) p hp
  | negate e ih =>
    exact fun p _ hle => Derives.mono (q := .unary) (derives_rule.mpr (.inl ⟨_, _, .inr rfl,
      ih hg.1 .unary (by decide) hg.2, rfl⟩)) hle
  | not e ih =>
    exact fun p _ hle => Derives.mono (q := .unary) (derives_rule.mpr (.inl ⟨_, _, .inl rfl,
      ih hg.1 .unary (by decide) hg.2, rfl⟩)) hle
  | assign name e ih =>
    refine fun p _ hle => Derives.mono (q := .assignment) (derives_rule.mpr (.inl ?_)) hle
    exact ⟨[], _, .inl rfl, ⟨_, _, ⟨name, rfl⟩, ⟨_, _, .inl rfl,
      derives_rule.mpr (ih hg .assignment (by decide) (hassignment e)), rfl⟩, rfl⟩, rfl⟩
  | update name op e ih =>
    refine fun p _ hle => Derives.mono (q := .assignment) (derives_rule.mpr (.inl ?_)) hle
    exact ⟨[], _, .inl rfl, ⟨_, _, ⟨name, rfl⟩, ⟨_, _, means_assigning op,
      derives_rule.mpr (ih hg .assignment (by decide) (hassignment e)), rfl⟩, rfl⟩, rfl⟩
  | set o name e iho ihe =>
    obtain ⟨⟨ho, hcall⟩, he⟩ := hg
    refine fun p _ hle => Derives.mono (q := .assignment) (derives_rule.mpr (.inl ?_)) hle
    exact ⟨_, _, .inr ⟨_, _, iho ho .call (by decide) hcall, rfl, rfl⟩,
      ⟨_, _, ⟨name, rfl⟩, ⟨_, _, .inl rfl,
        derives_rule.mpr (ihe he .assignment (by decide) (hassignment e)), rfl⟩, rfl⟩,
      by simp [Expr.tokens]⟩
  | updateField o name op e iho ihe =>
    obtain ⟨⟨ho, hcall⟩, he⟩ := hg
    refine fun p _ hle => Derives.mono (q := .assignment) (derives_rule.mpr (.inl ?_)) hle
    exact ⟨_, _, .inr ⟨_, _, iho ho .call (by decide) hcall, rfl, rfl⟩,
      ⟨_, _, ⟨name, rfl⟩, ⟨_, _, means_assigning op,
        derives_rule.mpr (ihe he .assignment (by decide) (hassignment e)), rfl⟩, rfl⟩,
      by simp [Expr.tokens]⟩
  | binary op l r ihl ihr =>
    obtain ⟨⟨hl, hle⟩, hr, hlt⟩ := hg
    obtain ⟨operators, hlevel, hop⟩ := level_of_binary op
    have hunary : op.precedence.next.rank ≤ Precedence.unary.rank := by
      rw [op.rank_next]
      exact op.rank_bounds.2
    have hcall : op.precedence.next.rank ≤ Precedence.call.rank := Nat.le_trans hunary (by decide)
    have hnext : op.precedence.next.rank ≤ r.precedence.rank := by
      rw [op.rank_next]
      exact hlt
    have hself : op.precedence.rank ≤ Precedence.call.rank := by
      rw [op.rank_next] at hcall
      omega
    exact fun p _ hle' => (derives_append hlevel (ihl hl _ hself hle) hop
      (ihr hr _ hcall hnext)).mono hle'
  | both l r ihl ihr =>
    obtain ⟨⟨hl, hlt⟩, hr, hle⟩ := hg
    exact fun p _ hle' => Derives.mono (q := .and) (derives_prepend (r := .both) rfl
      (ihl hl .equality (by decide) hlt) rfl (ihr hr .and (by decide) hle)) hle'
  | either l r ihl ihr =>
    obtain ⟨⟨hl, hlt⟩, hr, hle⟩ := hg
    exact fun p _ hle' => Derives.mono (q := .or) (derives_prepend (r := .either) rfl
      (ihl hl .and (by decide) hlt) rfl (ihr hr .or (by decide) hle)) hle'
  | call f args ihf ihargs =>
    obtain ⟨⟨hf, hle, -⟩, hargs⟩ := hg
    have hcall := derives_suffix (ihf hf .call (by decide) hle) (means_call (hlist ihargs hargs))
    refine fun p _ hle' => Derives.mono (q := .call) ?_ hle'
    simpa [Expr.tokens, ruleOf] using hcall
  | get o name iho =>
    obtain ⟨ho, hle⟩ := hg
    exact fun p _ hle' => Derives.mono (q := .call)
      (derives_suffix (iho ho .call (by decide) hle) (means_access name)) hle'
  | invoke o name args iho ihargs =>
    obtain ⟨⟨ho, hle⟩, hargs⟩ := hg
    have hcall := derives_suffix (derives_suffix (iho ho .call (by decide) hle) (means_access name))
      (means_call (hlist ihargs hargs))
    refine fun p _ hle' => Derives.mono (q := .call) ?_ hle'
    simpa [Expr.tokens, ruleOf] using hcall
  | superCall name args ihargs =>
    have hcall := derives_suffix (hprimary (derives_super name) .call (by decide))
      (means_call (hlist ihargs hg))
    refine fun p hp _ => Derives.mono (q := .call) ?_ hp
    simpa [Expr.tokens, ruleOf] using hcall

/-! ### What a statement spells is derived -/

/-- The tokens of a grammatical expression are derived, by induction on it. -/
theorem derives_full {e : Expr} (hg : e.Grammatical) : Derives (.rule .expression) e.tokens :=
  derives_rule.mpr (derives_expression hg .assignment (by decide) (Precedence.assignment_le _))

/-- An expression that may be left out is derived, if it is there. -/
theorem means_optional {e : Option Expr} (hg : Expr.OptionGrammatical e) :
    (Form.optional (.rule .expression)).Means (fun r => Derives (.rule r))
      (Expr.optionTokens e) := by
  cases e with
  | none => exact .inl rfl
  | some e => exact .inr (derives_full hg)

/-- A variable declaration is derived. -/
theorem derives_variableDeclaration {name : String} {init : Option Expr}
    (hg : Expr.OptionGrammatical init) :
    Derives (.rule .variableDeclaration) (Stmt.let_ name init).tokens := by
  cases init with
  | none => exact derives_rule.mpr ⟨_, _, rfl, ⟨_, _, ⟨name, rfl⟩, ⟨[], _, .inl rfl, rfl, rfl⟩, rfl⟩, rfl⟩
  | some e =>
    exact derives_rule.mpr ⟨_, _, rfl, ⟨_, _, ⟨name, rfl⟩, ⟨_, _, .inr ⟨_, _, rfl, derives_full hg,
      rfl⟩, rfl, rfl⟩, rfl⟩, by simp [Stmt.tokens]⟩

/-- An expression statement is derived. -/
theorem derives_expressionStatement {e : Expr} (hg : e.Grammatical) :
    Derives (.rule .expressionStatement) (Stmt.expression e).tokens :=
  derives_rule.mpr ⟨_, _, derives_full hg, rfl, rfl⟩

/-- What spells a statement or declaration is derived as one. -/
def Derived (t : Stmt) : Prop :=
  t.Grammatical → Derives (.rule .declaration) t.tokens ∧
    (t.declares = false → Derives (.rule .statement) t.tokens)

/-- The declarations of a block are derived, if each of them is. -/
theorem derives_list {body : List Stmt} (h : ∀ t ∈ body, Derived t)
    (hbody : Stmt.ListGrammatical body) :
    (Form.many (.rule .declaration)).Means (fun r => Derives (.rule r)) (Stmt.listTokens body) := by
  induction body with
  | nil => exact ⟨[], List.forall_mem_nil _, rfl⟩
  | cons t body ih =>
    obtain ⟨ht, hrest⟩ := List.forall_mem_cons.mp h
    obtain ⟨parts, hparts, htokens⟩ := ih hrest hbody.2
    exact ⟨t.tokens :: parts, List.forall_mem_cons.mpr ⟨(ht hbody.1).1, hparts⟩,
      by rw [Stmt.listTokens, htokens, List.flatten_cons]⟩

/-- A block is derived, if what it declares is. -/
theorem derives_block {body : List Stmt} (h : ∀ t ∈ body, Derived t)
    (hbody : Stmt.ListGrammatical body) : Derives (.rule .block) (Stmt.block body).tokens :=
  derives_rule.mpr ⟨_, _, rfl, ⟨_, _, derives_list h hbody, rfl, rfl⟩, rfl⟩

/-- Names behind commas are derived. -/
theorem means_names (name : String) (names : List String) :
    ∃ parts : List (List Token), (∀ us ∈ parts, (Form.sequence [.symbol .comma, .name]).Means
      (fun r => Derives (.rule r)) us) ∧
      nameTokens (name :: names) = .name name :: parts.flatten := by
  induction names generalizing name with
  | nil => exact ⟨[], List.forall_mem_nil _, rfl⟩
  | cons name' names ih =>
    obtain ⟨parts, hparts, htokens⟩ := ih name'
    refine ⟨[.symbol .comma, .name name'] :: parts, ?_, ?_⟩
    · exact List.forall_mem_cons.mpr ⟨⟨_, _, rfl, ⟨name', rfl⟩, rfl⟩, hparts⟩
    · rw [nameTokens_cons, htokens]
      rfl

/-- A function is derived behind its name, if what it declares is. -/
theorem derives_function {f : Function} (h : ∀ t ∈ f.body, Derived t) (hf : f.Grammatical) :
    ∃ us, f.tokens = .name f.name :: us ∧ Derives (.rule .function) us := by
  obtain ⟨name, params, body⟩ := f
  refine ⟨_, rfl, derives_rule.mpr ⟨_, _, rfl, ⟨nameTokens params, _, ?_, ⟨_, _, rfl,
    derives_block h hf, rfl⟩, rfl⟩, by simp [Stmt.tokens, Function.body]⟩⟩
  cases params with
  | nil => exact .inl rfl
  | cons param params =>
    obtain ⟨parts, hparts, htokens⟩ := means_names param params
    rw [htokens]
    exact .inr ⟨_, _, ⟨param, rfl⟩, ⟨parts, hparts, rfl⟩, rfl⟩

/-- Methods are derived, if what they declare is. -/
theorem means_methods {fs : List Function} (h : ∀ f ∈ fs, ∀ t ∈ f.body, Derived t)
    (hfs : Function.ListGrammatical fs) :
    (Form.many (.sequence [.keyword .def_, .name, .rule .function])).Means
      (fun r => Derives (.rule r)) (Function.listTokens fs) := by
  induction fs with
  | nil => exact ⟨[], List.forall_mem_nil _, rfl⟩
  | cons f fs ih =>
    obtain ⟨hf, hrest⟩ := List.forall_mem_cons.mp h
    obtain ⟨parts, hparts, htokens⟩ := ih hrest hfs.2
    obtain ⟨us, hname, hus⟩ := derives_function hf hfs.1
    refine ⟨(.keyword .def_ :: f.tokens) :: parts, List.forall_mem_cons.mpr ⟨?_, hparts⟩, ?_⟩
    · rw [hname]
      exact ⟨_, _, rfl, ⟨_, _, ⟨_, rfl⟩, hus, rfl⟩, rfl⟩
    · rw [Function.listTokens, htokens]
      simp

/-- What a statement spells is derived. -/
theorem derived (t : Stmt) : Derived t := by
  -- a statement that is no declaration is derived as one by the last alternative
  have hstatement {t : Stmt} (h : t.Grammatical → Derives (.rule .statement) t.tokens) :
      Derived t := fun hg => ⟨derives_rule.mpr (.inr (.inr (.inr (h hg)))), fun _ => h hg⟩
  induction t with
  | let_ name init =>
    exact fun hg => ⟨derives_rule.mpr (.inr (.inr (.inl (derives_variableDeclaration hg)))),
      fun h => by cases h⟩
  | def_ name params body ih =>
    refine fun hg => ⟨?_, fun h => by cases h⟩
    obtain ⟨us, hname, hus⟩ := derives_function (f := ⟨name, params, body⟩) ih hg
    rw [Stmt.tokens, hname]
    exact derives_rule.mpr (.inr (.inl ⟨_, _, rfl, ⟨_, _, ⟨name, rfl⟩, hus, rfl⟩, rfl⟩))
  | class_ name parent methods ih =>
    refine fun hg => ⟨derives_rule.mpr (.inl ?_), fun h => by cases h⟩
    have hmethods := means_methods ih hg
    cases parent with
    | none =>
      exact ⟨_, _, rfl, ⟨_, _, ⟨name, rfl⟩, ⟨[], _, .inl rfl, ⟨_, _, rfl, ⟨_, _, hmethods, rfl, rfl⟩,
        rfl⟩, rfl⟩, rfl⟩, by simp [Stmt.tokens]⟩
    | some parent =>
      exact ⟨_, _, rfl, ⟨_, _, ⟨name, rfl⟩, ⟨_, _, .inr ⟨_, _, rfl, ⟨parent, rfl⟩, rfl⟩,
        ⟨_, _, rfl, ⟨_, _, hmethods, rfl, rfl⟩, rfl⟩, rfl⟩, rfl⟩, by simp [Stmt.tokens]⟩
  | print e =>
    refine hstatement fun hg => derives_rule.mpr (.inl ?_)
    exact ⟨_, _, rfl, ⟨_, _, derives_full hg, rfl, rfl⟩, by simp [Stmt.tokens]⟩
  | expression e =>
    exact hstatement fun hg => derives_rule.mpr
      (.inr (.inr (.inr (.inr (.inr (.inr (.inr (derives_expressionStatement hg))))))))
  | return_ e =>
    refine hstatement fun hg => derives_rule.mpr (.inr (.inr (.inr (.inr (.inr (.inl ?_))))))
    exact ⟨_, _, rfl, ⟨_, _, means_optional hg, rfl, rfl⟩, by simp [Stmt.tokens]⟩
  | if_ test body otherwise ihbody ihno =>
    refine hstatement fun hg => derives_rule.mpr (.inr (.inl ?_))
    cases otherwise with
    | none =>
      obtain ⟨htest, hbody, hdeclares⟩ := hg
      exact ⟨_, _, rfl, ⟨_, _, rfl, ⟨_, _, derives_full htest, ⟨_, _, rfl, ⟨_, _,
        (ihbody hbody).2 hdeclares, .inl rfl, rfl⟩, rfl⟩, rfl⟩, rfl⟩, by simp [Stmt.tokens]⟩
    | some no =>
      obtain ⟨htest, ⟨hbody, hdeclares, -⟩, hno, hdeclares'⟩ := hg
      exact ⟨_, _, rfl, ⟨_, _, rfl, ⟨_, _, derives_full htest, ⟨_, _, rfl, ⟨_, _,
        (ihbody hbody).2 hdeclares, .inr ⟨_, _, rfl, (ihno no rfl hno).2 hdeclares', rfl⟩, rfl⟩,
        rfl⟩, rfl⟩, rfl⟩, by simp [Stmt.tokens]⟩
  | while_ test body ihbody =>
    refine hstatement fun hg => derives_rule.mpr (.inr (.inr (.inl ?_)))
    obtain ⟨htest, hbody, hdeclares⟩ := hg
    exact ⟨_, _, rfl, ⟨_, _, rfl, ⟨_, _, derives_full htest, ⟨_, _, rfl,
      (ihbody hbody).2 hdeclares, rfl⟩, rfl⟩, rfl⟩, by simp [Stmt.tokens]⟩
  | doWhile body test ihbody =>
    refine hstatement fun hg => derives_rule.mpr (.inr (.inr (.inr (.inl ?_))))
    obtain ⟨htest, hbody, hdeclares⟩ := hg
    exact ⟨_, _, rfl, ⟨_, _, (ihbody hbody).2 hdeclares, ⟨_, _, rfl, ⟨_, _, rfl, ⟨_, _,
      derives_full htest, ⟨_, _, rfl, rfl, rfl⟩, rfl⟩, rfl⟩, rfl⟩, rfl⟩, by simp [Stmt.tokens]⟩
  | for_ init test step body ihinit ihbody =>
    refine hstatement fun hg => derives_rule.mpr (.inr (.inr (.inr (.inr (.inl ?_)))))
    have hrest (htest : Expr.OptionGrammatical test) (hstep : Expr.OptionGrammatical step)
        (hbody : body.Grammatical) (hdeclares : body.declares = false) :
        (Form.sequence [.optional (.rule .expression), .symbol .semicolon,
          .optional (.rule .expression), .symbol .rightParen, .rule .statement]).Means
          (fun r => Derives (.rule r)) (Expr.optionTokens test ++ ([.symbol .semicolon] ++
            (Expr.optionTokens step ++ ([.symbol .rightParen] ++ body.tokens)))) :=
      ⟨_, _, means_optional htest, ⟨_, _, rfl, ⟨_, _, means_optional hstep, ⟨_, _, rfl,
        (ihbody hbody).2 hdeclares, rfl⟩, rfl⟩, rfl⟩, rfl⟩
    cases init with
    | none =>
      obtain ⟨htest, hstep, hbody, hdeclares⟩ := hg
      exact ⟨_, _, rfl, ⟨_, _, rfl, ⟨_, _, .inr (.inr rfl), hrest htest hstep hbody hdeclares, rfl⟩,
        rfl⟩, by simp [Stmt.tokens]⟩
    | some init =>
      obtain ⟨⟨hinit, hstarts⟩, htest, hstep, hbody, hdeclares⟩ := hg
      have hfirst : (Form.oneOf (.rule .variableDeclaration) [.rule .expressionStatement,
          .symbol .semicolon]).Means (fun r => Derives (.rule r)) init.tokens := by
        cases init with
        | let_ name init => exact .inl (derives_variableDeclaration hinit)
        | expression e => exact .inr (.inl (derives_expressionStatement hinit))
        | _ => cases hstarts
      exact ⟨_, _, rfl, ⟨_, _, rfl, ⟨_, _, hfirst, hrest htest hstep hbody hdeclares, rfl⟩,
        rfl⟩, by simp [Stmt.tokens]⟩
  | block body ih =>
    exact hstatement fun hg => derives_rule.mpr
      (.inr (.inr (.inr (.inr (.inr (.inr (.inl (derives_block ih hg))))))))

/-- The grammar derives what grammatical programs spell, and nothing else. -/
theorem derives_iff_spells {ts : List Token} :
    Derives (.rule .program) ts ↔ ∃ body, Spells body ts := by
  refine ⟨fun h => h.means trees_of_rules, ?_⟩
  rintro ⟨body, rfl, hbody⟩
  exact derives_rule.mpr (derives_list (fun t _ => derived t) hbody)

end Grammar

/-! ### The compiler and the grammar -/

namespace Compile

open Grammar (Derives)

/-- A problem beyond the syntax has a code of its own. -/
theorem Problem.code_of_semantic {p : Problem} (h : p.isSyntactic = false) :
    p.code ∉ ["NYR-C001", "NYR-C002", "NYR-C003"] := by
  cases p with
  | lexical p => cases p <;> simp [code, Token.Problem.code]
  | expected | expectedExpression | invalidAssignmentTarget => cases h
  | _ => simp [code]

/-- The compiler accepts what the grammar derives. What it accepts is derived, and what is derived
it refuses, if at all, for a problem that is not one of the syntax. -/
theorem compile_accepts_derived (source : String) (heap : Heap) (outer : List Handle)
    (hlexed : (Token.read source).problems = #[]) :
    (∀ r h, compile source heap outer = (.function r, h) →
      Derives (.rule .program) (sourceTokens source)) ∧
    (Derives (.rule .program) (sourceTokens source) →
      ∀ es h, compile source heap outer = (.errors es, h) →
        ∃ e ∈ es, e.kind.code ∉ ["NYR-C001", "NYR-C002", "NYR-C003"]) := by
  refine ⟨fun r h hdone => ?_, fun hderives es h hfailed => ?_⟩
  · obtain ⟨body, -, hspells, -⟩ := compile_reads hdone
    exact Grammar.derives_iff_spells.mpr ⟨body, hspells⟩
  · obtain ⟨body, hspells⟩ := Grammar.derives_iff_spells.mp hderives
    obtain ⟨e, he, hsemantic⟩ := compile_accepts hlexed hspells hfailed
    exact ⟨e, he, Problem.code_of_semantic hsemantic⟩

/-- The name that tokens return, if they are nothing but that. -/
def returned? : List Token → Option String
  | [.keyword .return_, .name name, .symbol .semicolon] => some name
  | _ => none

/-- Tokens that return a name are those of the statement. -/
theorem returned?_eq_some {ts : List Token} {name : String} (h : returned? ts = some name) :
    ts = (Stmt.return_ (some (.variable_ name))).tokens := by
  unfold returned? at h
  split at h
  · exact Option.some.inj h ▸ rfl
  · cases h

/-- An assignment to a property compiles, so it is derived; a `return` at the top level is derived,
so it is refused for its place. -/
theorem assignment_derived_return_refused :
    Derives (.rule .program) (sourceTokens "a.b = c || d;") ∧
      Derives (.rule .program) (sourceTokens "return a;") ∧
      ∃ es h, compile "return a;" Heap.absent [] = (.errors es, h) ∧
        ∃ e ∈ es, e.kind.code ∉ ["NYR-C001", "NYR-C002", "NYR-C003"] := by
  have hlexed : (Token.read "a.b = c || d;").problems = #[] := by decide +kernel
  have hdone : (compile "a.b = c || d;" Heap.absent []).1.function?.isSome = true := by
    decide +kernel
  have hlexed' : (Token.read "return a;").problems = #[] := by decide +kernel
  have hread : (returned? (sourceTokens "return a;")).isSome = true := by decide +kernel
  have hfailed : (compile "return a;" Heap.absent []).1.errors?.isSome = true := by decide +kernel
  obtain ⟨r, hr⟩ := Option.isSome_iff_exists.mp hdone
  obtain ⟨name, hname⟩ := Option.isSome_iff_exists.mp hread
  obtain ⟨es, hes⟩ := Option.isSome_iff_exists.mp hfailed
  have hderived : Derives (.rule .program) (sourceTokens "return a;") := by
    rw [returned?_eq_some hname]
    exact Grammar.derives_iff_spells.mpr ⟨[.return_ (some (.variable_ name))], rfl, trivial, trivial⟩
  have hcompiled : compile "a.b = c || d;" Heap.absent [] = (.function r, _) :=
    Prod.ext (Result.function?_eq_some hr) rfl
  have hrefused : compile "return a;" Heap.absent [] = (.errors es, _) :=
    Prod.ext (Result.errors?_eq_some hes) rfl
  exact ⟨(compile_accepts_derived _ Heap.absent [] hlexed).1 r _ hcompiled, hderived, es, _, hrefused,
    (compile_accepts_derived _ Heap.absent [] hlexed').2 hderived es _ hrefused⟩

end Compile

end ScriptMachine
