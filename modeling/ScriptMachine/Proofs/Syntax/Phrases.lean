import ScriptMachine.Proofs.Syntax.Reading

/-!
# Reading expressions

An expression that the compiler has gone past is spelled by a grammatical tree, and what the
compiler did is what it does for that tree. While operators are read, the tree so far binds at
least as tightly as the operator that follows, so it can be its left operand.
-/

namespace ScriptMachine

open Compile

namespace Compile

/-- Every operator that follows has a rank below `n`. -/
def Stops (n : Nat) (ts : List Token) : Prop :=
  ∀ symbol q, ts.head? = some (.symbol symbol) → bindingOf? symbol = some q → q.rank < n

end Compile

/-- Binary operators bind between conjunctions and unary operators. -/
theorem BinaryOp.rank_bounds (op : BinaryOp) :
    Precedence.and.rank < op.precedence.rank ∧ op.precedence.rank < Precedence.unary.rank := by
  rcases op with (_ | _ | _ | _) | _ | _ | _ | _ | _ | _ <;> decide

/-- The right operand of a binary operator binds more tightly than it. -/
theorem BinaryOp.rank_next (op : BinaryOp) :
    op.precedence.next.rank = op.precedence.rank + 1 := by
  rcases op with (_ | _ | _ | _) | _ | _ | _ | _ | _ | _ <;> rfl

namespace Expr

/-- The rank below which an operator that follows an expression has to be: `&&` and `||` take
their like into the right operand, an assignment takes everything into its value. -/
def bound : Expr → Nat
  | assign .. | update .. | set .. | updateField .. => Precedence.assignment.rank
  | either .. => Precedence.or.rank
  | both .. => Precedence.and.rank
  | e => e.precedence.rank + 1

/-- An expression takes no operator that binds more tightly than the next level. -/
theorem bound_le (e : Expr) : e.bound ≤ e.precedence.rank + 1 := by
  cases e <;> simp [bound, precedence]

/-- What `&&` follows binds tighter. -/
theorem and_lt_rank {e : Expr} (h : Precedence.and.rank < e.bound) :
    Precedence.and.rank < e.precedence.rank := by
  cases e with
  | binary op => exact op.rank_bounds.1
  | _ => simp [bound, precedence, Precedence.rank] at h ⊢

/-- What `||` follows binds tighter. -/
theorem or_lt_rank {e : Expr} (h : Precedence.or.rank < e.bound) :
    Precedence.or.rank < e.precedence.rank := by
  cases e with
  | binary op => exact Nat.lt_trans (by decide) op.rank_bounds.1
  | _ => simp [bound, precedence, Precedence.rank] at h ⊢

end Expr

namespace Compile

variable {s s' s₀ s₁ s₂ : State} {nested : Precedence → Compiler Unit}

/-- One step after another succeeds. -/
theorem run_then {α β : Type} {x : Compiler α} {f : α → Compiler β} {a : α} {b : β}
    (hx : x s = .ok a s₁) (hf : f a s₁ = .ok b s') : (x >>= f) s = .ok b s' :=
  run_bind.mpr ⟨a, s₁, hx, hf⟩

/-- From `s` to `s'` the compiler read and translated an expression. -/
structure ReadAs (e : Expr) (s s' : State) : Prop where
  grammatical : e.Grammatical
  rest : s.rest = e.tokens ++ s'.rest
  run : e.translate s = .ok () s'
  loose : Stops e.bound s'.rest
  method : e.readsMethod = true → s'.rest.head? ≠ some (.symbol .leftParen)

/-- A parser reads expressions that bind at least as tightly as `p`, as far as they go. -/
def ReadsExpr (p : Precedence) (x : Compiler Unit) : Prop :=
  ∀ s s', x s = .ok () s' → ∃ e, ReadAs e s s' ∧ p.rank ≤ e.precedence.rank ∧ Stops p.rank s'.rest

/-- The parsers of nested expressions read them. Nothing asks for more than the operand of a
prefix operator. -/
def ReadsNested (nested : Precedence → Compiler Unit) : Prop :=
  ∀ p, p.rank ≤ Precedence.unary.rank → ReadsExpr p (nested p)

/-- An assignment binds most loosely. -/
theorem Precedence.assignment_le (p : Precedence) : Precedence.assignment.rank ≤ p.rank := by
  cases p <;> decide

/-- What stops more operators stops fewer. -/
theorem Stops.mono {n m : Nat} {ts : List Token} (h : Stops n ts) (hle : n ≤ m) : Stops m ts :=
  fun symbol q ht hq => Nat.lt_of_lt_of_le (h symbol q ht hq) hle

/-- No operator binds tighter than a call. -/
theorem stops_call {ts : List Token} : Stops (Precedence.call.rank + 1) ts := fun symbol q _ hq => by
  cases symbol <;> simp [bindingOf?, binary?] at hq <;> subst hq <;> decide

/-- No operator binds as tightly as an operand. -/
theorem stops_primary {ts : List Token} : Stops (Precedence.primary.rank + 1) ts :=
  stops_call.mono (by decide)

/-- An operator that follows binds tightly enough. -/
theorem trailing?_eq_some {p : Precedence} {t : Token} {symbol : Symbol}
    (h : trailing? p t = some symbol) :
    t = .symbol symbol ∧ ∃ q, bindingOf? symbol = some q ∧ p.rank ≤ q.rank := by
  unfold trailing? at h
  split at h
  · split at h
    · next hany =>
      rw [Option.some.injEq] at h
      subst h
      obtain ⟨q, hq, hle⟩ := (Option.any_eq_true _ _).mp hany
      exact ⟨rfl, q, hq, of_decide_eq_true hle⟩
    · cases h
  · cases h

/-- An operator that may not follow binds too loosely. -/
theorem trailing?_eq_none {p q : Precedence} {symbol : Symbol}
    (h : trailing? p (.symbol symbol) = none) (hq : bindingOf? symbol = some q) :
    q.rank < p.rank := by
  simpa [trailing?, hq] using h

/-- A symbol with the code of a binary operator is that operator's. -/
theorem binary?_eq_some {symbol : Symbol} {q : Precedence} {code : List Instr}
    (h : binary? symbol = some (q, code)) :
    ∃ op : BinaryOp, symbol = op.symbol ∧ q = op.precedence ∧ code = op.code := by
  cases symbol <;> simp only [binary?, reduceCtorEq, Option.some.injEq, Prod.mk.injEq] at h <;>
    obtain ⟨rfl, rfl⟩ := h
  · exact ⟨.arithmetic .add, rfl, rfl, rfl⟩
  · exact ⟨.arithmetic .subtract, rfl, rfl, rfl⟩
  · exact ⟨.arithmetic .multiply, rfl, rfl, rfl⟩
  · exact ⟨.arithmetic .divide, rfl, rfl, rfl⟩
  · exact ⟨.notEqual, rfl, rfl, rfl⟩
  · exact ⟨.equal, rfl, rfl, rfl⟩
  · exact ⟨.greater, rfl, rfl, rfl⟩
  · exact ⟨.greaterEqual, rfl, rfl, rfl⟩
  · exact ⟨.less, rfl, rfl, rfl⟩
  · exact ⟨.lessEqual, rfl, rfl, rfl⟩

/-! ### Variables and arguments -/

/-- A variable that may not be assigned is read. -/
theorem namedVariable_false (name : String) :
    namedVariable nested name false = readVariable name := by
  simp [namedVariable, readVariable, acceptIf, acceptCompound]

/-- The use of a variable, or an assignment to it. -/
theorem namedVariable_reads (hn : ReadsNested nested) {name : String} {canAssign : Bool}
    (hname : Passes (.name name) s s₁) (h : namedVariable nested name canAssign s₁ = .ok () s') :
    ∃ e, ReadAs e s s' ∧ (canAssign = false → e.precedence = .primary) := by
  obtain ⟨access, s₂, hresolve, hafter⟩ := run_bind.mp h
  obtain ⟨hit, s₃, hassign, hform⟩ := run_bind.mp hafter
  have hrest : s₂.rest = s₁.rest := Quiet.rest hresolve
  rcases run_acceptIf hassign with ⟨rfl, rfl, hpass⟩ | ⟨rfl, rfl⟩
  · obtain ⟨_, s₄, hvalue, hset⟩ := run_bind.mp hform
    obtain ⟨e, he, -, hstops⟩ := hn .assignment (by decide) s₃ s₄ hvalue
    have hlast : s'.rest = s₄.rest := Quiet.rest hset
    refine ⟨.assign name e, ⟨he.grammatical, ?_, ?_, ?_, nofun⟩, nofun⟩
    · simp [Expr.tokens, hname.1, ← hrest, hpass.1, he.rest, hlast]
    · exact run_then hname.2 (run_then hresolve (run_then hpass.2 (run_then he.run hset)))
    · exact hlast ▸ hstops
  · obtain ⟨i, s₃, hcompound, hrest'⟩ := run_bind.mp hform
    rcases run_acceptCompound hcompound with ⟨op, rfl, rfl, hpass⟩ | ⟨rfl, rfl⟩
    · obtain ⟨_, s₄, hget, h⟩ := run_bind.mp hrest'
      obtain ⟨_, s₅, hvalue, h⟩ := run_bind.mp h
      obtain ⟨_, s₆, hop, hset⟩ := run_bind.mp h
      obtain ⟨e, he, -, hstops⟩ := hn .assignment (by decide) s₄ s₅ hvalue
      have hmid : s₄.rest = s₃.rest := Quiet.rest hget
      have hlast : s'.rest = s₅.rest := (Quiet.rest hset).trans (Quiet.rest hop)
      refine ⟨.update name op e, ⟨he.grammatical, ?_, ?_, ?_, nofun⟩, nofun⟩
      · simp [Expr.tokens, hname.1, ← hrest, hpass.1, ← hmid, he.rest, hlast]
      · exact run_then hname.2 (run_then hresolve (run_then hpass.2 (run_then hget
          (run_then he.run (run_then hop hset)))))
      · exact hlast ▸ hstops
    · replace hrest' : emit access.get s₂ = .ok () s' := hrest'
      have hlast : s'.rest = s₂.rest := Quiet.rest hrest'
      refine ⟨.variable_ name, ⟨trivial, ?_, ?_, stops_primary,
      nofun⟩, fun _ => rfl⟩
      · simp [Expr.tokens, hname.1, ← hrest, hlast]
      · exact run_seqRight.mpr ⟨_, _, hname.2, run_then hresolve hrest'⟩

/-- From `s` to `s'` the compiler read and translated arguments. -/
structure ReadAsList (args : List Expr) (s s' : State) : Prop where
  grammatical : Expr.ListGrammatical args
  rest : s.rest = Expr.listTokens args ++ s'.rest
  run : Expr.listTranslate args s = .ok () s'

/-- The arguments of a call are read back, by induction on how many may follow. -/
theorem arguments_reads (hn : ReadsNested nested) {room n : Nat}
    (h : arguments nested room s = .ok n s') :
    ∃ args, args ≠ [] ∧ ReadAsList args s s' ∧ n = args.length ∧ n ≤ room := by
  induction room generalizing s n with
  | zero =>
    obtain ⟨_, s₁, -, h⟩ := run_bind.mp h
    exact (run_failBefore.mp h).elim
  | succ room ih =>
    obtain ⟨_, s₁, hfirst, h⟩ := run_bind.mp h
    obtain ⟨hit, s₂, hcomma, h⟩ := run_bind.mp h
    obtain ⟨e, he, -, -⟩ := hn .assignment (by decide) s s₁ hfirst
    rcases run_accept hcomma with ⟨rfl, hpass⟩ | ⟨rfl, -, rfl⟩
    · obtain ⟨m, s₃, hmore, h⟩ := run_bind.mp h
      obtain ⟨rfl, rfl⟩ := run_pure.mp h
      obtain ⟨args, hne, hargs, rfl, hfew⟩ := ih hmore
      obtain ⟨a, as, rfl⟩ := List.exists_cons_of_ne_nil hne
      refine ⟨e :: a :: as, by simp, ⟨⟨he.grammatical, hargs.grammatical⟩, ?_, ?_⟩, rfl,
        Nat.succ_le_succ hfew⟩
      · simp [Expr.listTokens, he.rest, hpass.1, hargs.rest]
      · exact run_then he.run (run_then hpass.2 hargs.run)
    · obtain ⟨rfl, rfl⟩ := run_pure.mp h
      exact ⟨[e], by simp, ⟨⟨he.grammatical, trivial⟩, he.rest, he.run⟩, rfl, Nat.le_add_left 1 _⟩

/-- Arguments up to their closing parenthesis. -/
theorem argumentList_reads (hn : ReadsNested nested) {count : UInt8}
    (h : argumentList nested s = .ok count s') :
    ∃ args s₁, ReadAsList args s s₁ ∧ Passes (.symbol .rightParen) s₁ s' ∧
      count = args.length.toUInt8 ∧ checkArguments args.length s = .ok () s := by
  obtain ⟨hit, s₁, hcheck, h⟩ := run_bind.mp h
  obtain ⟨-, rfl⟩ := run_check.mp hcheck
  cases hit with
  | true =>
    obtain ⟨n, s₂, hnone, hform⟩ := run_bind.mp h
    obtain ⟨_, s₃, hclose, hcount⟩ := run_bind.mp hform
    obtain ⟨rfl, rfl⟩ := run_pure.mp hnone
    obtain ⟨rfl, rfl⟩ := run_pure.mp hcount
    exact ⟨[], s, ⟨trivial, rfl, rfl⟩, run_expect hclose, rfl, rfl⟩
  | false =>
    obtain ⟨n, s₂, hargs, h⟩ := run_bind.mp h
    obtain ⟨_, s₃, hclose, hcount⟩ := run_bind.mp h
    obtain ⟨rfl, rfl⟩ := run_pure.mp hcount
    obtain ⟨args, -, hread, rfl, hfew⟩ := arguments_reads hn hargs
    refine ⟨args, s₂, hread, run_expect hclose, rfl, ?_⟩
    rw [checkArguments, if_neg (Nat.not_lt.mpr hfew)]
    rfl

/-! ### Operands -/

/-- The object of a method of the superclass is the receiver. -/
theorem receiver_run (h : receiver nested s = .ok () s') : readVariable "this" s = .ok () s' := by
  obtain ⟨empty, s₁, hlook, h⟩ := run_bind.mp h
  obtain ⟨rfl, rfl⟩ := run_look.mp hlook
  split at h
  · obtain ⟨_, _, h, -⟩ := run_bind.mp h
    exact (run_failBefore.mp h).elim
  · exact @namedVariable_false nested "this" ▸ h

/-- A method of the superclass, called or bound. -/
theorem superProperty_reads (hn : ReadsNested nested)
    (hsuper : Passes (.keyword .super_) s s₁) (h : superProperty nested s₁ = .ok () s') :
    ∃ e, ReadAs e s s' ∧ e.precedence = .primary := by
  obtain ⟨parent, s₂, hlook, h⟩ := run_bind.mp h
  obtain ⟨hparent, rfl⟩ := run_look.mp hlook
  split at h
  · exact (run_failBefore.mp h).elim
  · exact (run_failBefore.mp h).elim
  obtain ⟨_, s₂, hdot, h⟩ := run_bind.mp h
  obtain ⟨name, s₃, hname, h⟩ := run_bind.mp h
  obtain ⟨constant, s₄, hconstant, h⟩ := run_bind.mp h
  obtain ⟨_, s₅, hthis, h⟩ := run_bind.mp h
  obtain ⟨hit, s₆, hcall, h⟩ := run_bind.mp h
  have hdot := run_expect hdot
  have hname := run_expectName hname
  rw [namedVariable_false] at hthis
  have hmid : s₅.rest = s₃.rest := (Quiet.rest hthis).trans (Quiet.rest hconstant)
  rcases run_accept hcall with ⟨rfl, hpass⟩ | ⟨rfl, hother, rfl⟩
  · obtain ⟨count, s₇, hargs, h⟩ := run_bind.mp h
    obtain ⟨_, s₈, hread, hinvoke⟩ := run_bind.mp h
    obtain ⟨args, s₆', hlist, hclose, rfl, hfew⟩ := argumentList_reads hn hargs
    rw [namedVariable_false] at hread
    have hlast : s'.rest = s₇.rest := (Quiet.rest hinvoke).trans (Quiet.rest hread)
    refine ⟨.superCall name args, ⟨hlist.grammatical, ?_, ?_, stops_primary,
      nofun⟩, rfl⟩
    · simp [Expr.tokens, hsuper.1, hdot.1, hname.1, ← hmid, hpass.1, hlist.rest, hclose.1, hlast]
    · exact run_then hsuper.2 (run_then hdot.2 (run_then hname.2 (run_then hconstant
        (run_then hthis (run_then hpass.2 (run_then hfew (run_then hlist.run (run_then hclose.2
          (run_then hread hinvoke)))))))))
  · obtain ⟨_, s₆, hread, hget⟩ := run_bind.mp h
    rw [namedVariable_false] at hread
    have hlast : s'.rest = s₅.rest := (Quiet.rest hget).trans (Quiet.rest hread)
    refine ⟨.superGet name, ⟨trivial, ?_, ?_, stops_primary,
      fun _ => hlast ▸ hother⟩, rfl⟩
    · simp [Expr.tokens, hsuper.1, hdot.1, hname.1, ← hmid, hlast]
    · exact run_then hsuper.2 (run_then hdot.2 (run_then hname.2 (run_then hconstant
        (run_then hthis (run_then hread hget)))))

/-- An operand that is one token. -/
theorem readAs_token {t : Token} {x : Compiler Unit} [Quiet x] {e : Expr}
    (ht : Passes t s s₁) (h : x s₁ = .ok () s') (htokens : e.tokens = [t])
    (hbound : e.bound = Precedence.primary.rank + 1) (hgrammatical : e.Grammatical)
    (hmethod : e.readsMethod = false) (hrun : e.translate = advance *> x) : ReadAs e s s' where
  grammatical := hgrammatical
  rest := by rw [htokens, ht.1, Quiet.rest h]; rfl
  run := hrun ▸ run_seqRight.mpr ⟨_, _, ht.2, h⟩
  loose := hbound ▸ stops_primary
  method hread := by simp [hmethod] at hread

/-- An operand that follows a prefix operator. -/
theorem prefix_reads (hn : ReadsNested nested) {t : Token} {i : Instr}
    (ht : Passes t s s₁) (h : (nested .unary >>= fun _ => emit i) s₁ = .ok () s') :
    ∃ e : Expr, (e.Grammatical ∧ Precedence.unary.rank ≤ e.precedence.rank) ∧
      s.rest = t :: e.tokens ++ s'.rest ∧ Stops (Precedence.unary.rank + 1) s'.rest ∧
      (advance >>= fun _ => e.translate >>= fun _ => emit i) s = .ok () s' := by
  obtain ⟨_, s₂, hoperand, hemit⟩ := run_bind.mp h
  obtain ⟨e, he, htight, hstops⟩ := hn .unary (by decide) s₁ s₂ hoperand
  have hlast : s'.rest = s₂.rest := Quiet.rest hemit
  refine ⟨e, ⟨he.grammatical, htight⟩, ?_, hlast ▸ hstops.mono (Nat.le_succ _), ?_⟩
  · simp [ht.1, he.rest, hlast]
  · exact run_then ht.2 (run_then he.run hemit)

/-- The operand that a token starts. -/
theorem operand_reads (hn : ReadsNested nested) {t : Token} {canAssign : Bool}
    (ht : Passes t s s₁) (h : operand nested t canAssign s₁ = .ok () s') :
    ∃ e, ReadAs e s s' ∧ (canAssign = false → Precedence.unary.rank ≤ e.precedence.rank) := by
  unfold operand at h
  split at h
  · exact ⟨.number _, readAs_token ht h rfl rfl trivial rfl rfl, fun _ => Nat.le_of_ble_eq_true rfl⟩
  · exact ⟨.text _, readAs_token ht h rfl rfl trivial rfl rfl, fun _ => Nat.le_of_ble_eq_true rfl⟩
  · exact ⟨.true_, readAs_token ht h rfl rfl trivial rfl rfl, fun _ => Nat.le_of_ble_eq_true rfl⟩
  · exact ⟨.false_, readAs_token ht h rfl rfl trivial rfl rfl, fun _ => Nat.le_of_ble_eq_true rfl⟩
  · exact ⟨.null, readAs_token ht h rfl rfl trivial rfl rfl, fun _ => Nat.le_of_ble_eq_true rfl⟩
  · obtain ⟨_, s₂, hinner, hclose⟩ := run_bind.mp h
    obtain ⟨e, he, -, -⟩ := hn .assignment (by decide) s₁ s₂ hinner
    have hclose := run_expect hclose
    refine ⟨.group e, ⟨he.grammatical, ?_, ?_, stops_primary,
      nofun⟩, fun _ => Nat.le_of_ble_eq_true rfl⟩
    · simp [Expr.tokens, ht.1, he.rest, hclose.1]
    · exact run_then ht.2 (run_then he.run hclose.2)
  · obtain ⟨e, hg, hrest, hyields, hrun⟩ := prefix_reads hn ht h
    exact ⟨.negate e, ⟨hg, hrest, hrun, hyields, nofun⟩, fun _ => Nat.le_refl _⟩
  · obtain ⟨e, hg, hrest, hyields, hrun⟩ := prefix_reads hn ht h
    exact ⟨.not e, ⟨hg, hrest, hrun, hyields, nofun⟩, fun _ => Nat.le_refl _⟩
  · obtain ⟨e, he, hprimary⟩ := namedVariable_reads hn ht h
    exact ⟨e, he, fun hno => hprimary hno ▸ by decide⟩
  · exact ⟨.this, readAs_token ht (receiver_run h) rfl rfl trivial rfl rfl, fun _ => Nat.le_of_ble_eq_true rfl⟩
  · obtain ⟨e, he, hprimary⟩ := superProperty_reads hn ht h
    exact ⟨e, he, fun _ => hprimary ▸ by decide⟩
  · exact (run_failBefore.mp h).elim

/-! ### Operators -/

/-- A property of an object: an assignment to it, a call or a read. -/
theorem property_reads (hn : ReadsNested nested) {o : Expr} {canAssign : Bool}
    (ho : ReadAs o s₀ s) (htight : Precedence.call.rank ≤ o.precedence.rank)
    (hdot : Passes (.symbol .dot) s s₁) (h : property nested canAssign s₁ = .ok () s') :
    ∃ e, ReadAs e s₀ s' ∧ o.tokens.length < e.tokens.length ∧
      (canAssign = false → e.precedence = .call) := by
  obtain ⟨name, s₂, hname, h⟩ := run_bind.mp h
  obtain ⟨constant, s₃, hconstant, h⟩ := run_bind.mp h
  obtain ⟨hit, s₄, hassign, hform⟩ := run_bind.mp h
  have hname := run_expectName hname
  have hmid : s₃.rest = s₂.rest := Quiet.rest hconstant
  rcases run_acceptIf hassign with ⟨rfl, rfl, hpass⟩ | ⟨rfl, rfl⟩
  · obtain ⟨_, s₅, hvalue, hset⟩ := run_bind.mp hform
    obtain ⟨e, he, -, hstops⟩ := hn .assignment (by decide) s₄ s₅ hvalue
    have hlast : s'.rest = s₅.rest := Quiet.rest hset
    refine ⟨.set o name e, ⟨⟨⟨ho.grammatical, htight⟩, he.grammatical⟩, ?_, ?_, ?_, nofun⟩, by simp [Expr.tokens], nofun⟩
    · simp [Expr.tokens, ho.rest, hdot.1, hname.1, ← hmid, hpass.1, he.rest, hlast]
    · exact run_then ho.run (run_then hdot.2 (run_then hname.2 (run_then hconstant
        (run_then hpass.2 (run_then he.run hset)))))
    · exact hlast ▸ hstops
  · obtain ⟨i, s₄, hcompound, hrest⟩ := run_bind.mp hform
    rcases run_acceptCompound hcompound with ⟨op, rfl, rfl, hpass⟩ | ⟨rfl, rfl⟩
    · obtain ⟨_, s₅, hduplicate, h⟩ := run_bind.mp hrest
      obtain ⟨_, s₆, hget, h⟩ := run_bind.mp h
      obtain ⟨_, s₇, hvalue, h⟩ := run_bind.mp h
      obtain ⟨_, s₈, hop, hset⟩ := run_bind.mp h
      obtain ⟨e, he, -, hstops⟩ := hn .assignment (by decide) s₆ s₇ hvalue
      have hafter : s₆.rest = s₄.rest := (Quiet.rest hget).trans (Quiet.rest hduplicate)
      have hlast : s'.rest = s₇.rest := (Quiet.rest hset).trans (Quiet.rest hop)
      refine ⟨.updateField o name op e,
        ⟨⟨⟨ho.grammatical, htight⟩, he.grammatical⟩, ?_, ?_, ?_, nofun⟩, by simp [Expr.tokens], nofun⟩
      · simp [Expr.tokens, ho.rest, hdot.1, hname.1, ← hmid, hpass.1, ← hafter, he.rest, hlast]
      · exact run_then ho.run (run_then hdot.2 (run_then hname.2 (run_then hconstant
          (run_then hpass.2 (run_then hduplicate (run_then hget (run_then he.run
            (run_then hop hset))))))))
      · exact hlast ▸ hstops
    · obtain ⟨hit, s₄, hcall, hform⟩ := run_bind.mp hrest
      rcases run_accept hcall with ⟨rfl, hpass⟩ | ⟨rfl, hother, rfl⟩
      · obtain ⟨count, s₅, hargs, hinvoke⟩ := run_bind.mp hform
        obtain ⟨args, s₄', hlist, hclose, rfl, hfew⟩ := argumentList_reads hn hargs
        have hlast : s'.rest = s₅.rest := Quiet.rest hinvoke
        refine ⟨.invoke o name args,
          ⟨⟨⟨ho.grammatical, htight⟩, hlist.grammatical⟩, ?_, ?_, stops_call,
      nofun⟩, by simp [Expr.tokens], fun _ => rfl⟩
        · simp [Expr.tokens, ho.rest, hdot.1, hname.1, ← hmid, hpass.1, hlist.rest, hclose.1,
            hlast]
        · exact run_then ho.run (run_then hdot.2 (run_then hname.2 (run_then hconstant
            (run_then hpass.2 (run_then hfew (run_then hlist.run (run_then hclose.2 hinvoke)))))))
      · replace hform : emit (.getProperty constant) s₃ = .ok () s' := hform
        have hlast : s'.rest = s₃.rest := Quiet.rest hform
        refine ⟨.get o name, ⟨⟨ho.grammatical, htight⟩, ?_, ?_, stops_call,
          fun _ => hlast ▸ hother⟩, by simp [Expr.tokens], fun _ => rfl⟩
        · simp [Expr.tokens, ho.rest, hdot.1, hname.1, ← hmid, hlast]
        · exact run_then ho.run (run_then hdot.2 (run_then hname.2 (run_then hconstant hform)))

/-- What an operator does to the operand before it. -/
theorem continuation_reads (hn : ReadsNested nested) {l : Expr} {symbol : Symbol}
    {q : Precedence} {canAssign : Bool} (hl : ReadAs l s₀ s) (hq : bindingOf? symbol = some q)
    (hsymbol : Passes (.symbol symbol) s s₁)
    (h : continuation nested symbol canAssign s₁ = .ok () s') :
    ∃ e, ReadAs e s₀ s' ∧ l.tokens.length < e.tokens.length ∧
      (canAssign = false → q.rank ≤ e.precedence.rank) := by
  have hhead : s.rest.head? = some (.symbol symbol) := by rw [hsymbol.1]; rfl
  have hbound : q.rank < l.bound := hl.loose symbol q hhead hq
  have htight : q.rank ≤ l.precedence.rank :=
    Nat.le_of_lt_succ (Nat.lt_of_lt_of_le hbound l.bound_le)
  unfold continuation at h
  split at h
  · obtain ⟨count, s₂, hargs, hcall⟩ := run_bind.mp h
    obtain ⟨args, s₁', hlist, hclose, rfl, hfew⟩ := argumentList_reads hn hargs
    obtain rfl := Option.some.inj hq
    have hlast : s'.rest = s₂.rest := Quiet.rest hcall
    have hmethod : l.readsMethod = false := by
      cases hread : l.readsMethod with
      | false => rfl
      | true => exact absurd hhead (hl.method hread)
    refine ⟨.call l args, ⟨⟨⟨hl.grammatical, htight, hmethod⟩, hlist.grammatical⟩, ?_, ?_,
      stops_call, nofun⟩, by simp [Expr.tokens], fun _ => Nat.le_refl _⟩
    · simp [Expr.tokens, hl.rest, hsymbol.1, hlist.rest, hclose.1, hlast]
    · exact run_then hl.run (run_then hsymbol.2 (run_then hfew (run_then hlist.run (run_then hclose.2 hcall))))
  · obtain rfl := Option.some.inj hq
    obtain ⟨e, he, hlonger, hcall⟩ := property_reads hn hl htight hsymbol h
    exact ⟨e, he, hlonger, fun hno => hcall hno ▸ Nat.le_refl _⟩
  · obtain rfl := Option.some.inj hq
    obtain ⟨stop, s₂, hjump, hafter⟩ := run_bind.mp h
    obtain ⟨_, s₃, hpop, hoperand⟩ := run_bind.mp hafter
    obtain ⟨_, s₄, hright, hpatch⟩ := run_bind.mp hoperand
    obtain ⟨r, hr, hle, hstops⟩ := hn .and (by decide) s₃ s₄ hright
    have hmid : s₃.rest = s₁.rest := (Quiet.rest hpop).trans (Quiet.rest hjump)
    have hlast : s'.rest = s₄.rest := Quiet.rest hpatch
    refine ⟨.both l r, ⟨⟨⟨hl.grammatical, Expr.and_lt_rank hbound⟩, hr.grammatical, hle⟩, ?_, ?_,
      hlast ▸ hstops, nofun⟩, by simp [Expr.tokens], fun _ => Nat.le_refl _⟩
    · simp [Expr.tokens, hl.rest, hsymbol.1, ← hmid, hr.rest, hlast]
    · exact run_then hl.run (run_then hsymbol.2 (run_then hjump
        (run_then (run_then hpop hr.run) hpatch)))
  · obtain rfl := Option.some.inj hq
    obtain ⟨otherwise, s₂, hjump, h₂⟩ := run_bind.mp h
    obtain ⟨stop, s₃, hskip, h₃⟩ := run_bind.mp h₂
    obtain ⟨_, s₄, hpatch, h₄⟩ := run_bind.mp h₃
    obtain ⟨_, s₅, hpop, h₅⟩ := run_bind.mp h₄
    obtain ⟨_, s₆, hright, hlater⟩ := run_bind.mp h₅
    obtain ⟨r, hr, hle, hstops⟩ := hn .or (by decide) s₅ s₆ hright
    have hmid : s₅.rest = s₁.rest := (Quiet.rest hpop).trans ((Quiet.rest hpatch).trans
      ((Quiet.rest hskip).trans (Quiet.rest hjump)))
    have hlast : s'.rest = s₆.rest := Quiet.rest hlater
    refine ⟨.either l r, ⟨⟨⟨hl.grammatical, Expr.or_lt_rank hbound⟩, hr.grammatical, hle⟩, ?_, ?_,
      hlast ▸ hstops, nofun⟩, by simp [Expr.tokens], fun _ => Nat.le_refl _⟩
    · simp [Expr.tokens, hl.rest, hsymbol.1, ← hmid, hr.rest, hlast]
    · exact run_then hl.run (run_then hsymbol.2 (run_then hjump (run_then (run_pure.mpr ⟨rfl, rfl⟩)
        (run_then hskip (run_then hpatch (run_then (run_then hpop hr.run) hlater))))))
  · cases hbinary : binary? symbol with
    | some found =>
      obtain ⟨p, code⟩ := found
      simp only [hbinary] at h
      obtain ⟨op, rfl, rfl, rfl⟩ := binary?_eq_some hbinary
      have hrank : q = op.precedence := by
        simpa [bindingOf?, hbinary] using hq.symm
      subst hrank
      obtain ⟨_, s₂, hright, hcode⟩ := run_bind.mp h
      obtain ⟨r, hr, hle, hstops⟩ := hn _ (op.rank_next ▸ op.rank_bounds.2) s₁ s₂ hright
      rw [op.rank_next] at hle hstops
      have hlast : s'.rest = s₂.rest := Quiet.rest hcode
      refine ⟨.binary op l r, ⟨⟨⟨hl.grammatical, htight⟩, hr.grammatical, hle⟩, ?_, ?_,
        hlast ▸ hstops, nofun⟩, by simp [Expr.tokens], fun _ => Nat.le_refl _⟩
      · simp [Expr.tokens, hl.rest, hsymbol.1, hr.rest, hlast]
      · exact run_then hl.run (run_then hsymbol.2 (run_then hr.run hcode))
    | none => simp [bindingOf?, hbinary] at hq

/-- The operators that follow an operand. -/
theorem continuations_reads (hn : ReadsNested nested) {p : Precedence} {canAssign : Bool}
    (hp : canAssign = true → p = .assignment) {fuel : Nat} {l : Expr} (hl : ReadAs l s₀ s)
    (htight : p.rank ≤ l.precedence.rank) (hfuel : s.rest.length ≤ fuel)
    (h : continuations nested p canAssign fuel s = .ok () s') :
    ∃ e, ReadAs e s₀ s' ∧ p.rank ≤ e.precedence.rank ∧ Stops p.rank s'.rest := by
  induction fuel generalizing s l with
  | zero =>
    obtain ⟨-, rfl⟩ := run_pure.mp h
    have hnil : s.rest = [] := List.eq_nil_of_length_eq_zero (Nat.le_zero.mp hfuel)
    exact ⟨l, hl, htight, fun _ _ ht => by simp [hnil] at ht⟩
  | succ fuel ih =>
    obtain ⟨next, s₁, hlook, hafter⟩ := run_bind.mp h
    obtain ⟨hnext, rfl⟩ := run_look.mp hlook
    cases next with
    | none =>
      obtain ⟨-, rfl⟩ := run_pure.mp hafter
      refine ⟨l, hl, htight, fun symbol q ht hq => trailing?_eq_none ?_ hq⟩
      rwa [State.peek?_eq, ht, Option.bind_some] at hnext
    | some symbol =>
      obtain ⟨_, s₂, hadvance, hform⟩ := run_bind.mp hafter
      obtain ⟨_, s₃, hcontinuation, hmore⟩ := run_bind.mp hform
      obtain ⟨t, ht, htrailing⟩ := Option.bind_eq_some_iff.mp hnext
      obtain ⟨rfl, q, hq, hle⟩ := trailing?_eq_some htrailing
      have hpass := passes_of_advance hadvance ht
      obtain ⟨e, he, hlonger, hrank⟩ := continuation_reads hn hl hq hpass hcontinuation
      refine ih he ?_ ?_ hmore
      · cases canAssign with
        | true => exact hp rfl ▸ Precedence.assignment_le _
        | false => exact Nat.le_trans hle (hrank rfl)
      · have := congrArg List.length (hl.rest.symm.trans he.rest)
        simp only [List.length_append] at this
        omega

/-- An expression of at least a given precedence. -/
theorem expressionBody_reads (hn : ReadsNested nested) :
    ReadsNested (expressionBody nested) := by
  intro p hp s s' h
  obtain ⟨t, s₁, hnext, hafter⟩ := run_bind.mp h
  rcases run_next? hnext with ⟨u, rfl, hpass⟩ | ⟨rfl, -, -⟩
  · obtain ⟨_, s₂, hoperand, h₂⟩ := run_bind.mp hafter
    obtain ⟨left, s₃, hlook, h₃⟩ := run_bind.mp h₂
    obtain ⟨_, s₄, hmore, hend⟩ := run_bind.mp h₃
    obtain ⟨rfl, rfl⟩ := run_look.mp hlook
    obtain ⟨l, hl, htight⟩ := operand_reads hn hpass hoperand
    have hrank : p.rank ≤ l.precedence.rank := by
      by_cases hassign : p = .assignment
      · exact hassign ▸ Precedence.assignment_le _
      · exact Nat.le_trans hp (htight (decide_eq_false hassign))
    obtain ⟨e, he, hle, hstops⟩ := continuations_reads hn of_decide_eq_true hl hrank
      (Nat.le_of_eq s₂.remaining_eq.symm) hmore
    have hsame : s₄ = s' := by
      obtain ⟨assigns, s₅, hlook, hend⟩ := run_bind.mp hend
      obtain ⟨-, rfl⟩ := run_look.mp hlook
      split at hend
      · exact (run_failHere.mp hend).elim
      · exact (run_pure.mp hend).2
    exact hsame ▸ ⟨e, he, hle, hstops⟩
  · exact (run_failHere.mp hafter).elim

end Compile

end ScriptMachine
