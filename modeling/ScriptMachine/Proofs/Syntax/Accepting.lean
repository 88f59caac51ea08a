import ScriptMachine.Proofs.Syntax.Growing

/-!
# Accepting expressions

What a grammatical tree spells, the compiler goes past, unless a problem beyond the syntax stops it.
While the left operands of an expression are read, what is left to read is what the tree around them
spells, so each operator is found where the tree has it.
-/

namespace ScriptMachine

open Compile

namespace Compile

variable {α β : Type} {s s' : State} {ts us vs : List Token}

/-! ### Going past tokens -/

/-- An error that is not one of the syntax was reported. -/
def State.Spoilt (s : State) : Prop := ∃ e ∈ s.errors, e.kind.isSyntactic = false

/-- No error was reported, and `ts` is left to read. -/
structure State.Ahead (ts : List Token) (s : State) : Prop where
  rest : s.rest = ts
  errors : s.errors = #[]

/-- A step succeeds as `Q` says, or a problem beyond the syntax stops it or was reported. -/
def Goes (Q : α → State → Prop) : EStateM.Result Stop State α → Prop
  | .ok a s => s.Spoilt ∨ Q a s
  | .error (.problem e) s => s.Spoilt ∨ (e.kind.isSyntactic = false ∧ s.errors = #[])
  | .error (.fault _) _ => True

/-- With `ts` left to read, `x` leads to where `us` is left. -/
def Leads (ts : List Token) (x : Compiler α) (us : List Token) : Prop :=
  ∀ s, s.Ahead ts → Goes (fun _ s' => s'.Ahead us) (x s)

/-- With `ts` left to read, `x` gives `a` and leads to where `us` is left. -/
def Yields (ts : List Token) (x : Compiler α) (a : α) (us : List Token) : Prop :=
  ∀ s, s.Ahead ts → ∃ s', x s = .ok a s' ∧ s'.Ahead us

/-- A state with an error of the syntax keeps it. -/
theorem State.Spoilt.grown (h : s.Spoilt) (hg : s.Grown s') : s'.Spoilt := by
  obtain ⟨e, he, hsemantic⟩ := h
  exact ⟨e, hg.kept e he, hsemantic⟩

/-- One step leads to where the next begins. -/
theorem Leads.bind {x : Compiler α} {f : α → Compiler β} [hg : ∀ a, Grows (f a)]
    (hx : Leads ts x us) (hf : ∀ a, Leads us (f a) vs) : Leads ts (x >>= f) vs := by
  intro s hs
  have hgoes := hx s hs
  show Goes _ (EStateM.bind x f s)
  unfold EStateM.bind
  cases hxs : x s with
  | ok a s₁ =>
    rw [hxs] at hgoes
    rcases hgoes with hspoilt | hahead
    · dsimp only
      cases hfs : f a s₁ with
      | ok b s₂ => exact .inl (hspoilt.grown ((hg a).ok _ _ _ hfs))
      | error stop s₂ =>
        cases stop with
        | problem e => exact .inl (hspoilt.grown ((hg a).problem _ _ _ hfs))
        | fault => trivial
    · exact hf a s₁ hahead
  | error stop s₁ =>
    rw [hxs] at hgoes
    cases stop with
    | problem e => exact hgoes
    | fault => trivial

/-- A step that yields a value leads to where the rest goes from that value. -/
theorem Yields.bind {x : Compiler α} {a : α} {f : α → Compiler β} (hx : Yields ts x a us)
    (hf : Leads us (f a) vs) : Leads ts (x >>= f) vs := by
  intro s hs
  obtain ⟨s₁, hok, hahead⟩ := hx s hs
  show Goes _ (EStateM.bind x f s)
  rw [EStateM.bind, hok]
  exact hf s₁ hahead

/-- The same where the value is not used. -/
theorem Yields.then_ {x : Compiler α} {a : α} {y : Compiler β} (hx : Yields ts x a us)
    (hy : Leads us y vs) : Leads ts (x *> y) vs := by
  rw [seqRight_eq_bind]
  exact hx.bind hy

/-- A step that yields a value leads to what it leaves. -/
theorem Yields.leads {x : Compiler α} {a : α} (hx : Yields ts x a us) : Leads ts x us := by
  intro s hs
  obtain ⟨s₁, hok, hahead⟩ := hx s hs
  rw [hok]
  exact .inr hahead

/-- A quiet step leaves what is left to read. -/
theorem leads_quiet (x : Compiler α) [hx : Quiet x] : Leads ts x ts := by
  intro s hs
  cases hxs : x s with
  | ok a s₁ =>
    have hstill := hx.still _ _ _ hxs
    exact .inr ⟨hstill.rest.trans hs.rest, hstill.errors.trans hs.errors⟩
  | error stop s₁ =>
    cases stop with
    | problem e =>
      obtain ⟨herrors, hsemantic⟩ := hx.stopped _ _ _ hxs
      exact .inr ⟨hsemantic, herrors.trans hs.errors⟩
    | fault => trivial

/-- What follows a quiet step. -/
theorem Leads.quietly {x : Compiler α} [hx : Quiet x] {f : α → Compiler β}
    (hf : ∀ a, Leads ts (f a) us) : Leads ts (x >>= f) us := by
  intro s hs
  have hgoes := leads_quiet x s hs
  show Goes _ (EStateM.bind x f s)
  unfold EStateM.bind
  cases hxs : x s with
  | ok a s₁ =>
    have hstill := hx.still _ _ _ hxs
    exact hf a s₁ ⟨hstill.rest.trans hs.rest, hstill.errors.trans hs.errors⟩
  | error stop s₁ =>
    rw [hxs] at hgoes
    cases stop with
    | problem e => exact hgoes
    | fault => trivial

/-- A problem beyond the syntax. -/
theorem leads_failBefore {p : Problem} [hp : p.Semantic] :
    Leads ts (failBefore p : Compiler α) us := fun _ hs =>
  .inr ⟨(State.kind_errorBefore p).symm ▸ hp.semantic, hs.errors⟩

/-- A problem of the meaning leads anywhere: it is not one of the syntax. -/
theorem leads_failHere {p : Problem} [hp : p.Semantic] :
    Leads ts (failHere p : Compiler α) us := fun _ hs =>
  .inr ⟨(State.kind_errorHere p).symm ▸ hp.semantic, hs.errors⟩

/-- Giving a value back stays before the same tokens. -/
theorem leads_pure (a : α) : Leads ts (pure a : Compiler α) ts := leads_quiet _

/-! ### Looking at tokens -/

/-- A look yields what it says of every state before the tokens. -/
theorem yields_look {f : State → α} {a : α} (h : ∀ s : State, s.Ahead ts → f s = a) :
    Yields ts (look f) a ts := fun s hs => ⟨s, by rw [← h s hs]; rfl, hs⟩

/-- The next token is the first of those ahead. -/
theorem State.Ahead.peek? (hs : s.Ahead ts) : s.peek? = ts.head? := s.peek?_eq.trans (hs.rest ▸ rfl)

/-- The end is reached if none is ahead. -/
theorem State.Ahead.atEnd (hs : s.Ahead ts) : s.atEnd = ts.isEmpty := by
  rw [Bool.eq_iff_iff, State.atEnd_iff, hs.rest, List.isEmpty_iff]

/-- The room for a loop over tokens is how many are ahead. -/
theorem yields_remaining : Yields ts (look State.remaining) ts.length ts :=
  yields_look fun s hs => s.remaining_eq.trans (hs.rest ▸ rfl)

/-- A look at the next token yields the first ahead. -/
theorem yields_peek : Yields ts (look State.peek?) ts.head? ts := yields_look fun _ hs => hs.peek?

/-- Going past a token leaves those behind it. -/
theorem yields_advance {t : Token} : Yields (t :: ts) advance () ts := fun s hs =>
  ⟨{ s with pos := s.pos + 1 }, rfl, by
    rw [rest_advance (s := s) rfl, hs.rest]
    rfl, hs.errors⟩

/-- Reading a token yields the first ahead. -/
theorem yields_next? {t : Token} : Yields (t :: ts) next? (some t) ts := fun s hs => by
  obtain ⟨s', hok, hahead⟩ := yields_advance s hs
  refine ⟨s', ?_, hahead⟩
  have hpeek : s.peek? = some t := hs.peek?
  exact run_bind.mpr ⟨_, s, run_look.mpr ⟨hpeek, rfl⟩,
    run_bind.mpr ⟨_, s', hok, rfl⟩⟩

/-- A token that is looked for and found is gone past. -/
theorem yields_hit {hits : State → Bool} {t : Token} (h : ∀ s : State, s.Ahead (t :: ts) → hits s = true) :
    Yields (t :: ts) (look hits >>= fun hit => do
      if hit then advance
      return hit) true ts := fun s hs => by
  obtain ⟨s', hok, hahead⟩ := yields_advance s hs
  exact ⟨s', run_bind.mpr ⟨true, s, run_look.mpr ⟨h s hs, rfl⟩, run_bind.mpr ⟨_, s', hok, rfl⟩⟩,
    hahead⟩

/-- Where another one is, nothing is gone past. -/
theorem yields_miss {hits : State → Bool} (h : ∀ s : State, s.Ahead ts → hits s = false) :
    Yields ts (look hits >>= fun hit => do
      if hit then advance
      return hit) false ts := fun s hs =>
  ⟨s, run_bind.mpr ⟨false, s, run_look.mpr ⟨h s hs, rfl⟩, rfl⟩, hs⟩

/-- The look for a symbol does not find what is not next. -/
theorem any_isSymbol_false {symbol : Symbol} (h : ts.head? ≠ some (.symbol symbol)) :
    ts.head?.any (·.isSymbol symbol) = false := by
  rw [Bool.eq_false_iff]
  intro hany
  obtain ⟨t, ht, hsymbol⟩ := (Option.any_eq_true _ _).mp hany
  exact h (ht.trans (congrArg some (eq_symbol_of_isSymbol hsymbol)))

/-- The look for a reserved word does not find what is not next. -/
theorem any_isKeyword_false {keyword : Keyword} (h : ts.head? ≠ some (.keyword keyword)) :
    ts.head?.any (·.isKeyword keyword) = false := by
  rw [Bool.eq_false_iff]
  intro hany
  obtain ⟨t, ht, hkeyword⟩ := (Option.any_eq_true _ _).mp hany
  exact h (ht.trans (congrArg some (eq_keyword_of_isKeyword hkeyword)))

/-- A symbol that is next is read. -/
theorem yields_accept {symbol : Symbol} : Yields (.symbol symbol :: ts) (accept symbol) true ts :=
  yields_hit fun _ hs => peek?_any_isSymbol.mpr hs.peek?

/-- A symbol that is not next is not read. -/
theorem yields_accept_miss {symbol : Symbol} (h : ts.head? ≠ some (.symbol symbol)) :
    Yields ts (accept symbol) false ts :=
  yields_miss fun s hs => by rw [hs.peek?, any_isSymbol_false h]

/-- A reserved word that is next is read. -/
theorem yields_acceptKeyword {keyword : Keyword} :
    Yields (.keyword keyword :: ts) (acceptKeyword keyword) true ts :=
  yields_hit fun _ hs => peek?_any_isKeyword.mpr hs.peek?

/-- A reserved word that is not next is not read. -/
theorem yields_acceptKeyword_miss {keyword : Keyword} (h : ts.head? ≠ some (.keyword keyword)) :
    Yields ts (acceptKeyword keyword) false ts :=
  yields_miss fun s hs => by rw [hs.peek?, any_isKeyword_false h]

/-- A symbol that is next is found and left. -/
theorem yields_check {symbol : Symbol} : Yields (.symbol symbol :: ts) (check symbol) true
    (.symbol symbol :: ts) := yields_look fun _ hs => peek?_any_isSymbol.mpr hs.peek?

/-- A symbol that is not next is not found. -/
theorem yields_check_miss {symbol : Symbol} (h : ts.head? ≠ some (.symbol symbol)) :
    Yields ts (check symbol) false ts :=
  yields_look fun s hs => by rw [hs.peek?, any_isSymbol_false h]

/-- A symbol is read where it has to be. -/
theorem yields_expect {symbol : Symbol} {what : Expectation} :
    Yields (.symbol symbol :: ts) (expect symbol what) () ts := fun s hs => by
  obtain ⟨s', hok, hahead⟩ := yields_accept s hs
  exact ⟨s', run_bind.mpr ⟨true, s', hok, rfl⟩, hahead⟩

/-- A reserved word is read where it has to be. -/
theorem yields_expectKeyword {keyword : Keyword} {what : Expectation} :
    Yields (.keyword keyword :: ts) (expectKeyword keyword what) () ts := fun s hs => by
  obtain ⟨s', hok, hahead⟩ := yields_acceptKeyword s hs
  exact ⟨s', run_bind.mpr ⟨true, s', hok, rfl⟩, hahead⟩

/-- A name is read where one has to be. -/
theorem yields_expectName {name : String} {what : Expectation} :
    Yields (.name name :: ts) (expectName what) name ts := fun s hs => by
  obtain ⟨s', hok, hahead⟩ := yields_advance s hs
  have hpeek : s.peek? = some (.name name) := hs.peek?
  exact ⟨s', run_bind.mpr ⟨_, s, run_look.mpr ⟨hpeek, rfl⟩, run_bind.mpr ⟨_, s', hok, rfl⟩⟩, hahead⟩

/-- A symbol that is allowed and next is read. -/
theorem yields_acceptIf {symbol : Symbol} :
    Yields (.symbol symbol :: ts) (acceptIf true symbol) true ts := yields_accept

/-- A symbol that is not allowed or not next is not read. -/
theorem yields_acceptIf_miss {allowed : Bool} {symbol : Symbol}
    (h : allowed = true → ts.head? ≠ some (.symbol symbol)) :
    Yields ts (acceptIf allowed symbol) false ts := by
  cases allowed with
  | true => exact yields_accept_miss (h rfl)
  | false => exact fun s hs => ⟨s, rfl, hs⟩

/-- The token that assigns by an operator stands for the operator's instruction. -/
theorem compound?_assigning (op : Arithmetic) : compound? (.symbol op.assigning) = some op.instr := by
  cases op <;> rfl

/-- An assignment by an operator is read where it is allowed. -/
theorem yields_acceptCompound {op : Arithmetic} :
    Yields (.symbol op.assigning :: ts) (acceptCompound true) (some op.instr) ts := fun s hs => by
  obtain ⟨s', hok, hahead⟩ := yields_advance s hs
  have hpeek : s.peek?.bind compound? = some op.instr := by
    rw [hs.peek?]
    exact compound?_assigning op
  exact ⟨s', run_bind.mpr ⟨_, s, run_look.mpr ⟨hpeek, rfl⟩, run_bind.mpr ⟨_, s', hok, rfl⟩⟩, hahead⟩

/-- No assignment by an operator is read where none is next or allowed. -/
theorem yields_acceptCompound_miss {allowed : Bool}
    (h : allowed = true → ts.head?.bind compound? = none) :
    Yields ts (acceptCompound allowed) none ts := fun s hs => by
  cases allowed with
  | true =>
    have hpeek : s.peek?.bind compound? = none := by rw [hs.peek?, h rfl]
    exact ⟨s, run_bind.mpr ⟨_, s, run_look.mpr ⟨hpeek, rfl⟩, rfl⟩, hs⟩
  | false => exact ⟨s, rfl, hs⟩

/-- Whether an assignment follows. -/
def assigns (ts : List Token) : Bool := ts.head?.any isAssignment

/-- Where nothing is assigned, no assignment is next. -/
theorem head_ne_assign (h : assigns ts = false) : ts.head? ≠ some (.symbol .assign) := by
  intro heq
  rw [assigns, heq] at h
  cases h

/-- Where nothing is assigned, no assignment by an operator is next. -/
theorem bind_compound?_eq_none (h : assigns ts = false) : ts.head?.bind compound? = none := by
  cases ts with
  | nil => rfl
  | cons t ts =>
    have hor : (t.isSymbol .assign || (compound? t).isSome) = false := h
    rw [Bool.or_eq_false_iff, Option.isSome_eq_false_iff, Option.isNone_iff_eq_none] at hor
    exact hor.2

/-! ### What may follow -/

/-- What may follow an expression of at least the precedence `p`. -/
structure Follows (p : Precedence) (ts : List Token) : Prop where
  stops : Stops p.rank ts
  assigns : p = .assignment → assigns ts = false

/-- A symbol that is no operator may follow every expression. -/
theorem follows_symbol {p : Precedence} {symbol : Symbol} (h : bindingOf? symbol = none)
    (h' : isAssignment (.symbol symbol) = false) : Follows p (.symbol symbol :: ts) where
  stops _ q hhead hq := by
    obtain rfl : symbol = _ := Token.symbol.inj (Option.some.inj hhead)
    cases h.symm.trans hq
  assigns _ := h'

/-- What stops an expression may follow it, where no assignment is looked for. -/
theorem follows_of_stops {p : Precedence} (hp : p ≠ .assignment) (h : Stops p.rank ts) :
    Follows p ts := ⟨h, fun heq => absurd heq hp⟩

/-- A closing parenthesis may follow every expression. -/
theorem follows_rightParen {p : Precedence} : Follows p (.symbol .rightParen :: ts) :=
  follows_symbol rfl rfl

/-- A semicolon may follow every expression. -/
theorem follows_semicolon {p : Precedence} : Follows p (.symbol .semicolon :: ts) :=
  follows_symbol rfl rfl

end Compile

/-- The right operand of a binary operator is one that a prefix operator could take. -/
theorem BinaryOp.next_le_unary (op : BinaryOp) :
    op.precedence.next.rank ≤ Precedence.unary.rank := by
  rw [op.rank_next]
  exact op.rank_bounds.2

/-- What may follow the right operand of a binary operator. -/
theorem BinaryOp.follows_next (op : BinaryOp) {ts : List Token}
    (h : Stops (op.precedence.rank + 1) ts) : Follows op.precedence.next ts := by
  refine ⟨op.rank_next ▸ h, fun hno => ?_⟩
  have hbounds := op.rank_bounds
  have hnext := op.rank_next
  rw [hno] at hnext
  simp only [Precedence.rank] at hnext hbounds
  omega

/-- Whether a token can be the first one of an expression. -/
def Token.startsExpr : Token → Bool
  | .number _ | .text _ | .name _ => true
  | .keyword .true_ | .keyword .false_ | .keyword .null_ | .keyword .this_ | .keyword .super_ => true
  | .symbol .leftParen | .symbol .minus | .symbol .bang => true
  | _ => false

/-- The first token of an expression. -/
theorem Expr.exists_start (e : Expr) : ∃ t ts, e.tokens = t :: ts ∧ t.startsExpr = true := by
  induction e with
  | binary _ l _ ihl | both l _ ihl | either l _ ihl | call l _ ihl | get l _ ihl | set l _ _ ihl
  | updateField l _ _ _ ihl | invoke l _ _ ihl =>
    obtain ⟨t, ts, htokens, hstarts⟩ := ihl
    exact ⟨t, _, by rw [tokens, htokens]; rfl, hstarts⟩
  | _ => exact ⟨_, _, rfl, rfl⟩

/-- No expression starts with a token that starts none. -/
theorem Expr.head_ne {e : Expr} {t : Token} {ts : List Token} (ht : t.startsExpr = false) :
    (e.tokens ++ ts).head? ≠ some t := by
  obtain ⟨u, us, htokens, hstarts⟩ := e.exists_start
  rw [htokens]
  rintro heq
  obtain rfl : u = t := Option.some.inj heq
  cases ht.symm.trans hstarts

namespace Compile

variable {s s' : State} {ts us vs : List Token} {nested : Precedence → Compiler Unit}

/-- The parsers of nested expressions go past them. -/
def AcceptsNested (nested : Precedence → Compiler Unit) : Prop :=
  ∀ p, p.rank ≤ Precedence.unary.rank → ∀ e : Expr, e.Grammatical → p.rank ≤ e.precedence.rank →
    ∀ ts, Follows p ts → Leads (e.tokens ++ ts) (nested p) ts

/-! ### Variables and arguments -/

/-- An expression within another is gone past. -/
theorem nestedExpression_leads (hn : AcceptsNested nested) {e : Expr} (he : e.Grammatical)
    (hf : Follows .assignment ts) : Leads (e.tokens ++ ts) (nestedExpression nested) ts :=
  hn .assignment (by decide) e he (Precedence.assignment_le _) ts hf

/-- The arguments of a call are gone past, by induction on them. -/
theorem arguments_leads [∀ p, Grows (nested p)] (hn : AcceptsNested nested) {args : List Expr}
    (hargs : Expr.ListGrammatical args) (hne : args ≠ []) {room : Nat} :
    Leads (Expr.listTokens args ++ .symbol .rightParen :: ts) (arguments nested room)
      (.symbol .rightParen :: ts) := by
  induction args generalizing room with
  | nil => exact absurd rfl hne
  | cons e es ih =>
    obtain ⟨he, hes⟩ := hargs
    have hfirst : ∃ us, Follows .assignment us ∧
        Expr.listTokens (e :: es) ++ .symbol .rightParen :: ts = e.tokens ++ us ∧
        (es = [] ∧ us = .symbol .rightParen :: ts ∨
          es ≠ [] ∧ us = .symbol .comma :: (Expr.listTokens es ++ .symbol .rightParen :: ts)) := by
      cases es with
      | nil => exact ⟨_, follows_rightParen, rfl, .inl ⟨rfl, rfl⟩⟩
      | cons e' es =>
        exact ⟨_, follows_symbol rfl rfl, by simp [Expr.listTokens], .inr ⟨by simp, rfl⟩⟩
    obtain ⟨us, hfollows, htokens, hrest⟩ := hfirst
    rw [htokens]
    cases room with
    | zero => exact (nestedExpression_leads hn he hfollows).bind fun _ => leads_failBefore
    | succ room =>
      refine (nestedExpression_leads hn he hfollows).bind fun _ => ?_
      rcases hrest with ⟨-, rfl⟩ | ⟨hmore, rfl⟩
      · exact (yields_accept_miss (by simp)).bind (leads_pure _)
      · exact yields_accept.bind ((ih hes hmore).bind fun _ => leads_pure _)

/-- The arguments of a call are gone past with the parenthesis that closes them. -/
theorem argumentList_leads [∀ p, Grows (nested p)] (hn : AcceptsNested nested) {args : List Expr}
    (hargs : Expr.ListGrammatical args) :
    Leads (Expr.listTokens args ++ .symbol .rightParen :: ts) (argumentList nested) ts := by
  cases args with
  | nil => exact yields_check.bind (Leads.quietly fun _ => yields_expect.bind (leads_pure _))
  | cons e es =>
    have hhead : (Expr.listTokens (e :: es) ++ .symbol .rightParen :: ts).head? ≠
        some (.symbol .rightParen) := by
      cases es with
      | nil => exact Expr.head_ne rfl
      | cons e' es =>
        rw [Expr.listTokens_cons, List.append_assoc]
        exact Expr.head_ne rfl
    exact (yields_check_miss hhead).bind ((arguments_leads hn hargs (by simp)).bind fun _ =>
      yields_expect.bind (leads_pure _))

/-! ### Operators -/

/-- The operators that follow an operand, and the look at what follows them. -/
def operators (nested : Precedence → Compiler Unit) (p : Precedence) (fuel : Nat) :
    Compiler Unit := do
  continuations nested p (p = .assignment) fuel
  if p = .assignment && (← look fun s => s.peek?.any isAssignment) then
    failHere .invalidAssignmentTarget

/-- An expression is an operand and the operators behind it. -/
theorem expressionBody_eq (nested : Precedence → Compiler Unit) (p : Precedence) :
    expressionBody nested p = (do
      match ← next? with
      | none => failHere (.expectedExpression "end of input")
      | some t =>
        operand nested t (p = .assignment)
        let left ← look State.remaining
        operators nested p left) := rfl

/-- One operator is compiled and the others behind it. -/
theorem operators_succ (nested : Precedence → Compiler Unit) (p : Precedence) (fuel : Nat) :
    operators nested p (fuel + 1) = (do
      match ← look fun s => s.peek?.bind (trailing? p) with
      | none => operators nested p 0
      | some symbol =>
        advance
        continuation nested symbol (p = .assignment)
        operators nested p fuel) := by
  simp only [operators, continuations, bind_assoc]
  congr 1
  funext symbol
  cases symbol <;> simp

instance [∀ p, Grows (nested p)] {p : Precedence} {fuel : Nat} :
    Grows (operators nested p fuel) := by
  unfold operators
  infer_instance

/-- An operator that binds tightly enough is gone past with what it takes; the other operators
follow. -/
theorem operators_leads {p q : Precedence} {symbol : Symbol} {mid : List Token}
    (hq : bindingOf? symbol = some q) (hle : p.rank ≤ q.rank) [∀ p, Grows (nested p)]
    (hc : Leads (mid ++ ts) (continuation nested symbol (p = .assignment)) ts)
    (hk : ∀ fuel, ts.length ≤ fuel → Leads ts (operators nested p fuel) us) {fuel : Nat}
    (hfuel : (.symbol symbol :: (mid ++ ts) : List Token).length ≤ fuel) :
    Leads (.symbol symbol :: (mid ++ ts)) (operators nested p fuel) us := by
  cases fuel with
  | zero => cases hfuel
  | succ fuel =>
    rw [operators_succ]
    have hpeek : Yields (.symbol symbol :: (mid ++ ts))
        (look fun s => s.peek?.bind (trailing? p)) (some symbol)
        (.symbol symbol :: (mid ++ ts)) := yields_look fun s hs => by
      rw [hs.peek?]
      simp [trailing?, hq, hle]
    refine hpeek.bind (yields_advance.bind (hc.bind fun _ => hk fuel ?_))
    simp only [List.length_cons, List.length_append] at hfuel
    omega

/-- Where no operator binds tightly enough, none is found. -/
theorem Stops.trailing?_eq_none {p : Precedence} (h : Stops p.rank ts) :
    ts.head?.bind (trailing? p) = none := by
  cases ts with
  | nil => rfl
  | cons t ts =>
    cases htrailing : trailing? p t with
    | none => exact htrailing
    | some symbol =>
      obtain ⟨rfl, q, hq, hle⟩ := Compile.trailing?_eq_some htrailing
      exact absurd (h symbol q rfl hq) (Nat.not_lt.mpr hle)

/-- Where no operator and no assignment follows, the expression ends. -/
theorem operators_end {p : Precedence} {fuel : Nat} (hf : Follows p ts) :
    Leads ts (operators nested p fuel) ts := by
  have hnone := hf.stops.trailing?_eq_none
  have hend : Leads ts (operators nested p 0) ts := by
    have hlook : Yields ts (look fun s => s.peek?.any isAssignment) (assigns ts) ts :=
      yields_look fun s hs => by rw [hs.peek?, assigns]
    refine (leads_pure ()).bind fun _ => hlook.bind ?_
    have hno : (decide (p = .assignment) && assigns ts) = false := by
      by_cases hp : p = .assignment
      · rw [hf.assigns hp, Bool.and_false]
      · rw [decide_eq_false hp, Bool.false_and]
    rw [hno]
    exact leads_pure ()
  cases fuel with
  | zero => exact hend
  | succ fuel =>
    rw [operators_succ]
    have hpeek : Yields ts (look fun s => s.peek?.bind (trailing? p)) none ts :=
      yields_look fun s hs => by rw [hs.peek?, hnone]
    exact hpeek.bind hend

/-- What may follow an expression as the left operand of something. -/
structure Loose (p : Precedence) (e : Expr) (ts : List Token) : Prop where
  stops : Stops e.bound ts
  method : e.readsMethod = true → ts.head? ≠ some (.symbol .leftParen)
  assigns : p = .assignment → assigns ts = false

/-- An operand, and what follows it. -/
theorem operand_leads (mid : List Token) {p : Precedence} {t : Token} [∀ p, Grows (nested p)]
    (ho : Leads (mid ++ ts) (operand nested t (p = .assignment)) ts)
    (hk : ∀ fuel, ts.length ≤ fuel → Leads ts (operators nested p fuel) us) :
    Leads (t :: (mid ++ ts)) (expressionBody nested p) us := by
  rw [expressionBody_eq]
  exact yields_next?.bind (ho.bind fun _ => yields_remaining.bind (hk _ (Nat.le_refl _)))

/-! ### The forms of expressions -/

section Forms

variable {e : Expr} {args : List Expr} {name : String} {op : Arithmetic}

/-- A variable that is read is gone past. -/
theorem readVariable_leads {allowed : Bool} (h : allowed = true → assigns ts = false) :
    Leads ts (namedVariable nested name allowed) ts := by
  refine Leads.quietly fun access => ?_
  refine (yields_acceptIf_miss fun ha => head_ne_assign (h ha)).bind ?_
  exact (yields_acceptCompound_miss fun ha => bind_compound?_eq_none (h ha)).bind (leads_quiet _)

instance : Quiet (namedVariable nested name false) := by
  rw [namedVariable_false]
  infer_instance

/-- A variable that must not be assigned is read. -/
theorem receive_leads : Leads ts (namedVariable nested name false) ts := leads_quiet _

/-- The value assigned to a variable is gone past. -/
theorem assign_leads (hn : AcceptsNested nested) (he : e.Grammatical)
    (hf : Follows .assignment ts) :
    Leads (.symbol .assign :: (e.tokens ++ ts)) (namedVariable nested name true) ts := by
  refine Leads.quietly fun access => yields_acceptIf.bind ?_
  exact (nestedExpression_leads hn he hf).bind fun _ => leads_quiet _

/-- An assignment by an operator is no plain assignment. -/
theorem head_assigning_ne : (.symbol op.assigning :: ts : List Token).head? ≠
    some (.symbol .assign) := by
  cases op <;> simp [Arithmetic.assigning]

/-- The operand of an assignment by an operator is gone past. -/
theorem update_leads (hn : AcceptsNested nested) (he : e.Grammatical)
    (hf : Follows .assignment ts) :
    Leads (.symbol op.assigning :: (e.tokens ++ ts)) (namedVariable nested name true) ts := by
  refine Leads.quietly fun access => (yields_acceptIf_miss fun _ => head_assigning_ne).bind ?_
  refine yields_acceptCompound.bind (Leads.quietly fun _ => ?_)
  exact (nestedExpression_leads hn he hf).bind fun _ => leads_quiet _

/-- The value assigned to a field is gone past. -/
theorem set_leads (hn : AcceptsNested nested) (he : e.Grammatical) (hf : Follows .assignment ts) :
    Leads (.name name :: .symbol .assign :: (e.tokens ++ ts)) (property nested true) ts := by
  refine yields_expectName.bind (Leads.quietly fun constant => yields_acceptIf.bind ?_)
  exact (nestedExpression_leads hn he hf).bind fun _ => leads_quiet _

/-- The operand of an assignment by an operator to a field is gone past. -/
theorem updateField_leads (hn : AcceptsNested nested) (he : e.Grammatical)
    (hf : Follows .assignment ts) :
    Leads (.name name :: .symbol op.assigning :: (e.tokens ++ ts)) (property nested true) ts := by
  refine yields_expectName.bind (Leads.quietly fun constant => ?_)
  refine (yields_acceptIf_miss fun _ => head_assigning_ne).bind (yields_acceptCompound.bind ?_)
  refine Leads.quietly fun _ => Leads.quietly fun _ => ?_
  exact (nestedExpression_leads hn he hf).bind fun _ => leads_quiet _

/-- The name of a property that is read is gone past. -/
theorem get_leads {allowed : Bool} (h : allowed = true → assigns ts = false)
    (hcall : ts.head? ≠ some (.symbol .leftParen)) :
    Leads (.name name :: ts) (property nested allowed) ts := by
  refine yields_expectName.bind (Leads.quietly fun constant => ?_)
  refine (yields_acceptIf_miss fun ha => head_ne_assign (h ha)).bind ?_
  refine (yields_acceptCompound_miss fun ha => bind_compound?_eq_none (h ha)).bind ?_
  exact (yields_accept_miss hcall).bind (leads_quiet (emit _))

/-- A binary operator binds as tightly as its symbol. -/
theorem bindingOf?_symbol (op : BinaryOp) : bindingOf? op.symbol = some op.precedence := by
  rcases op with (_ | _ | _ | _) | _ | _ | _ | _ | _ | _ <;> rfl

/-- What a binary operator takes. -/
theorem binary_leads (hn : AcceptsNested nested) {op : BinaryOp} (he : e.Grammatical)
    (hle : op.precedence.rank < e.precedence.rank) (hs : Stops (op.precedence.rank + 1) ts)
    {allowed : Bool} : Leads (e.tokens ++ ts) (continuation nested op.symbol allowed) ts := by
  have heq : continuation nested op.symbol allowed = (do
      nested op.precedence.next
      emitAll op.code) := by
    rcases op with (_ | _ | _ | _) | _ | _ | _ | _ | _ | _ <;> rfl
  rw [heq]
  exact (hn _ op.next_le_unary e he (op.rank_next ▸ hle) ts (op.follows_next hs)).bind fun _ =>
    leads_quiet (emitAll _)

/-- The second operand of a conjunction is gone past. -/
theorem both_leads (hn : AcceptsNested nested) (he : e.Grammatical)
    (hle : Precedence.and.rank ≤ e.precedence.rank) (hs : Stops Precedence.and.rank ts)
    {allowed : Bool} : Leads (e.tokens ++ ts) (continuation nested .both allowed) ts :=
  Leads.quietly fun _ => Leads.quietly fun _ =>
    (hn .and (by decide) e he hle ts (follows_of_stops (by decide) hs)).bind fun _ => leads_quiet (patchJump _)

/-- The second operand of a disjunction is gone past. -/
theorem either_leads (hn : AcceptsNested nested) (he : e.Grammatical)
    (hle : Precedence.or.rank ≤ e.precedence.rank) (hs : Stops Precedence.or.rank ts)
    {allowed : Bool} : Leads (e.tokens ++ ts) (continuation nested .either allowed) ts :=
  Leads.quietly fun _ => Leads.quietly fun _ => Leads.quietly fun _ => Leads.quietly fun _ =>
    (hn .or (by decide) e he hle ts (follows_of_stops (by decide) hs)).bind fun _ => leads_quiet (patchJump _)

/-- The object of a method of the superclass is no token. -/
theorem receiver_leads : Leads ts (receiver nested) ts := by
  refine Leads.quietly fun outside => ?_
  dsimp only
  split
  · exact Leads.quietly fun _ => receive_leads
  · exact receive_leads

/-- A method of the superclass after its name. -/
def superMethod (nested : Precedence → Compiler Unit) (constant : UInt16) : Compiler Unit := do
  if ← accept .leftParen then
    let count ← argumentList nested
    namedVariable nested "super" false
    emit (.superInvoke constant count)
  else
    namedVariable nested "super" false
    emit (.getSuper constant)

/-- The name of a method of the superclass is gone past, and then what comes of it. -/
theorem superProperty_leads [∀ p, Grows (nested p)]
    (hf : ∀ constant, Leads ts (superMethod nested constant) us) :
    Leads (.symbol .dot :: .name name :: ts) (superProperty nested) us := by
  have hgrows (constant : UInt16) : Grows (superMethod nested constant) := by
    unfold superMethod
    infer_instance
  refine Leads.quietly fun parent => ?_
  split
  · exact leads_failBefore
  · exact leads_failBefore
  · refine yields_expect.bind (yields_expectName.bind (Leads.quietly fun constant => ?_))
    have hg (_ : Unit) := hgrows constant
    exact receive_leads.bind fun _ => hf constant

/-- A method of the superclass that is read is gone past. -/
theorem superGet_leads [∀ p, Grows (nested p)] (hcall : ts.head? ≠ some (.symbol .leftParen)) :
    Leads (.symbol .dot :: .name name :: ts) (superProperty nested) ts :=
  superProperty_leads fun _ => (yields_accept_miss hcall).bind
    (receive_leads.bind fun _ => leads_quiet (emit _))

variable [∀ p, Grows (nested p)]

/-- A call of a method of the superclass is gone past with its arguments. -/
theorem superCall_leads (hn : AcceptsNested nested) (hargs : Expr.ListGrammatical args) :
    Leads (.symbol .dot :: .name name :: .symbol .leftParen :: (Expr.listTokens args ++
      .symbol .rightParen :: ts)) (superProperty nested) ts :=
  superProperty_leads fun _ => yields_accept.bind ((argumentList_leads hn hargs).bind fun _ =>
    receive_leads.bind fun _ => leads_quiet (emit _))

/-- A call of a method is gone past with its arguments. -/
theorem invoke_leads (hn : AcceptsNested nested) (hargs : Expr.ListGrammatical args)
    {allowed : Bool} : Leads (.name name :: .symbol .leftParen :: (Expr.listTokens args ++
      .symbol .rightParen :: ts)) (property nested allowed) ts := by
  refine yields_expectName.bind (Leads.quietly fun constant => ?_)
  refine (yields_acceptIf_miss fun _ => by simp).bind ?_
  refine (yields_acceptCompound_miss fun _ => rfl).bind (yields_accept.bind ?_)
  exact (argumentList_leads hn hargs).bind fun _ => leads_quiet (emit _)

/-- A call is gone past with its arguments. -/
theorem call_leads (hn : AcceptsNested nested) (hargs : Expr.ListGrammatical args)
    {allowed : Bool} : Leads (Expr.listTokens args ++ .symbol .rightParen :: ts)
      (continuation nested .leftParen allowed) ts :=
  (argumentList_leads hn hargs).bind fun _ => leads_quiet (emit _)

end Forms

/-! ### Expressions -/

/-- Nothing binds more loosely than an assignment. -/
theorem eq_assignment {p : Precedence} (h : p.rank ≤ Precedence.assignment.rank) :
    p = .assignment := by
  cases p <;> simp [Precedence.rank] at h ⊢

/-- Nothing binds as tightly as a prefix operator. -/
theorem stops_unary (h : Stops (Precedence.unary.rank + 1) ts) : Stops Precedence.unary.rank ts :=
  fun symbol q hhead hq => by
    have hlt := h symbol q hhead hq
    cases symbol <;> simp [bindingOf?, binary?] at hq <;> subst hq <;>
      simp [Precedence.rank] at hlt ⊢

/-- What may assign, and does not, is followed by no assignment. -/
theorem Loose.allowed {p : Precedence} {e : Expr} (hl : Loose p e ts)
    (h : decide (p = .assignment) = true) : Compile.assigns ts = false :=
  hl.assigns (of_decide_eq_true h)

/-- An operator that binds more loosely than an operand may follow it. -/
theorem Loose.of_symbol {p q : Precedence} {e : Expr} {symbol : Symbol}
    (hq : bindingOf? symbol = some q) (hlt : q.rank < e.bound)
    (hparen : e.readsMethod = true → symbol ≠ .leftParen)
    (hassign : isAssignment (.symbol symbol) = false) : Loose p e (.symbol symbol :: ts) where
  stops symbol' q' hhead hq' := by
    obtain rfl : symbol = symbol' := Token.symbol.inj (Option.some.inj hhead)
    obtain rfl : q = q' := Option.some.inj (hq.symm.trans hq')
    exact hlt
  method hmethod heq := hparen hmethod (Token.symbol.inj (Option.some.inj heq))
  assigns _ := hassign

/-- An expression that binds as tightly as a call takes no operator. -/
theorem call_lt_bound {e : Expr} (h : Precedence.call.rank ≤ e.precedence.rank) :
    Precedence.call.rank < e.bound := by
  cases e with
  | binary op => exact absurd h (Nat.not_le.mpr (Nat.lt_trans op.rank_bounds.2 (by decide)))
  | _ => simp [Expr.bound, Expr.precedence, Precedence.rank] at h ⊢

/-- The left operand of a binary operator takes it not. -/
theorem binary_lt_bound {op : BinaryOp} {e : Expr}
    (h : op.precedence.rank ≤ e.precedence.rank) : op.precedence.rank < e.bound := by
  have hbounds := op.rank_bounds
  cases e <;> simp [Expr.bound, Expr.precedence, Precedence.rank] at h hbounds ⊢ <;> omega

/-- The left operand of a conjunction takes it not. -/
theorem and_lt_bound {e : Expr} (h : Precedence.and.rank < e.precedence.rank) :
    Precedence.and.rank < e.bound := by
  cases e <;> simp [Expr.bound, Expr.precedence, Precedence.rank] at h ⊢
  omega

/-- The left operand of a disjunction takes it not. -/
theorem or_lt_bound {e : Expr} (h : Precedence.or.rank < e.precedence.rank) :
    Precedence.or.rank < e.bound := by
  cases e <;> simp [Expr.bound, Expr.precedence, Precedence.rank] at h ⊢
  omega

variable [∀ p, Grows (nested p)]

/-- An expression is gone past as the left operand of what follows it. -/
theorem expressionBody_spine (hn : AcceptsNested nested) {p : Precedence} {e : Expr}
    (hg : e.Grammatical) (hp : p.rank ≤ e.precedence.rank) (hl : Loose p e ts)
    (hk : ∀ fuel, ts.length ≤ fuel → Leads ts (operators nested p fuel) us) :
    Leads (e.tokens ++ ts) (expressionBody nested p) us := by
  induction e generalizing ts us with
  | number x => exact operand_leads [] (leads_quiet (emitConstant _)) hk
  | text content =>
    exact operand_leads [] (Leads.quietly fun _ => leads_quiet (emitConstant _)) hk
  | true_ | false_ | null => exact operand_leads [] (leads_quiet (emit _)) hk
  | group e ih =>
    refine operand_leads (e.tokens ++ [.symbol .rightParen]) ?_ hk
    have he : e.Grammatical := hg
    rw [List.append_assoc]
    exact (nestedExpression_leads hn he follows_rightParen).bind fun _ =>
      yields_expect.leads
  | negate e ih | not e ih =>
    exact operand_leads e.tokens ((hn .unary (Nat.le_refl _) e hg.1 hg.2 ts
      (follows_of_stops (by decide) (stops_unary hl.stops))).bind fun _ => leads_quiet (emit _)) hk
  | variable_ name => exact operand_leads [] (readVariable_leads hl.allowed) hk
  | assign name e ih =>
    obtain rfl := eq_assignment hp
    exact operand_leads (.symbol .assign :: e.tokens)
      (assign_leads hn hg ⟨hl.stops, hl.assigns⟩) hk
  | update name op e ih =>
    obtain rfl := eq_assignment hp
    exact operand_leads (.symbol op.assigning :: e.tokens)
      (update_leads hn hg ⟨hl.stops, hl.assigns⟩) hk
  | this => exact operand_leads [] receiver_leads hk
  | superGet name =>
    exact operand_leads [.symbol .dot, .name name] (superGet_leads (hl.method rfl)) hk
  | superCall name args ih =>
    refine operand_leads (.symbol .dot :: .name name :: .symbol .leftParen ::
      (Expr.listTokens args ++ [.symbol .rightParen])) ?_ hk
    have hleads : Leads (.symbol .dot :: .name name :: .symbol .leftParen :: (Expr.listTokens args ++
      .symbol .rightParen :: ts)) (superProperty nested) ts := superCall_leads hn hg
    rw [List.cons_append, List.cons_append, List.cons_append, List.append_assoc]
    exact hleads
  | binary op l r ihl ihr =>
    obtain ⟨⟨hgl, hle⟩, hgr, hlt⟩ := hg
    rw [Expr.tokens, List.append_assoc]
    have hloose : Loose p l (.symbol op.symbol :: (r.tokens ++ ts)) :=
      .of_symbol (bindingOf?_symbol op) (binary_lt_bound hle)
        (fun _ => by rcases op with (_ | _ | _ | _) | _ | _ | _ | _ | _ | _ <;> decide)
        (by rcases op with (_ | _ | _ | _) | _ | _ | _ | _ | _ | _ <;> rfl)
    exact ihl hgl (Nat.le_trans hp hle) hloose fun fuel hfuel =>
      operators_leads (bindingOf?_symbol op) hp (binary_leads hn hgr hlt hl.stops) hk hfuel
  | both l r ihl ihr =>
    obtain ⟨⟨hgl, hlt⟩, hgr, hle⟩ := hg
    rw [Expr.tokens, List.append_assoc]
    have hloose : Loose p l (.symbol .both :: (r.tokens ++ ts)) :=
      .of_symbol rfl (and_lt_bound hlt) (fun _ => by decide) rfl
    exact ihl hgl (Nat.le_trans hp (Nat.le_of_lt hlt)) hloose fun fuel hfuel =>
      operators_leads (q := .and) rfl hp (both_leads hn hgr hle hl.stops) hk hfuel
  | either l r ihl ihr =>
    obtain ⟨⟨hgl, hlt⟩, hgr, hle⟩ := hg
    rw [Expr.tokens, List.append_assoc]
    have hloose : Loose p l (.symbol .either :: (r.tokens ++ ts)) :=
      .of_symbol rfl (or_lt_bound hlt) (fun _ => by decide) rfl
    exact ihl hgl (Nat.le_trans hp (Nat.le_of_lt hlt)) hloose fun fuel hfuel =>
      operators_leads (q := .or) rfl hp (either_leads hn hgr hle hl.stops) hk hfuel
  | call f args ihf ihargs =>
    obtain ⟨⟨hgf, hle, hmethod⟩, hargs⟩ := hg
    have htokens : (Expr.call f args).tokens ++ ts = f.tokens ++ .symbol .leftParen ::
        ((Expr.listTokens args ++ [.symbol .rightParen]) ++ ts) := by simp [Expr.tokens]
    rw [htokens]
    have hloose : Loose p f (.symbol .leftParen ::
        ((Expr.listTokens args ++ [.symbol .rightParen]) ++ ts)) :=
      .of_symbol rfl (call_lt_bound hle) (fun h => by rw [hmethod] at h; cases h) rfl
    refine ihf hgf (Nat.le_trans hp hle) hloose fun fuel hfuel =>
      operators_leads (q := .call) rfl hp ?_ hk hfuel
    rw [List.append_assoc]
    exact call_leads hn hargs
  | get o name iho =>
    obtain ⟨hgo, hle⟩ := hg
    have htokens : (Expr.get o name).tokens ++ ts = o.tokens ++ .symbol .dot ::
        ([.name name] ++ ts) := by simp [Expr.tokens]
    rw [htokens]
    exact iho hgo (Nat.le_trans hp hle)
      (.of_symbol rfl (call_lt_bound hle) (fun _ => by decide) rfl) fun fuel hfuel =>
      operators_leads (q := .call) rfl hp (get_leads hl.allowed (hl.method rfl)) hk hfuel
  | set o name e iho ihe =>
    obtain ⟨⟨hgo, hle⟩, hge⟩ := hg
    obtain rfl := eq_assignment hp
    have htokens : (Expr.set o name e).tokens ++ ts = o.tokens ++ .symbol .dot ::
        ((.name name :: .symbol .assign :: e.tokens) ++ ts) := by simp [Expr.tokens]
    rw [htokens]
    exact iho hgo (Precedence.assignment_le _)
      (.of_symbol rfl (call_lt_bound hle) (fun _ => by decide) rfl) fun fuel hfuel =>
      operators_leads (q := .call) rfl (Precedence.assignment_le _)
        (set_leads hn hge ⟨hl.stops, hl.assigns⟩) hk hfuel
  | updateField o name op e iho ihe =>
    obtain ⟨⟨hgo, hle⟩, hge⟩ := hg
    obtain rfl := eq_assignment hp
    have htokens : (Expr.updateField o name op e).tokens ++ ts = o.tokens ++ .symbol .dot ::
        ((.name name :: .symbol op.assigning :: e.tokens) ++ ts) := by simp [Expr.tokens]
    rw [htokens]
    exact iho hgo (Precedence.assignment_le _)
      (.of_symbol rfl (call_lt_bound hle) (fun _ => by decide) rfl) fun fuel hfuel =>
      operators_leads (q := .call) rfl (Precedence.assignment_le _)
        (updateField_leads hn hge ⟨hl.stops, hl.assigns⟩) hk hfuel
  | invoke o name args iho ihargs =>
    obtain ⟨⟨hgo, hle⟩, hargs⟩ := hg
    have htokens : (Expr.invoke o name args).tokens ++ ts = o.tokens ++ .symbol .dot ::
        ((.name name :: .symbol .leftParen :: (Expr.listTokens args ++ [.symbol .rightParen])) ++
          ts) := by simp [Expr.tokens]
    rw [htokens]
    refine iho hgo (Nat.le_trans hp hle)
      (.of_symbol rfl (call_lt_bound hle) (fun _ => by decide) rfl) fun fuel hfuel =>
      operators_leads (q := .call) rfl hp ?_ hk hfuel
    have hleads : Leads (.name name :: .symbol .leftParen :: (Expr.listTokens args ++
      .symbol .rightParen :: ts)) (property nested (p = .assignment)) ts := invoke_leads hn hargs
    rw [List.cons_append, List.cons_append, List.append_assoc]
    exact hleads

/-- An expression takes no operator that binds more loosely than its own. -/
theorem rank_le_bound (e : Expr) : e.precedence.rank ≤ e.bound := by
  cases e <;> simp [Expr.bound, Expr.precedence, Precedence.rank]

/-- What an expression spells, the compiler goes past. -/
theorem expressionBody_accepts (hn : AcceptsNested nested) :
    AcceptsNested (expressionBody nested) := by
  intro p hp e hg hle ts hf
  refine expressionBody_spine hn hg hle ⟨hf.stops.mono (Nat.le_trans hle (rank_le_bound e)),
    fun _ hhead => ?_, hf.assigns⟩ fun fuel _ => operators_end hf
  have hlt := hf.stops .leftParen .call hhead rfl
  exact absurd (Nat.lt_of_lt_of_le hlt hp) (by decide)

end Compile

end ScriptMachine
