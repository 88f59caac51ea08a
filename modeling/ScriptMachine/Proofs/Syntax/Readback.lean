import ScriptMachine.Proofs.Syntax.Acceptance

/-!
# Reading expressions back

A grammatical tree is the only one with its tokens. A reader that keeps the tree it reads and does
nothing else goes through the tokens the way the compiler does; what a tree spells it reads back, so
two trees with the same tokens are the one that is read. The reader may take more than the grammar
allows: nothing is said of what no grammatical tree spells.
-/

namespace ScriptMachine

open Compile

/-- What takes something off the front of tokens. -/
abbrev Reader (α : Type) := List Token → Option (α × List Token)

namespace Reader

variable {α β : Type}

/-- Reads as `r` does, and makes something of it. -/
def map (f : α → β) (r : Reader α) : Reader β := fun ts => (r ts).map fun (a, us) => (f a, us)

/-- Reads as `r` does up to a symbol, which is taken too. -/
def upTo (symbol : Symbol) (r : Reader α) : Reader α := fun ts =>
  (r ts).bind fun
    | (a, .symbol symbol' :: us) => if symbol' = symbol then some (a, us) else none
    | _ => none

/-- What is read may be changed. -/
theorem map_eq {r : Reader α} {f : α → β} {ts us : List Token} {a : α}
    (h : r ts = some (a, us)) : r.map f ts = some (f a, us) := by
  rw [map, h]
  rfl

/-- What is read up to a symbol leaves what follows it. -/
theorem upTo_eq {r : Reader α} {symbol : Symbol} {ts us : List Token} {a : α}
    (h : r ts = some (a, .symbol symbol :: us)) : r.upTo symbol ts = some (a, us) := by
  simp [upTo, h]

end Reader

/-! ### The reader -/

/-- What an assigning symbol does besides: a compound assignment computes. -/
def assigning? : Symbol → Option (Option Arithmetic)
  | .assign => some none
  | .plusAssign => some (some .add)
  | .minusAssign => some (some .subtract)
  | .starAssign => some (some .multiply)
  | .slashAssign => some (some .divide)
  | _ => none

/-- The binary operator of a symbol. -/
def binaryOp? : Symbol → Option BinaryOp
  | .plus => some (.arithmetic .add)
  | .minus => some (.arithmetic .subtract)
  | .star => some (.arithmetic .multiply)
  | .slash => some (.arithmetic .divide)
  | .equal => some .equal
  | .notEqual => some .notEqual
  | .greater => some .greater
  | .greaterEqual => some .greaterEqual
  | .less => some .less
  | .lessEqual => some .lessEqual
  | _ => none

namespace Expr

/-- An assignment to a variable. -/
def assignAs (name : String) : Option Arithmetic → Expr → Expr
  | none => .assign name
  | some op => .update name op

/-- An assignment to a property. -/
def setAs (o : Expr) (name : String) : Option Arithmetic → Expr → Expr
  | none => .set o name
  | some op => .updateField o name op

end Expr

section Reader

variable (nested : Precedence → Reader Expr) (p : Precedence)

/-- Reads arguments up to the closing parenthesis. -/
def readArguments : (fuel : Nat) → Reader (List Expr)
  | 0, _ => none
  | fuel + 1, ts => (nested .assignment ts).bind fun
    | (e, .symbol .rightParen :: us) => some ([e], us)
    | (e, .symbol .comma :: us) => (readArguments fuel).map (e :: ·) us
    | _ => none

/-- Reads the arguments of a call after its opening parenthesis. -/
def readCall : Reader (List Expr)
  | .symbol .rightParen :: ts => some ([], ts)
  | ts => readArguments nested ts.length ts

/-- Reads a call if its arguments follow, and makes `plain` of anything else. -/
def readCalled (plain : Expr) (make : List Expr → Expr) : Reader Expr
  | .symbol .leftParen :: ts => (readCall nested).map make ts
  | ts => some (plain, ts)

/-- The assignment that tokens start with, where one is allowed. -/
def assignment? : List Token → Option (Option Arithmetic × List Token)
  | .symbol symbol :: ts =>
    if p = .assignment then (assigning? symbol).map fun op => (op, ts) else none
  | _ => none

/-- Reads the value of an assignment if one follows and is allowed, and anything else as `other`
does. -/
def readAssigned (make : Option Arithmetic → Expr → Expr) (other : Reader Expr) : Reader Expr :=
  fun ts => match assignment? p ts with
    | some (op, us) => (nested .assignment).map (make op) us
    | none => other ts

/-- Reads what starts an expression. -/
def readOperand : Reader Expr
  | .number x :: ts => some (.number x, ts)
  | .text content :: ts => some (.text content, ts)
  | .keyword .true_ :: ts => some (.true_, ts)
  | .keyword .false_ :: ts => some (.false_, ts)
  | .keyword .null_ :: ts => some (.null, ts)
  | .keyword .this_ :: ts => some (.this, ts)
  | .symbol .leftParen :: ts => ((nested .assignment).upTo .rightParen).map .group ts
  | .symbol .minus :: ts => (nested .unary).map .negate ts
  | .symbol .bang :: ts => (nested .unary).map .not ts
  | .name name :: ts =>
    readAssigned nested p (.assignAs name) (fun ts => some (.variable_ name, ts)) ts
  | .keyword .super_ :: .symbol .dot :: .name name :: ts =>
    readCalled nested (.superGet name) (.superCall name) ts
  | _ => none

/-- Reads what a symbol adds to the operand before it. -/
def readContinuation (e : Expr) : Symbol → Reader Expr
  | .leftParen, ts => (readCall nested).map (.call e) ts
  | .dot, .name name :: ts =>
    readAssigned nested p (e.setAs name) (readCalled nested (.get e name) (.invoke e name)) ts
  | .both, ts => (nested .and).map (.both e) ts
  | .either, ts => (nested .or).map (.either e) ts
  | symbol, ts =>
    (binaryOp? symbol).bind fun op => (nested op.precedence.next).map (.binary op e) ts

/-- Reads the operators that follow an operand, of which there are at most `fuel`. -/
def readOperators : (fuel : Nat) → Expr → Reader Expr
  | 0, e, ts => some (e, ts)
  | fuel + 1, e, ts => match ts.head?.bind (trailing? p) with
    | none => some (e, ts)
    | some symbol => (readContinuation nested p e symbol ts.tail).bind fun (e, us) =>
      readOperators fuel e us

/-- Reads an expression of at least the given precedence. -/
def readBody : Reader Expr := fun ts =>
  (readOperand nested p ts).bind fun (e, us) => readOperators nested p us.length e us

end Reader

/-- Reads an expression with parts nested up to a depth. -/
def readExprs : (depth : Nat) → Precedence → Reader Expr
  | 0, _ => fun _ => none
  | depth + 1, p => readBody (readExprs depth) p

/-- Reads an expression: every part takes a token, so the tokens bound how deep they nest. -/
def readExpr : Reader Expr := fun ts => readExprs ts.length .assignment ts

/-! ### What is read back -/

/-- Every argument takes a token. -/
theorem Expr.length_le_listTokens (args : List Expr) :
    args.length ≤ (Expr.listTokens args).length := by
  induction args with
  | nil => exact Nat.le_refl _
  | cons e es ih =>
    obtain ⟨t, us, htokens, -⟩ := e.exists_start
    cases es with
    | nil => simp [Expr.listTokens, htokens]
    | cons e' es =>
      simp only [Expr.listTokens, htokens, List.length_cons, List.length_append] at ih ⊢
      omega

namespace Compile

variable {nested : Precedence → Reader Expr} {n : Nat} {p : Precedence} {ts us : List Token}

/-- The reader of nested expressions reads back those with fewer than `n` tokens. -/
def ReadsBack (nested : Precedence → Reader Expr) (n : Nat) : Prop :=
  ∀ p, p.rank ≤ Precedence.unary.rank → ∀ e : Expr, e.tokens.length < n → e.Grammatical →
    p.rank ≤ e.precedence.rank → ∀ ts, Follows p ts → nested p (e.tokens ++ ts) = some (e, ts)

/-- A whole expression is read back. -/
theorem ReadsBack.full (hn : ReadsBack nested n) {e : Expr} (hsize : e.tokens.length < n)
    (he : e.Grammatical) (hf : Follows .assignment ts) :
    nested .assignment (e.tokens ++ ts) = some (e, ts) :=
  hn .assignment (by decide) e hsize he (Precedence.assignment_le _) ts hf

/-- Arguments are read back, by induction on them. -/
theorem readArguments_back (hn : ReadsBack nested n) {args : List Expr}
    (hargs : Expr.ListGrammatical args) (hne : args ≠ [])
    (hsize : (Expr.listTokens args).length < n) {fuel : Nat} (hfuel : args.length ≤ fuel) :
    readArguments nested fuel (Expr.listTokens args ++ .symbol .rightParen :: ts) =
      some (args, ts) := by
  induction args generalizing fuel with
  | nil => exact absurd rfl hne
  | cons e es ih =>
    obtain ⟨he, hes⟩ := hargs
    cases fuel with
    | zero => cases hfuel
    | succ fuel =>
      cases es with
      | nil =>
        have hread : nested .assignment (e.tokens ++ .symbol .rightParen :: ts) = some (e, _) :=
          hn.full hsize he follows_rightParen
        rw [Expr.listTokens, readArguments, hread]
        rfl
      | cons e' es =>
        have htokens : Expr.listTokens (e :: e' :: es) ++ .symbol .rightParen :: ts = e.tokens ++
            .symbol .comma :: (Expr.listTokens (e' :: es) ++ .symbol .rightParen :: ts) := by
          simp [Expr.listTokens]
        have hlength : (Expr.listTokens (e :: e' :: es)).length =
            e.tokens.length + ((Expr.listTokens (e' :: es)).length + 1) := by
          simp [Expr.listTokens]
        have hread : nested .assignment (e.tokens ++ .symbol .comma ::
            (Expr.listTokens (e' :: es) ++ .symbol .rightParen :: ts)) = some (e, _) :=
          hn.full (by omega) he (follows_symbol rfl rfl)
        rw [htokens, readArguments, hread]
        exact Reader.map_eq (ih hes (by simp) (by omega) (Nat.le_of_succ_le_succ hfuel))

/-- The arguments of a call are read back, if there are any. -/
theorem readCall_back (hn : ReadsBack nested n) {args : List Expr}
    (hargs : Expr.ListGrammatical args) (hsize : (Expr.listTokens args).length < n) :
    readCall nested (Expr.listTokens args ++ .symbol .rightParen :: ts) = some (args, ts) := by
  cases args with
  | nil => rfl
  | cons e es =>
    have hlength := Expr.length_le_listTokens (e :: es)
    have hread : ∀ us : List Token, us.head? ≠ some (.symbol .rightParen) →
        readCall nested us = readArguments nested us.length us := by
      intro us hus
      unfold readCall
      split
      · exact absurd rfl hus
      · rfl
    rw [hread]
    · exact readArguments_back hn hargs (by simp) hsize (by
        rw [List.length_append]
        exact Nat.le_add_right_of_le hlength)
    · cases es with
      | nil => exact Expr.head_ne rfl
      | cons e' es =>
        rw [Expr.listTokens_cons, List.append_assoc]
        exact Expr.head_ne rfl

/-- Without a parenthesis nothing is called. -/
theorem readCalled_miss {plain : Expr} {make : List Expr → Expr}
    (h : ts.head? ≠ some (.symbol .leftParen)) : readCalled nested plain make ts = some (plain, ts) := by
  unfold readCalled
  split
  · exact absurd rfl h
  · rfl

/-- What assigns nothing is no operator of an assignment. -/
theorem assigning?_eq_none {symbol : Symbol} (h : isAssignment (.symbol symbol) = false) :
    assigning? symbol = none := by
  cases symbol <;> first | rfl | cases h

/-- Without an assignment the other reading is taken. -/
theorem readAssigned_miss {make : Option Arithmetic → Expr → Expr} {other : Reader Expr}
    (h : p = .assignment → assigns ts = false) :
    readAssigned nested p make other ts = other ts := by
  have hnone : assignment? p ts = none := by
    unfold assignment?
    split
    · next symbol ts =>
      split
      · next hp => rw [assigning?_eq_none (h hp), Option.map_none]
      · rfl
    · rfl
  rw [readAssigned, hnone]

/-- The value of an assignment is read back. -/
theorem readAssigned_back (hn : ReadsBack nested n) {make : Option Arithmetic → Expr → Expr}
    {other : Reader Expr} {symbol : Symbol} {op : Option Arithmetic} {e : Expr}
    (hop : assigning? symbol = some op) (hsize : e.tokens.length < n) (he : e.Grammatical)
    (hf : Follows .assignment ts) :
    readAssigned nested .assignment make other (.symbol symbol :: (e.tokens ++ ts)) =
      some (make op e, ts) := by
  have hsome : assignment? .assignment (.symbol symbol :: (e.tokens ++ ts)) =
      some (op, e.tokens ++ ts) := by
    rw [assignment?, if_pos rfl, hop]
    rfl
  rw [readAssigned, hsome]
  exact Reader.map_eq (hn.full hsize he hf)

/-- A plain assignment has no operator. -/
theorem assigning?_assign : assigning? .assign = some none := rfl

/-- An assignment by an operator has that operator. -/
theorem assigning?_assigning (op : Arithmetic) : assigning? op.assigning = some (some op) := by
  cases op <;> rfl

/-- An operator that binds tightly enough is read with what it takes; the other operators
follow. -/
theorem readOperators_next {q : Precedence} {symbol : Symbol} {mid : List Token} {e e' : Expr}
    {r : Option (Expr × List Token)} (hq : bindingOf? symbol = some q) (hle : p.rank ≤ q.rank)
    (hc : readContinuation nested p e symbol (mid ++ ts) = some (e', ts))
    (hk : ∀ fuel, ts.length ≤ fuel → readOperators nested p fuel e' ts = r) {fuel : Nat}
    (hfuel : (.symbol symbol :: (mid ++ ts) : List Token).length ≤ fuel) :
    readOperators nested p fuel e (.symbol symbol :: (mid ++ ts)) = r := by
  cases fuel with
  | zero => cases hfuel
  | succ fuel =>
    have htrailing : (.symbol symbol :: (mid ++ ts) : List Token).head?.bind (trailing? p) =
        some symbol := by simp [trailing?, hq, hle]
    rw [readOperators, htrailing]
    dsimp only [List.tail_cons]
    rw [hc]
    refine hk fuel ?_
    simp only [List.length_cons, List.length_append] at hfuel
    omega

/-- Where no operator may follow, the expression has been read. -/
theorem readOperators_end {fuel : Nat} {e : Expr} (hf : Follows p ts) :
    readOperators nested p fuel e ts = some (e, ts) := by
  cases fuel with
  | zero => rfl
  | succ fuel => rw [readOperators, hf.stops.trailing?_eq_none]

/-- An expression is its operand and the operators behind it. -/
theorem readBody_operand {t : Token} {e : Expr} {r : Option (Expr × List Token)}
    (mid : List Token) (ho : readOperand nested p (t :: (mid ++ ts)) = some (e, ts))
    (hk : ∀ fuel, ts.length ≤ fuel → readOperators nested p fuel e ts = r) :
    readBody nested p (t :: (mid ++ ts)) = r := by
  rw [readBody, ho]
  exact hk _ (Nat.le_refl _)

/-- The right operand of a binary operator is read back. -/
theorem readBinary_back (hn : ReadsBack nested n) {op : BinaryOp} {l r : Expr}
    (hsize : r.tokens.length < n) (hr : r.Grammatical)
    (hlt : op.precedence.rank < r.precedence.rank) (hs : Stops (op.precedence.rank + 1) ts) :
    readContinuation nested p l op.symbol (r.tokens ++ ts) = some (.binary op l r, ts) := by
  have heq : readContinuation nested p l op.symbol (r.tokens ++ ts) =
      (nested op.precedence.next).map (.binary op l) (r.tokens ++ ts) := by
    rcases op with (_ | _ | _ | _) | _ | _ | _ | _ | _ | _ <;> rfl
  rw [heq]
  exact Reader.map_eq (hn _ op.next_le_unary r hsize hr (op.rank_next ▸ hlt) ts (op.follows_next hs))

/-- A name is assigned or read. -/
theorem readOperand_name (name : String) : readOperand nested p (.name name :: ts) =
    readAssigned nested p (.assignAs name) (fun ts => some (.variable_ name, ts)) ts := rfl

/-- A property is assigned, called or read. -/
theorem readContinuation_dot (e : Expr) (name : String) :
    readContinuation nested p e .dot (.name name :: ts) =
      readAssigned nested p (e.setAs name) (readCalled nested (.get e name) (.invoke e name)) ts :=
  rfl

/-- An expression is read back as the left operand of what follows it. -/
theorem readBody_spine (hn : ReadsBack nested n) {e : Expr} {res : Option (Expr × List Token)}
    (hsize : e.tokens.length ≤ n) (hg : e.Grammatical) (hp : p.rank ≤ e.precedence.rank)
    (hl : Loose p e ts)
    (hk : ∀ fuel, ts.length ≤ fuel → readOperators nested p fuel e ts = res) :
    readBody nested p (e.tokens ++ ts) = res := by
  induction e generalizing ts res with
  | number | text | true_ | false_ | null | this => exact readBody_operand [] rfl hk
  | group e =>
    refine readBody_operand (e.tokens ++ [.symbol .rightParen]) ?_ hk
    have hg : e.Grammatical := hg
    simp only [Expr.tokens, List.length_append, List.length_cons] at hsize
    rw [List.append_assoc]
    exact Reader.map_eq (Reader.upTo_eq (hn.full (by omega) hg follows_rightParen))
  | negate e | not e =>
    refine readBody_operand e.tokens (Reader.map_eq ?_) hk
    exact hn .unary (Nat.le_refl _) e hsize hg.1 hg.2 ts
      (follows_of_stops (by decide) (stops_unary hl.stops))
  | variable_ name =>
    refine readBody_operand [] ?_ hk
    rw [readOperand_name]
    exact readAssigned_miss hl.assigns
  | assign name e =>
    obtain rfl := eq_assignment hp
    have hg : e.Grammatical := hg
    simp only [Expr.tokens, List.length_cons] at hsize
    refine readBody_operand (.symbol .assign :: e.tokens) ?_ hk
    rw [readOperand_name]
    exact readAssigned_back hn assigning?_assign (by omega) hg ⟨hl.stops, hl.assigns⟩
  | update name op e =>
    obtain rfl := eq_assignment hp
    have hg : e.Grammatical := hg
    simp only [Expr.tokens, List.length_cons] at hsize
    refine readBody_operand (.symbol op.assigning :: e.tokens) ?_ hk
    rw [readOperand_name]
    exact readAssigned_back hn (assigning?_assigning op) (by omega) hg ⟨hl.stops, hl.assigns⟩
  | superGet name =>
    exact readBody_operand [.symbol .dot, .name name] (readCalled_miss (hl.method rfl)) hk
  | superCall name args =>
    simp only [Expr.tokens, List.cons_append, List.length_append, List.length_cons] at hsize
    refine readBody_operand (.symbol .dot :: .name name :: .symbol .leftParen ::
      (Expr.listTokens args ++ [.symbol .rightParen])) ?_ hk
    rw [List.cons_append, List.cons_append, List.cons_append, List.append_assoc]
    exact Reader.map_eq (readCall_back hn hg (by omega))
  | binary op l r ihl =>
    obtain ⟨⟨hgl, hle⟩, hgr, hlt⟩ := hg
    simp only [Expr.tokens, List.length_append, List.length_cons] at hsize
    rw [Expr.tokens, List.append_assoc]
    have hloose : Loose p l (.symbol op.symbol :: (r.tokens ++ ts)) :=
      .of_symbol (bindingOf?_symbol op) (binary_lt_bound hle)
        (fun _ => by rcases op with (_ | _ | _ | _) | _ | _ | _ | _ | _ | _ <;> decide)
        (by rcases op with (_ | _ | _ | _) | _ | _ | _ | _ | _ | _ <;> rfl)
    exact ihl (by omega) hgl (Nat.le_trans hp hle) hloose fun fuel hfuel =>
      readOperators_next (bindingOf?_symbol op) hp (readBinary_back hn (by omega) hgr hlt hl.stops)
        hk hfuel
  | both l r ihl =>
    obtain ⟨⟨hgl, hlt⟩, hgr, hle⟩ := hg
    simp only [Expr.tokens, List.length_append, List.length_cons] at hsize
    rw [Expr.tokens, List.append_assoc]
    have hloose : Loose p l (.symbol .both :: (r.tokens ++ ts)) :=
      .of_symbol rfl (and_lt_bound hlt) (fun _ => by decide) rfl
    refine ihl (by omega) hgl (Nat.le_trans hp (Nat.le_of_lt hlt)) hloose fun fuel hfuel =>
      readOperators_next (q := .and) rfl hp ?_ hk hfuel
    exact Reader.map_eq (hn .and (by decide) r (by omega) hgr hle ts
      (follows_of_stops (by decide) hl.stops))
  | either l r ihl =>
    obtain ⟨⟨hgl, hlt⟩, hgr, hle⟩ := hg
    simp only [Expr.tokens, List.length_append, List.length_cons] at hsize
    rw [Expr.tokens, List.append_assoc]
    have hloose : Loose p l (.symbol .either :: (r.tokens ++ ts)) :=
      .of_symbol rfl (or_lt_bound hlt) (fun _ => by decide) rfl
    refine ihl (by omega) hgl (Nat.le_trans hp (Nat.le_of_lt hlt)) hloose fun fuel hfuel =>
      readOperators_next (q := .or) rfl hp ?_ hk hfuel
    exact Reader.map_eq (hn .or (by decide) r (by omega) hgr hle ts
      (follows_of_stops (by decide) hl.stops))
  | call f args ihf =>
    obtain ⟨⟨hgf, hle, hmethod⟩, hargs⟩ := hg
    simp only [Expr.tokens, List.length_append, List.length_cons] at hsize
    have htokens : (Expr.call f args).tokens ++ ts = f.tokens ++ .symbol .leftParen ::
        ((Expr.listTokens args ++ [.symbol .rightParen]) ++ ts) := by simp [Expr.tokens]
    rw [htokens]
    have hloose : Loose p f (.symbol .leftParen ::
        ((Expr.listTokens args ++ [.symbol .rightParen]) ++ ts)) :=
      .of_symbol rfl (call_lt_bound hle) (fun h => by rw [hmethod] at h; cases h) rfl
    refine ihf (by omega) hgf (Nat.le_trans hp hle) hloose fun fuel hfuel =>
      readOperators_next (q := .call) rfl hp ?_ hk hfuel
    rw [List.append_assoc]
    exact Reader.map_eq (readCall_back hn hargs (by omega))
  | get o name iho =>
    obtain ⟨hgo, hle⟩ := hg
    simp only [Expr.tokens, List.length_append, List.length_cons] at hsize
    have htokens : (Expr.get o name).tokens ++ ts = o.tokens ++ .symbol .dot ::
        ([.name name] ++ ts) := by simp [Expr.tokens]
    rw [htokens]
    refine iho (by omega) hgo (Nat.le_trans hp hle)
      (.of_symbol rfl (call_lt_bound hle) (fun _ => by decide) rfl) fun fuel hfuel =>
      readOperators_next (q := .call) rfl hp ?_ hk hfuel
    rw [List.singleton_append, readContinuation_dot, readAssigned_miss hl.assigns]
    exact readCalled_miss (hl.method rfl)
  | set o name e iho =>
    obtain ⟨⟨hgo, hle⟩, hge⟩ := hg
    obtain rfl := eq_assignment hp
    simp only [Expr.tokens, List.length_append, List.length_cons] at hsize
    have htokens : (Expr.set o name e).tokens ++ ts = o.tokens ++ .symbol .dot ::
        ((.name name :: .symbol .assign :: e.tokens) ++ ts) := by simp [Expr.tokens]
    rw [htokens]
    refine iho (by omega) hgo (Precedence.assignment_le _)
      (.of_symbol rfl (call_lt_bound hle) (fun _ => by decide) rfl) fun fuel hfuel =>
      readOperators_next (q := .call) rfl (Precedence.assignment_le _) ?_ hk hfuel
    rw [List.cons_append, readContinuation_dot]
    exact readAssigned_back hn assigning?_assign (by omega) hge ⟨hl.stops, hl.assigns⟩
  | updateField o name op e iho =>
    obtain ⟨⟨hgo, hle⟩, hge⟩ := hg
    obtain rfl := eq_assignment hp
    simp only [Expr.tokens, List.length_append, List.length_cons] at hsize
    have htokens : (Expr.updateField o name op e).tokens ++ ts = o.tokens ++ .symbol .dot ::
        ((.name name :: .symbol op.assigning :: e.tokens) ++ ts) := by simp [Expr.tokens]
    rw [htokens]
    refine iho (by omega) hgo (Precedence.assignment_le _)
      (.of_symbol rfl (call_lt_bound hle) (fun _ => by decide) rfl) fun fuel hfuel =>
      readOperators_next (q := .call) rfl (Precedence.assignment_le _) ?_ hk hfuel
    rw [List.cons_append, readContinuation_dot]
    exact readAssigned_back hn (assigning?_assigning op) (by omega) hge ⟨hl.stops, hl.assigns⟩
  | invoke o name args iho =>
    obtain ⟨⟨hgo, hle⟩, hargs⟩ := hg
    simp only [Expr.tokens, List.length_append, List.length_cons] at hsize
    have htokens : (Expr.invoke o name args).tokens ++ ts = o.tokens ++ .symbol .dot ::
        ((.name name :: .symbol .leftParen :: (Expr.listTokens args ++ [.symbol .rightParen])) ++
          ts) := by simp [Expr.tokens]
    rw [htokens]
    refine iho (by omega) hgo (Nat.le_trans hp hle)
      (.of_symbol rfl (call_lt_bound hle) (fun _ => by decide) rfl) fun fuel hfuel =>
      readOperators_next (q := .call) rfl hp ?_ hk hfuel
    rw [List.cons_append, List.cons_append, List.append_assoc]
    rw [readContinuation_dot, readAssigned_miss fun _ => rfl]
    exact Reader.map_eq (readCall_back hn hargs (by omega))

/-- A reader with room for the tokens of an expression reads it back. -/
theorem readExprs_back (depth : Nat) : ReadsBack (readExprs depth) (depth + 1) := by
  induction depth with
  | zero =>
    intro p _ e hsize
    obtain ⟨t, us, htokens, -⟩ := e.exists_start
    rw [htokens] at hsize
    exact absurd hsize (by simp)
  | succ depth ih =>
    intro p hp e hsize hg hle ts hf
    refine readBody_spine ih (Nat.le_of_lt_succ hsize) hg hle
      ⟨hf.stops.mono (Nat.le_trans hle (rank_le_bound e)), fun _ hhead => ?_, hf.assigns⟩
      fun fuel _ => readOperators_end hf
    have hlt := hf.stops .leftParen .call hhead rfl
    exact absurd (Nat.lt_of_lt_of_le hlt hp) (by decide)

/-- An expression is read back up to where it ends. -/
theorem readExpr_back {e : Expr} (hg : e.Grammatical) (hf : Follows .assignment ts) :
    readExpr (e.tokens ++ ts) = some (e, ts) :=
  (readExprs_back _).full (by rw [List.length_append]; omega) hg hf

end Compile

/-- Only one expression is spelled by tokens, and it ends at one place among them. -/
theorem Expr.unique {e e' : Expr} {ts ts' : List Token} (hg : e.Grammatical) (hg' : e'.Grammatical)
    (hf : Follows .assignment ts) (hf' : Follows .assignment ts')
    (h : e.tokens ++ ts = e'.tokens ++ ts') : e = e' ∧ ts = ts' := by
  have hread := readExpr_back hg hf
  rw [h, readExpr_back hg' hf'] at hread
  exact Prod.mk.inj (Option.some.inj hread).symm

end ScriptMachine
