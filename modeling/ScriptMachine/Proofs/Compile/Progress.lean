import ScriptMachine.Proofs.Compile.Placing
import ScriptMachine.Proofs.Compile.Script

/-!
# Progress among the tokens

No step of the compiler goes back among the tokens, and none goes behind the last one. A
declaration takes a token whether it succeeds or fails: what succeeds starts with a word of its own
or ends with a semicolon, and what fails is given up at least one token further. So every round of
a loop takes a token, and the tokens left bound the number of rounds.
-/

namespace ScriptMachine.Compile

variable {α β : Type} {s s₀ s₁ s' : State}

/-! ### Going onward -/

/-- A place among the same tokens, between the one before and the end. -/
structure State.Onward (s s' : State) : Prop where
  tokens : s'.tokens = s.tokens
  bounds : s.pos ≤ s.tokens.size → s.pos ≤ s'.pos ∧ s'.pos ≤ s.tokens.size

/-- Every place is onward of itself. -/
theorem State.Onward.refl (s : State) : s.Onward s := ⟨rfl, fun hs => ⟨Nat.le_refl _, hs⟩⟩

/-- What is changed beside the tokens and the place does not matter. -/
theorem State.Onward.of_same (htokens : s'.tokens = s.tokens) (hpos : s'.pos = s.pos) :
    s.Onward s' :=
  ⟨htokens, fun hs => ⟨Nat.le_of_eq hpos.symm, hpos ▸ hs⟩⟩

/-- Onward of onward is onward. -/
theorem State.Onward.trans (h : s.Onward s₁) (h' : s₁.Onward s') : s.Onward s' where
  tokens := h'.tokens.trans h.tokens
  bounds hs := by
    obtain ⟨hle, hsize⟩ := h.bounds hs
    obtain ⟨hle', hsize'⟩ := h'.bounds (h.tokens.symm ▸ hsize)
    exact ⟨Nat.le_trans hle hle', h.tokens ▸ hsize'⟩

/-- A step that only goes onward, also when it stops with a problem. -/
structure Proceeds (x : Compiler α) : Prop where
  ok : ∀ s a s', x s = .ok a s' → s.Onward s'
  problem : ∀ s e s', x s = .error (.problem e) s' → s.Onward s'

/-- Steps that go onward do so one after the other. -/
theorem Proceeds.bind {x : Compiler α} {f : α → Compiler β} (hx : Proceeds x)
    (hf : ∀ a, Proceeds (f a)) : Proceeds (x >>= f) where
  ok s b s' h := by
    obtain ⟨a, s₁, h, h'⟩ := run_bind.mp h
    exact (hx.ok _ _ _ h).trans ((hf a).ok _ _ _ h')
  problem s e s' h := by
    rcases stop_bind.mp h with h | ⟨a, s₁, h, h'⟩
    · exact hx.problem _ _ _ h
    · exact (hx.ok _ _ _ h).trans ((hf a).problem _ _ _ h')

/-- What moves nothing goes onward. -/
theorem Keeping.proceeds {x : Compiler α} (hx : Keeping x) : Proceeds x where
  ok s a s' h := by
    have hstays := hx.ok _ _ _ h
    exact .of_same hstays.tokens hstays.pos
  problem s e s' h := by
    have hstays := (hx.problem _ _ _ h).1
    exact .of_same hstays.tokens hstays.pos

/-- A problem stops at once. -/
theorem proceeds_stop {e : State → CompileError} :
    Proceeds (fun s => .error (.problem (e s)) s : Compiler α) where
  ok _ _ _ h := by cases h
  problem _ _ _ h := by
    cases h
    exact .refl _

/-- A change of the state goes onward if the changed place is onward. -/
theorem proceeds_modify {f : State → State} (hf : ∀ s : State, s.Onward (f s)) :
    Proceeds (modify f) where
  ok s _ s' h := run_modify.mp h ▸ hf s
  problem s _ s' h := by cases h

/-- A token that is there is gone past; at the end nothing is. -/
theorem proceeds_take {γ : Type} (f : Option Token → γ) (hit : γ → Bool)
    (hnone : hit (f none) = false) : Proceeds (take f hit) where
  ok s a s' h := by
    rw [take_eq] at h
    cases h
    split
    · next hhit =>
      refine ⟨rfl, fun _ => ⟨Nat.le_succ _, ?_⟩⟩
      cases hnext : s.tokens[s.pos]? with
      | none =>
        rw [State.peek?, State.lexeme?, hnext, Option.map_none, hnone] at hhit
        cases hhit
      | some t => exact (Array.getElem?_eq_some_iff.mp hnext).1
    · exact .refl _
  problem s e s' h := by
    rw [take_eq] at h
    cases h

/-- The end of a function moves nothing. -/
theorem proceeds_finishFunction : Proceeds finishFunction where
  ok s a s' h := by
    unfold finishFunction at h
    dsimp only at h
    repeat' split at h
    all_goals
      cases h
      try exact .of_same rfl rfl
  problem s e s' h := by
    unfold finishFunction at h
    dsimp only at h
    repeat' split at h
    all_goals cases h

/-- A change of the function in the making moves nothing. -/
theorem proceeds_modifyDraft (f : Draft → Draft) : Proceeds (modifyDraft f) :=
  proceeds_modify fun _ => .of_same rfl rfl

/-- A capture moves nothing. -/
theorem proceeds_captureVariable (name : String) : Proceeds (captureVariable name) where
  ok s a s' h := by
    unfold captureVariable at h
    dsimp only at h
    split at h
    · cases h
      exact .of_same rfl rfl
    · cases h
  problem s e s' h := by
    unfold captureVariable at h
    dsimp only at h
    split at h
    · cases h
    · cases h
      exact .of_same rfl rfl

/-- Adding a local moves nothing. -/
theorem proceeds_addLocal (name : String) (span : Source.Span) : Proceeds (addLocal name span) := by
  refine (keeping_look _).proceeds.bind fun count => ?_
  split
  · exact proceeds_stop.bind fun _ => proceeds_modifyDraft _
  · exact proceeds_modifyDraft _

/-- Declaring a name moves nothing. -/
theorem proceeds_declareVariable (name : String) : Proceeds (declareVariable name) := by
  refine (keeping_look _).proceeds.bind fun depth => ?_
  split
  · refine (keeping_look _).proceeds.bind fun first => ?_
    cases first with
    | some first => exact proceeds_stop
    | none => exact (keeping_look _).proceeds.bind fun span => proceeds_addLocal _ _
  · exact (keeping_pure ()).proceeds

/-- A name is gone past, or its absence moves nothing. -/
theorem proceeds_expectName (what : Expectation) : Proceeds (expectName what) where
  ok s name s' h := by
    rcases expectName_cases what s with ⟨name, span, line, ht, hdone⟩ | hstop
    · rw [hdone] at h
      cases h
      exact ⟨rfl, fun _ => ⟨Nat.le_succ _, (Array.getElem?_eq_some_iff.mp ht).1⟩⟩
    · rw [hstop] at h
      cases h
  problem s e s' h := by
    rcases expectName_cases what s with ⟨name, span, line, ht, hdone⟩ | hstop
    · rw [hdone] at h
      cases h
    · rw [hstop] at h
      cases h
      exact .refl _

/-! ### Going on after an error -/

/-- The place from which the next statement is looked for after an error. -/
def State.skipFrom (s : State) (back : Checkpoint) : Nat :=
  if s.pos = back.pos && !s.atEnd then s.pos + 1 else s.pos

/-- Recovering goes on at the next statement after the place it skips from. -/
theorem State.recover_place (s : State) (e : CompileError) (back : Checkpoint) :
    (s.recover e back).tokens = s.tokens ∧ (s.recover e back).pos =
      resumeAt s.tokens (s.tokens.size - s.skipFrom back) (s.skipFrom back) := by
  obtain ⟨heap, errors, -, -, -, hreport⟩ := s.report_eq e
  obtain ⟨draft, enclosing, hkeep⟩ := (s.report e).keepDrafts_eq back.depth
  unfold State.recover
  rw [hkeep, hreport]
  exact ⟨rfl, rfl⟩

/-- After an error compiling goes on behind the checkpoint, and a token further if one was left. -/
theorem State.Onward.recover (h : s₀.Onward s) (e : CompileError) :
    s₀.Onward (s.recover e s₀.checkpoint) ∧ (s₀.pos < s₀.tokens.size →
      s₀.pos < (s.recover e s₀.checkpoint).pos) := by
  obtain ⟨htokens, hpos⟩ := s.recover_place e s₀.checkpoint
  have hskip (hs : s₀.pos ≤ s₀.tokens.size) : s₀.pos ≤ s.skipFrom s₀.checkpoint ∧
      s.skipFrom s₀.checkpoint ≤ s.tokens.size ∧
      (s₀.pos < s₀.tokens.size → s₀.pos < s.skipFrom s₀.checkpoint) := by
    obtain ⟨hle, hsize⟩ := h.bounds hs
    have hback : s₀.checkpoint.pos = s₀.pos := rfl
    rw [State.skipFrom, State.atEnd, h.tokens, hback]
    split
    · next hstuck =>
      simp only [Bool.and_eq_true, Bool.not_eq_true', decide_eq_false_iff_not] at hstuck
      omega
    · next hmoved =>
      simp only [Bool.and_eq_true, Bool.not_eq_true', decide_eq_false_iff_not,
        decide_eq_true_eq, not_and, Classical.not_not] at hmoved
      omega
  have hresume (hs : s₀.pos ≤ s₀.tokens.size) := resumeAt_bounds s.tokens
    (s.tokens.size - s.skipFrom s₀.checkpoint) (s.skipFrom s₀.checkpoint) (hskip hs).2.1
  rw [← hpos, h.tokens] at hresume
  refine ⟨⟨htokens.trans h.tokens, fun hs => ?_⟩, fun hs => ?_⟩
  · exact ⟨Nat.le_trans (hskip hs).1 (hresume hs).1, (hresume hs).2⟩
  · have hle := Nat.le_of_lt hs
    exact Nat.lt_of_lt_of_le ((hskip hle).2.2 hs) (hresume hle).1

/-- Recovering goes onward from where the step stopped. -/
theorem Proceeds.recovering {x : Compiler Unit} (hx : Proceeds x) : Proceeds (recovering x) where
  ok s a s' h := by
    unfold Compile.recovering at h
    dsimp only at h
    split at h
    · next hbody =>
      cases h
      exact hx.ok _ _ _ hbody
    · next hbody =>
      cases h
      exact ((hx.problem _ _ _ hbody).recover _).1
    · cases h
  problem s e s' h := by
    unfold Compile.recovering at h
    dsimp only at h
    split at h <;> cases h

/-- How deep forms are nested does not matter to the place among the tokens. -/
theorem State.Onward.shallower (h : s.deeper.Onward s₁) : s.Onward s₁.shallower :=
  ⟨h.tokens, h.bounds⟩

/-- Counting a level moves nothing. -/
theorem Proceeds.nested {x : Compiler α} (hx : Proceeds x) : Proceeds (nested x) where
  ok s a s' h := by
    obtain ⟨-, s₁, hr, rfl⟩ := nested_ok_iff.mp h
    exact (hx.ok _ _ _ hr).shallower
  problem s e s' h := by
    rcases nested_error_iff.mp h with ⟨-, -, rfl⟩ | ⟨-, s₁, hr, rfl⟩
    · exact .refl _
    · exact (hx.problem _ _ _ hr).shallower

instance deepens_proceeds : Deepens (fun _ x _ => Proceeds x) := ⟨Proceeds.nested⟩

/-- All forms go onward. -/
instance walk_proceeds : Walk (fun _ x _ => Proceeds x) recovering where
  pure a := (keeping_pure a).proceeds
  bind hx hf := hx.bind hf
  look f := (keeping_look f).proceeds
  failHere _ _ := proceeds_stop
  failBefore _ _ := proceeds_stop
  take := proceeds_take
  recode f _ := proceeds_modifyDraft f
  intern chars := (keeping_intern chars).proceeds
  captureVariable := proceeds_captureVariable
  beginScope := proceeds_modifyDraft _
  beginFunction _ _ := proceeds_modify fun _ => .of_same rfl rfl
  finishFunction := proceeds_finishFunction
  endScope := (proceeds_modifyDraft _).bind fun _ => (keeping_look _).proceeds.bind fun left =>
    (keeping_emitAll left.1).proceeds.bind fun _ => proceeds_modifyDraft _
  addSuper := proceeds_addLocal _ _
  markInitialized := proceeds_modifyDraft _
  classes _ := proceeds_modify fun _ => .of_same rfl rfl
  declaredName what := (proceeds_expectName what).bind fun name =>
    (proceeds_declareVariable name).bind fun _ => (keeping_pure name).proceeds
  declaredClass := (proceeds_expectName _).bind fun name =>
    (keeping_nameConstant name).proceeds.bind fun _ =>
      (proceeds_declareVariable name).bind fun _ => (keeping_pure _).proceeds
  recovering h := h.recovering

/-- A step made of steps that go onward goes onward. -/
theorem proceeds_of_walks {x : Compiler α} [h : WalksOn (fun _ x _ => Proceeds x) x] :
    Proceeds x := h.walks

/-- Going on after errors as the forms do it leads to the same parsers. -/
theorem parsersOf_recovering (room : Nat) : parsersOf recovering room = parsers room := by
  induction room with
  | zero => rfl
  | succ room ih => rw [parsersOf, parsers, ih]

instance (room : Nat) : (parsers room).Walks (fun _ x _ => Proceeds x) (parsers room) := by
  have hwalks : (parsers room).Walks (fun _ x _ => Proceeds x) (parsersOf recovering room) :=
    inferInstance
  rwa [parsersOf_recovering] at hwalks

/-! ### Taking tokens -/

/-- A step that takes a token when it succeeds. -/
def Consumes (x : Compiler α) : Prop :=
  ∀ s a s', s.pos ≤ s.tokens.size → x s = .ok a s' → s.pos < s'.pos

/-- A token that the first step takes is taken by both. -/
theorem Consumes.bind_left {x : Compiler α} {f : α → Compiler β} (hx : Consumes x)
    (hproceeds : Proceeds x) (hf : ∀ a, Proceeds (f a)) : Consumes (x >>= f) := by
  intro s b s' hs h
  obtain ⟨a, s₁, h, h'⟩ := run_bind.mp h
  have hbounds := (hproceeds.ok _ _ _ h).bounds hs
  have hrest := (hf a).ok _ _ _ h'
  exact Nat.lt_of_lt_of_le (hx _ _ _ hs h)
    (hrest.bounds ((hproceeds.ok _ _ _ h).tokens.symm ▸ hbounds.2)).1

/-- A form one level deeper takes a token if it does. -/
theorem Consumes.nested {x : Compiler α} (hx : Consumes x) : Consumes (nested x) := by
  intro s a s' hs h
  obtain ⟨-, s₁, hr, rfl⟩ := nested_ok_iff.mp h
  exact hx s.deeper a s₁ hs hr

/-- A token that the second step takes is taken by both. -/
theorem Consumes.bind_right {x : Compiler α} {f : α → Compiler β} (hx : Proceeds x)
    (hf : ∀ a, Consumes (f a)) : Consumes (x >>= f) := by
  intro s b s' hs h
  obtain ⟨a, s₁, h, h'⟩ := run_bind.mp h
  have hbounds := (hx.ok _ _ _ h).bounds hs
  exact Nat.lt_of_le_of_lt hbounds.1
    (hf a _ _ _ ((hx.ok _ _ _ h).tokens.symm ▸ hbounds.2) h')

/-- Going past a token moves by one. -/
theorem Passes.pos {t : Token} (h : Passes t s s') : s'.pos = s.pos + 1 := by
  rw [← run_advance.mp h.2]

/-- A symbol that has to be there is a token. -/
theorem consumes_expect {symbol : Symbol} {what : Expectation} : Consumes (expect symbol what) :=
  fun _ _ _ _ h => (run_expect h).pos ▸ Nat.lt_succ_self _

/-- A reserved word that has to be there is a token. -/
theorem consumes_expectKeyword {keyword : Keyword} {what : Expectation} :
    Consumes (expectKeyword keyword what) :=
  fun _ _ _ _ h => (run_expectKeyword h).pos ▸ Nat.lt_succ_self _

/-- If one token or another is gone past, the rest need not take any; if not, it has to. -/
theorem consumes_take {γ : Type} (f : Option Token → γ) (hit : γ → Bool) {g : γ → Compiler β}
    (hnone : hit (f none) = false) (hproceeds : ∀ a, Proceeds (g a))
    (hconsumes : ∀ a, hit a = false → Consumes (g a)) : Consumes (take f hit >>= g) := by
  intro s b s' hs h
  obtain ⟨a, s₁, h, h'⟩ := run_bind.mp h
  have htake := (proceeds_take f hit hnone).ok _ _ _ h
  have hbounds := htake.bounds hs
  have hs₁ : s₁.pos ≤ s₁.tokens.size := htake.tokens.symm ▸ hbounds.2
  rw [take_eq] at h
  cases hhit : hit (f s.peek?) with
  | true =>
    rw [hhit, if_pos rfl] at h
    cases h
    exact ((hproceeds _).ok _ _ _ h').bounds hs₁ |>.1
  | false =>
    rw [hhit] at h
    cases h
    exact hconsumes _ hhit _ _ _ hs₁ h'

section Forms

variable {inner : Parsers} [inner.Walks (fun _ x _ => Proceeds x) inner]

/-- An expression statement takes its semicolon. -/
theorem consumes_expressionStatement : Consumes (expressionStatement inner) :=
  .bind_right proceeds_of_walks fun _ =>
    consumes_expect.bind_left proceeds_of_walks fun _ => proceeds_of_walks

variable (inner) in
/-- Every statement takes its first word or its semicolon. -/
theorem consumes_statementBody : Consumes (statementBody inner) := by
  rw [statementBody_eq]
  refine consumes_take statementStart Option.isSome rfl (fun start => ?_) fun start hstart => ?_
  · have hrest : WalksOn (fun _ x _ => Proceeds x) (statementRest inner start) := by
      unfold statementRest
      split <;> infer_instance
    exact hrest.walks
  · cases start with
    | none => exact consumes_expressionStatement
    | some t => cases hstart

omit [inner.Walks (fun _ x _ => Proceeds x) inner] in
/-- A form with a reserved word of its own, or another one that takes a token. -/
theorem consumes_orElse {keyword : Keyword} {x y : Compiler Unit} (hx : Proceeds x)
    (hproceeds : Proceeds y) (hy : Consumes y) :
    Consumes (do if ← acceptKeyword keyword then x else y) := by
  refine consumes_take (fun t => t.any (·.isKeyword keyword)) id rfl (fun hit => ?_)
    fun hit hhit => ?_
  · cases hit
    · exact hproceeds
    · exact hx
  · obtain rfl : hit = false := hhit
    exact hy

variable (inner) in
/-- A declaration without a word of its own is a statement. -/
theorem consumes_declarationBody (hs : Consumes inner.statement) :
    Consumes (declarationBody inner) :=
  consumes_orElse proceeds_of_walks proceeds_of_walks <|
    consumes_orElse proceeds_of_walks proceeds_of_walks <|
      consumes_orElse proceeds_of_walks proceeds_of_walks hs

/-- A method takes its reserved word. -/
theorem consumes_method : Consumes (method inner) :=
  consumes_expectKeyword.bind_left proceeds_of_walks fun _ => proceeds_of_walks

end Forms

/-- What a declaration for which there is `room` to nest recovers from. -/
def declarationAt : (room : Nat) → Compiler Unit
  | 0 => failHere .tooDeeplyNested
  | room + 1 => nested (declarationBody (parsers room))

/-- A declaration recovers from what it is made of. -/
theorem declaration_eq (room : Nat) :
    (parsers room).declaration = recovering (declarationAt room) := by
  cases room <;> rfl

/-- A statement takes a token, whatever room there is to nest. -/
theorem consumes_statement (room : Nat) : Consumes (parsers room).statement := by
  cases room with
  | zero => exact fun _ _ _ _ h => (run_failHere.mp h).elim
  | succ room => exact (consumes_statementBody (parsers room)).nested

/-- A declaration that succeeds takes a token. -/
theorem consumes_declarationAt (room : Nat) : Consumes (declarationAt room) := by
  cases room with
  | zero => exact fun _ _ _ _ h => (run_failHere.mp h).elim
  | succ room => exact (consumes_declarationBody (parsers room) (consumes_statement room)).nested

/-- A declaration goes onward. -/
theorem proceeds_declarationAt (room : Nat) : Proceeds (declarationAt room) := by
  cases room with
  | zero => exact proceeds_stop
  | succ room => exact (proceeds_of_walks (x := declarationBody (parsers room))).nested

/-- A declaration ends behind the token it starts at, also when it fails, and not behind the last
one. -/
theorem declaration_onward {room : Nat} {a : Unit} (hs : s.pos < s.tokens.size)
    (h : (parsers room).declaration s = .ok a s') :
    s.pos < s'.pos ∧ s'.pos ≤ s.tokens.size ∧ s'.tokens = s.tokens := by
  have hle := Nat.le_of_lt hs
  have honward := (proceeds_declarationAt room).recovering.ok s a s' (declaration_eq room ▸ h)
  refine ⟨?_, (honward.bounds hle).2, honward.tokens⟩
  rw [declaration_eq] at h
  unfold recovering at h
  dsimp only at h
  split at h
  · next hbody =>
    cases h
    exact consumes_declarationAt room _ _ _ hle hbody
  · next hbody =>
    cases h
    exact (((proceeds_declarationAt room).problem _ _ _ hbody).recover _).2 hs
  · cases h

/-! ### Rounds of loops -/

/-- The tokens left are as many rounds as a loop can make: more of them make no difference. -/
def EndsByTokens (loop : (rounds : Nat) → Compiler α) : Prop :=
  ∀ s rounds, s.remaining ≤ rounds → loop rounds s = loop s.remaining s

/-- A loop that is done at the end of the tokens ends if every round takes a token. -/
theorem endsByTokens {loop : Nat → Compiler Unit} (done : State → Bool) (round : Compiler Unit)
    (hzero : loop 0 = pure ()) (hsucc : ∀ n, loop (n + 1) = (do
      if !(← look done) then
        round
        loop n))
    (hdone : ∀ s, s.tokens.size ≤ s.pos → done s = true)
    (hround : ∀ s s', s.pos < s.tokens.size → done s = false → round s = .ok () s' →
      s'.remaining < s.remaining) :
    EndsByTokens loop := by
  have hstop (n : Nat) (s : State) (h : done s = true) : loop n s = .ok () s := by
    cases n with
    | zero => rw [hzero]; rfl
    | succ n => simp only [hsucc, bind, EStateM.bind, look, h]; rfl
  have hgo (n : Nat) (s : State) (h : done s = false) :
      loop (n + 1) s = (round >>= fun _ => loop n) s := by
    simp only [hsucc, bind, EStateM.bind, look, h]
    rfl
  have hany (n m : Nat) (s : State) (hn : s.remaining ≤ n) (hm : s.remaining ≤ m) :
      loop n s = loop m s := by
    induction n generalizing m s with
    | zero =>
      have hend : s.tokens.size ≤ s.pos := by
        rw [State.remaining] at hn
        omega
      rw [hstop _ s (hdone s hend), hstop _ s (hdone s hend)]
    | succ n ih =>
      cases hs : done s with
      | true => rw [hstop _ s hs, hstop _ s hs]
      | false =>
        have hlt : s.pos < s.tokens.size := by
          by_contra hend
          rw [hdone s (Nat.le_of_not_lt hend)] at hs
          cases hs
        obtain ⟨m, rfl⟩ : ∃ k, m = k + 1 := by
          rw [State.remaining] at hm
          exact ⟨m - 1, by omega⟩
        rw [hgo n s hs, hgo m s hs]
        show EStateM.bind round _ s = EStateM.bind round _ s
        unfold EStateM.bind
        cases hr : round s with
        | ok a s₁ =>
          have hless := hround s s₁ hlt hs hr
          exact ih m s₁ (by omega) (by omega)
        | error e s₁ => rfl
  exact fun s n hn => hany n s.remaining s hn (Nat.le_refl _)

/-- A round takes a token off those that are left. -/
theorem remaining_lt_of_onward (hs : s.pos < s.tokens.size) (htokens : s'.tokens = s.tokens)
    (hlt : s.pos < s'.pos) : s'.remaining < s.remaining := by
  rw [State.remaining, State.remaining, htokens]
  omega

/-- A step that takes a token leaves fewer. -/
theorem remaining_lt_of_consumes {x : Compiler α} {a : α} (hproceeds : Proceeds x)
    (hconsumes : Consumes x) (hs : s.pos < s.tokens.size) (h : x s = .ok a s') :
    s'.remaining < s.remaining :=
  remaining_lt_of_onward hs (hproceeds.ok _ _ _ h).tokens (hconsumes _ _ _ (Nat.le_of_lt hs) h)

/-- A program has no more declarations than tokens. -/
theorem endsByTokens_program (room : Nat) : EndsByTokens (program (parsers room).declaration) :=
  endsByTokens _ _ rfl (fun _ => rfl) (fun s hs => by simp [State.atEnd, hs]) fun s s' hs _ h => by
    obtain ⟨hlt, -, htokens⟩ := declaration_onward hs h
    exact remaining_lt_of_onward hs htokens hlt

/-- A block has no more declarations than tokens are left. -/
theorem endsByTokens_declarations (room : Nat) : EndsByTokens (declarations (parsers room)) :=
  endsByTokens _ _ rfl (fun _ => rfl) (fun s hs => by simp [State.atEnd, hs]) fun s s' hs _ h => by
    obtain ⟨hlt, -, htokens⟩ := declaration_onward hs h
    exact remaining_lt_of_onward hs htokens hlt

/-- A class has no more methods than tokens are left. -/
theorem endsByTokens_methods (room : Nat) : EndsByTokens (methods (parsers room)) :=
  endsByTokens _ _ rfl (fun _ => rfl) (fun s hs => by simp [State.atEnd, hs]) fun s s' hs _ h =>
    remaining_lt_of_consumes proceeds_of_walks consumes_method hs h

/-- The operator that is next, and what follows it. -/
def nextContinuation (nested : Precedence → Compiler Unit) (p : Precedence) (canAssign : Bool) :
    Compiler Unit := do
  match ← take (·.bind (trailing? p)) Option.isSome with
  | none => pure ()
  | some symbol => continuation nested symbol canAssign

/-- An expression has no more operators than tokens are left. -/
theorem endsByTokens_continuations (room : Nat) (p : Precedence) (canAssign : Bool) :
    EndsByTokens (continuations (parsers room).expression p canAssign) := by
  refine endsByTokens (fun s => (s.peek?.bind (trailing? p)).isNone)
    (nextContinuation (parsers room).expression p canAssign) rfl (fun n => ?_) (fun s hs => ?_)
    fun s s' hs hmore h => ?_
  · funext s
    have htake := take_eq (·.bind (trailing? p)) Option.isSome s
    rw [continuations_succ]
    cases hfound : s.peek?.bind (trailing? p) with
    | none =>
      rw [hfound] at htake
      simp only [bind, EStateM.bind, htake, look, hfound]
      rfl
    | some symbol =>
      rw [hfound] at htake
      simp only [nextContinuation, bind, EStateM.bind, htake, look, hfound, Option.isNone_some,
        Bool.not_false, if_true]
  · rw [State.peek?, State.lexeme?, Array.getElem?_eq_none hs]
    rfl
  · obtain ⟨found, s₁, htake, h⟩ := run_bind.mp h
    have htaken := (proceeds_take _ _ rfl).ok _ _ _ htake
    rw [take_eq] at htake
    cases hfound : s.peek?.bind (trailing? p) with
    | none =>
      rw [hfound] at hmore
      cases hmore
    | some symbol =>
      rw [hfound] at htake
      cases htake
      have hproceeds : Proceeds (continuation (parsers room).expression symbol canAssign) :=
        proceeds_of_walks
      have hrest := htaken.trans (hproceeds.ok _ _ _ h)
      refine remaining_lt_of_onward hs hrest.tokens ?_
      exact ((hproceeds.ok _ _ _ h).bounds (htaken.bounds (Nat.le_of_lt hs)).2).1

/-- The end of the tokens ends the search for a statement too. -/
theorem resumeAt_of_le (tokens : Array Lexeme) (rounds pos : Nat) (h : tokens.size - pos ≤ rounds) :
    resumeAt tokens rounds pos = resumeAt tokens (tokens.size - pos) pos := by
  induction rounds generalizing pos with
  | zero => rw [Nat.le_zero.mp h]
  | succ rounds ih =>
    rcases Nat.lt_or_ge pos tokens.size with hlt | hge
    · obtain ⟨left, hleft⟩ : ∃ left, tokens.size - pos = left + 1 :=
        ⟨tokens.size - pos - 1, by omega⟩
      have hrest : tokens.size - (pos + 1) = left := by omega
      rw [hleft, resumeAt, resumeAt, ih (pos + 1) (by omega), hrest]
    · rw [Nat.sub_eq_zero_of_le hge, resumeAt, resumeAt, Array.getElem?_eq_none hge]

end ScriptMachine.Compile
