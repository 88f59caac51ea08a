import ScriptMachine.Proofs.Compile.Walking
import ScriptMachine.Proofs.Token.Places

/-!
# Places of errors

An error of the compiler is about a token that was read or is next, or about the end of the source.
Where it is also about an earlier declaration, both are names in the source, the earlier one first:
every local that the source spells has its place behind the tokens read, and is compared with a
name that is read after it.
-/

namespace ScriptMachine.Compile

open Token (Reading)

variable {r : Reading} {n : Nat} {α β : Type} {s s' s₁ : State} {l : Local} {p : Problem}

/-- The errors that reading a source finds. -/
def lexicalErrors (r : Reading) : List CompileError :=
  r.problems.toList.map fun p => ⟨.lexical p.kind, p.span, p.line⟩

/-- The token in place `i` is a name. -/
def NamedAt (r : Reading) (i : Nat) (name : String) (span : Source.Span) : Prop :=
  ∃ line, r.tokens[i]? = some ⟨.name name, span, line⟩

/-- The line that is reported at the end of the input: that of the last token. -/
def endLine (r : Reading) : UInt32 := (r.tokens.back?.map Lexeme.line).getD 1

/-- An error is about a token or about the end of `n` bytes, and what else it is about is an earlier
name. -/
structure Points (r : Reading) (n : Nat) (e : CompileError) : Prop where
  place : (∃ l ∈ r.tokens, e.span = l.span ∧ e.line = l.line) ∨
    e.span = ⟨n, n⟩ ∧ e.line = endLine r
  earlier : ∀ name previous, e.kind = .duplicateLocal name previous →
    ∃ i j, i < j ∧ NamedAt r i name previous ∧ NamedAt r j name e.span

/-- A name that the compiler gives to a local of its own. -/
def Implicit (name : String) : Prop := name = "" ∨ name = "this" ∨ name = "super"

/-- A local is one of the compiler, or a name among the first `limit` tokens. -/
def Local.Placed (r : Reading) (limit : Nat) (l : Local) : Prop :=
  Implicit l.name ∨ ∃ i < limit, NamedAt r i l.name l.span

/-- A place among few tokens is one among more. -/
theorem Local.Placed.mono {limit limit' : Nat} (h : l.Placed r limit) (hle : limit ≤ limit') :
    l.Placed r limit' := by
  rcases h with h | ⟨i, hi, hname⟩
  · exact .inl h
  · exact .inr ⟨i, by omega, hname⟩

/-- Every local of some functions in the making has its place among the first `limit` tokens. -/
def LocalsPlaced (r : Reading) (limit : Nat) (ds : List Draft) : Prop :=
  ∀ d ∈ ds, ∀ l ∈ d.locals, l.Placed r limit

/-- The state is one of reading `r`, whose errors come first; all that it knows has its place. -/
structure State.Placed (r : Reading) (n : Nat) (s : State) : Prop where
  tokens : s.tokens = r.tokens
  bytes : s.sourceBytes = n
  pos : s.pos ≤ r.tokens.size
  locals : LocalsPlaced r s.pos (s.draft :: s.enclosing)
  errors : ∃ more, s.errors.toList = lexicalErrors r ++ more ∧ ∀ e ∈ more, Points r n e
  room : s.errors.size ≤ max maxErrors r.problems.size

/-- A step keeps all places, and stops with errors that have theirs. -/
structure Places (r : Reading) (n : Nat) (x : Compiler α) : Prop where
  ok : ∀ s a s', s.Placed r n → x s = .ok a s' → s'.Placed r n
  problem : ∀ s e s', s.Placed r n → x s = .error (.problem e) s' →
    s'.Placed r n ∧ Points r n e

/-! ### Errors -/

/-- An error at the next token, or at the end, has its place. -/
theorem State.Placed.errorHere (h : s.Placed r n) (hp : p.previous? = none) :
    Points r n (s.errorHere p) := by
  refine ⟨?_, fun name previous hkind => ?_⟩
  · unfold State.errorHere State.lexeme?
    split
    · next l hl =>
      rw [h.tokens] at hl
      exact .inl ⟨l, Array.mem_of_getElem? hl, rfl, rfl⟩
    · next hnone =>
      have hend : s.pos = r.tokens.size := by
        rw [h.tokens, Array.getElem?_eq_none_iff] at hnone
        exact Nat.le_antisymm h.pos hnone
      refine .inr ⟨by rw [State.endSpan, h.bytes], ?_⟩
      rw [State.line, State.previous?, h.tokens, hend, endLine, Array.back?]
      split
      · next l hl =>
        split at hl
        · cases hl
        · rw [hl]
          rfl
      · next hprevious =>
        split at hprevious
        · next hzero =>
          rw [Array.getElem?_eq_none (by omega), Array.getElem?_eq_none (by omega)]
        · next hsize =>
          rw [Array.getElem?_eq_none_iff] at hprevious
          omega
  · rw [State.kind_errorHere] at hkind
    rw [hkind] at hp
    cases hp

/-- An error at the token read last is about that token. -/
theorem State.errorBefore_of_pos {t : Lexeme} (ht : s.tokens[s.pos - 1]? = some t)
    (hpos : 0 < s.pos) : s.errorBefore p = ⟨p, t.span, t.line⟩ := by
  rw [State.errorBefore, State.previous?, if_neg (by omega), ht]

/-- An error at the token before has its place. -/
theorem State.Placed.errorBefore (h : s.Placed r n) (hp : p.previous? = none) :
    Points r n (s.errorBefore p) := by
  rcases Nat.eq_zero_or_pos s.pos with hzero | hpos
  · have heq : s.errorBefore p = s.errorHere p := by
      rw [State.errorBefore, State.previous?, if_pos hzero]
    rw [heq]
    exact h.errorHere hp
  · have hlt : s.pos - 1 < r.tokens.size := by
      have := h.pos
      omega
    have ht : s.tokens[s.pos - 1]? = some r.tokens[s.pos - 1] := by
      rw [h.tokens, Array.getElem?_eq_getElem hlt]
    rw [State.errorBefore_of_pos ht hpos]
    refine ⟨.inl ⟨_, Array.getElem_mem hlt, rfl, rfl⟩, fun name previous hkind => ?_⟩
    obtain rfl : p = _ := hkind
    cases hp

/-! ### Steps that move nothing -/

/-- The places that a state knows are those of another one. -/
structure State.Stays (s s' : State) : Prop where
  tokens : s'.tokens = s.tokens
  bytes : s'.sourceBytes = s.sourceBytes
  pos : s'.pos = s.pos
  errors : s'.errors = s.errors
  locals : s'.draft.locals = s.draft.locals
  enclosing : s'.enclosing = s.enclosing

/-- Every state stays with itself. -/
theorem State.Stays.refl (s : State) : s.Stays s := ⟨rfl, rfl, rfl, rfl, rfl, rfl⟩

/-- Staying twice is staying. -/
theorem State.Stays.trans (h : s.Stays s₁) (h' : s₁.Stays s') : s.Stays s' :=
  ⟨h'.tokens.trans h.tokens, h'.bytes.trans h.bytes, h'.pos.trans h.pos,
    h'.errors.trans h.errors, h'.locals.trans h.locals, h'.enclosing.trans h.enclosing⟩

/-- Locals that stay have the places they had. -/
theorem LocalsPlaced.of_stays {limit : Nat} (h : LocalsPlaced r limit (s.draft :: s.enclosing))
    (hk : s.Stays s') : LocalsPlaced r limit (s'.draft :: s'.enclosing) := by
  rw [hk.enclosing]
  obtain ⟨hinner, hrest⟩ := List.forall_mem_cons.mp h
  exact List.forall_mem_cons.mpr ⟨hk.locals ▸ hinner, hrest⟩

/-- A state that stays has the places it had. -/
theorem State.Placed.stays (h : s.Placed r n) (hk : s.Stays s') : s'.Placed r n where
  tokens := hk.tokens.trans h.tokens
  bytes := hk.bytes.trans h.bytes
  pos := hk.pos ▸ h.pos
  locals := hk.pos ▸ h.locals.of_stays hk
  errors := hk.errors ▸ h.errors
  room := hk.errors ▸ h.room

/-- A step that moves nothing, and stops with problems of one place only. -/
structure Keeping (x : Compiler α) : Prop where
  ok : ∀ s a s', x s = .ok a s' → s.Stays s'
  problem : ∀ s e s', x s = .error (.problem e) s' → s.Stays s' ∧
    ∃ p : Problem, p.previous? = none ∧ (e = s'.errorHere p ∨ e = s'.errorBefore p)

/-- What moves nothing keeps all places. -/
theorem Keeping.places {x : Compiler α} (hx : Keeping x) : Places r n x where
  ok s a s' h hdone := h.stays (hx.ok s a s' hdone)
  problem s e s' h hstop := by
    obtain ⟨hstays, p, hp, he⟩ := hx.problem s e s' hstop
    have h' := h.stays hstays
    refine ⟨h', ?_⟩
    rcases he with rfl | rfl
    · exact h'.errorHere hp
    · exact h'.errorBefore hp

/-- Steps that move nothing do so one after the other. -/
theorem Keeping.bind {x : Compiler α} {f : α → Compiler β} (hx : Keeping x)
    (hf : ∀ a, Keeping (f a)) : Keeping (x >>= f) where
  ok s b s' h := by
    obtain ⟨a, s₁, h, h'⟩ := run_bind.mp h
    exact (hx.ok _ _ _ h).trans ((hf a).ok _ _ _ h')
  problem s e s' h := by
    rcases stop_bind.mp h with h | ⟨a, s₁, h, h'⟩
    · exact hx.problem _ _ _ h
    · obtain ⟨hstays, hp⟩ := (hf a).problem _ _ _ h'
      exact ⟨(hx.ok _ _ _ h).trans hstays, hp⟩

/-- Giving a value back moves nothing. -/
theorem keeping_pure (a : α) : Keeping (pure a : Compiler α) where
  ok s _ s' h := (run_pure.mp h).2 ▸ .refl _
  problem s _ s' h := by cases h

/-- A look moves nothing. -/
theorem keeping_look (f : State → α) : Keeping (look f) where
  ok s _ s' h := (run_look.mp h).2 ▸ .refl _
  problem s _ s' h := by cases h

/-- An error at the next token moves nothing. -/
theorem keeping_failHere (hp : p.previous? = none) : Keeping (failHere p : Compiler α) where
  ok s _ s' h := (run_failHere.mp h).elim
  problem s e s' h := by
    cases h
    exact ⟨.refl _, p, hp, .inl rfl⟩

/-- An error at the token before moves nothing. -/
theorem keeping_failBefore (hp : p.previous? = none) : Keeping (failBefore p : Compiler α) where
  ok s _ s' h := (run_failBefore.mp h).elim
  problem s e s' h := by
    cases h
    exact ⟨.refl _, p, hp, .inr rfl⟩

/-- A change of the function in the making that leaves its locals moves nothing. -/
theorem keeping_redraft {f : Draft → Draft} (hf : ∀ d, (f d).locals = d.locals) :
    Keeping (modifyDraft f) where
  ok s _ s' h := by
    obtain rfl := run_modify.mp h
    exact ⟨rfl, rfl, rfl, rfl, hf _, rfl⟩
  problem s _ s' h := by cases h

/-- Interning a string moves nothing. -/
theorem keeping_intern (chars : String) : Keeping (intern chars) where
  ok s _ s' h := by
    unfold intern at h
    dsimp only at h
    split at h
    · cases h
      exact ⟨rfl, rfl, rfl, rfl, rfl, rfl⟩
    · cases h
  problem s _ s' h := by
    unfold intern at h
    dsimp only at h
    split at h <;> cases h

/-- Making a constant moves nothing. -/
theorem keeping_makeConstant (v : Value) : Keeping (makeConstant v) := by
  refine (keeping_look _).bind fun found => ?_
  cases found with
  | some index => exact keeping_pure _
  | none =>
    refine (keeping_look _).bind fun size => ?_
    have hadd : Keeping (do
        modifyDraft fun d => { d with
          chunk := d.chunk.pushConstant v, pool := d.pool.insert v.bits size.toUInt16 }
        return size.toUInt16) :=
      Keeping.bind (keeping_redraft fun _ => rfl) fun _ => keeping_pure _
    dsimp only
    split
    · exact (keeping_failBefore rfl).bind fun _ => hadd
    · exact hadd

/-- Making a constant of a name moves nothing. -/
theorem keeping_nameConstant (name : String) : Keeping (nameConstant name) :=
  (keeping_intern name).bind fun _ => keeping_makeConstant _

/-! ### Steps that move -/

/-- Steps that keep all places do so one after the other. -/
theorem Places.bind {x : Compiler α} {f : α → Compiler β} (hx : Places r n x)
    (hf : ∀ a, Places r n (f a)) : Places r n (x >>= f) where
  ok s b s' h hdone := by
    obtain ⟨a, s₁, hdone, hdone'⟩ := run_bind.mp hdone
    exact (hf a).ok _ _ _ (hx.ok _ _ _ h hdone) hdone'
  problem s e s' h hstop := by
    rcases stop_bind.mp hstop with hstop | ⟨a, s₁, hdone, hstop⟩
    · exact hx.problem _ _ _ h hstop
    · exact (hf a).problem _ _ _ (hx.ok _ _ _ h hdone) hstop

/-- The functions in the making may change as long as their locals have places. -/
theorem State.Placed.redraft {draft : Draft} {enclosing : List Draft} (h : s.Placed r n)
    (heap : Heap) (hlocals : LocalsPlaced r s.pos (draft :: enclosing)) :
    { s with heap := heap, draft := draft, enclosing := enclosing }.Placed r n :=
  { h with locals := hlocals }

/-- A change of the state keeps all places if the changed state has them. -/
theorem places_modify {f : State → State} (hf : ∀ s, s.Placed r n → (f s).Placed r n) :
    Places r n (modify f) where
  ok s _ s' h hdone := run_modify.mp hdone ▸ hf s h
  problem s _ s' h hstop := by cases hstop

/-- A token that is there may be gone past. -/
theorem State.Placed.advance (h : s.Placed r n) (hpeek : s.peek?.isSome) :
    { s with pos := s.pos + 1 }.Placed r n where
  tokens := h.tokens
  bytes := h.bytes
  pos := by
    cases hnext : s.tokens[s.pos]? with
    | none =>
      rw [State.peek?, State.lexeme?, hnext] at hpeek
      cases hpeek
    | some t =>
      rw [← h.tokens]
      exact (Array.getElem?_eq_some_iff.mp hnext).1
  locals := fun d hd l hl => (h.locals d hd l hl).mono (Nat.le_succ _)
  errors := h.errors
  room := h.room

/-- Going past the next token keeps all places: it is no token behind the end. -/
theorem places_take {γ : Type} (f : Option Token → γ) (hit : γ → Bool)
    (hnone : hit (f none) = false) : Places r n (take f hit) where
  ok s a s' h hdone := by
    obtain ⟨found, s₁, hlook, hdone⟩ := run_bind.mp hdone
    obtain ⟨rfl, rfl⟩ := run_look.mp hlook
    split at hdone
    · next hhit =>
      obtain ⟨_, s₁, hadvance, hdone⟩ := run_bind.mp hdone
      obtain ⟨-, rfl⟩ := run_pure.mp hdone
      rw [← run_advance.mp hadvance]
      refine h.advance ?_
      cases hpeek : s.peek? with
      | none =>
        rw [hpeek, hnone] at hhit
        cases hhit
      | some t => rfl
    · obtain ⟨-, rfl⟩ := run_pure.mp hdone
      exact h
  problem s e s' h hstop := by
    rcases stop_bind.mp hstop with hstop | ⟨found, s₁, hlook, hstop⟩
    · cases hstop
    · split at hstop <;> cases hstop

/-- The locals a function starts with are of the compiler's own. -/
theorem places_beginFunction (kind : FunctionKind) (name : Handle) :
    Places r n (beginFunction kind name) :=
  places_modify fun s h => h.redraft s.heap fun d hd l hl => by
    rcases List.mem_cons.mp hd with rfl | hd
    · obtain rfl := List.mem_singleton.mp hl
      cases kind with
      | script | function => exact .inl (.inl rfl)
      | method | initializer => exact .inl (.inr (.inl rfl))
    · exact h.locals d hd l hl

/-- The function around keeps the places of its locals. -/
theorem places_finishFunction : Places r n finishFunction where
  ok s a s' h hdone := by
    unfold finishFunction at hdone
    dsimp only at hdone
    repeat' split at hdone
    · cases hdone
    · cases hdone
    · next hempty =>
      cases hdone
      exact h.redraft _ h.locals
    · next outer enclosing hcons =>
      cases hdone
      refine h.redraft _ fun d hd => h.locals d (List.mem_cons_of_mem _ ?_)
      rw [show s.enclosing = outer :: enclosing from hcons]
      exact hd
  problem s e s' h hstop := by
    unfold finishFunction at hstop
    dsimp only at hstop
    repeat' split at hstop
    all_goals cases hstop

/-- The locals that stay at the end of a scope were there before. -/
theorem Local.mem_of_mem_leave {depth : Nat} {ls : List Local} (h : l ∈ (Local.leave depth ls).2) :
    l ∈ ls := by
  induction ls with
  | nil => cases h
  | cons m rest ih =>
    rw [Local.leave] at h
    split at h
    · exact List.mem_cons_of_mem _ (ih h)
    · exact h

/-- Emitting an instruction moves nothing. -/
theorem keeping_emit (i : Instr) : Keeping (emit i) :=
  (keeping_look _).bind fun _ => keeping_redraft fun _ => rfl

/-- Emitting instructions moves nothing, by induction on them. -/
theorem keeping_emitAll (is : List Instr) : Keeping (emitAll is) := by
  induction is with
  | nil => exact keeping_pure ()
  | cons i is ih => exact (keeping_emit i).bind fun _ => ih

/-- Fewer locals may be in scope. -/
theorem State.Placed.keepLocals {f : Draft → Draft} (h : s.Placed r n)
    (hf : ∀ l ∈ (f s.draft).locals, l ∈ s.draft.locals) :
    { s with draft := f s.draft }.Placed r n :=
  h.redraft s.heap fun d hd l hl => by
    rcases List.mem_cons.mp hd with rfl | hd
    · exact h.locals _ List.mem_cons_self l (hf l hl)
    · exact h.locals d (List.mem_cons_of_mem _ hd) l hl

/-- The locals that stay at the end of a scope have the places they had. -/
theorem places_endScope : Places r n endScope := by
  have hleave : Places r n (do
      let left ← look fun s => Local.leave s.draft.scopeDepth s.draft.locals
      emitAll left.1
      modifyDraft fun d => { d with locals := left.2 }) := by
    refine ⟨fun s a s' h hdone => ?_, fun s e s' h hstop => ?_⟩
    · obtain ⟨⟨code, kept⟩, s₁, hlook, hdone⟩ := run_bind.mp hdone
      obtain ⟨hleave, rfl⟩ := run_look.mp hlook
      obtain ⟨_, s₁, hemit, hdone⟩ := run_bind.mp hdone
      have hstays := (keeping_emitAll code).ok _ _ _ hemit
      rw [← run_modify.mp hdone]
      have hkept : (Local.leave s.draft.scopeDepth s.draft.locals).2 = kept :=
        congrArg Prod.snd hleave
      refine (h.stays hstays).keepLocals (f := fun d => { d with locals := kept }) fun l hl => ?_
      rw [hstays.locals]
      exact Local.mem_of_mem_leave (hkept.symm ▸ hl)
    · rcases stop_bind.mp hstop with hstop | ⟨⟨code, kept⟩, s₁, hlook, hstop⟩
      · cases hstop
      · obtain ⟨-, rfl⟩ := run_look.mp hlook
        rcases stop_bind.mp hstop with hstop | ⟨_, s₁, -, hstop⟩
        · exact (keeping_emitAll code).places.problem _ _ _ h hstop
        · cases hstop
  have hdepth : Places r n (modifyDraft fun d => { d with scopeDepth := d.scopeDepth - 1 }) :=
    Keeping.places (keeping_redraft fun _ => rfl)
  exact hdepth.bind fun _ => hleave

/-- The locals in scope may be other ones of the same names and spans. -/
theorem State.Placed.rename {f : Draft → Draft} (h : s.Placed r n) (hf : ∀ l ∈ (f s.draft).locals,
    ∃ m ∈ s.draft.locals, m.name = l.name ∧ m.span = l.span) :
    { s with draft := f s.draft }.Placed r n :=
  h.redraft s.heap fun d hd l hl => by
    rcases List.mem_cons.mp hd with rfl | hd
    · obtain ⟨m, hm, hname, hspan⟩ := hf l hl
      have hplaced := h.locals _ List.mem_cons_self m hm
      rwa [Local.Placed, hname, hspan] at hplaced
    · exact h.locals d (List.mem_cons_of_mem _ hd) l hl

/-- A local that gets its value has the place it had. -/
theorem places_markInitialized : Places r n markInitialized :=
  places_modify fun s h => h.rename (f := Draft.markInitialized) fun l hl => by
    unfold Draft.markInitialized at hl
    split at hl
    · exact ⟨l, hl, rfl, rfl⟩
    · split at hl
      · exact ⟨l, hl, rfl, rfl⟩
      · next m rest hcons =>
        rw [hcons]
        rcases List.mem_cons.mp hl with rfl | hl
        · exact ⟨m, List.mem_cons_self, rfl, rfl⟩
        · exact ⟨l, List.mem_cons_of_mem _ hl, rfl, rfl⟩

/-- A local is added unless there are too many. -/
theorem addLocal_eq (name : String) (span : Source.Span) (s : State) : addLocal name span s =
    if s.draft.locals.length ≥ maxLocals then
      .error (.problem (s.errorBefore .tooManyLocals)) s
    else .ok () { s with draft := s.draft.declare name span } := by
  simp only [addLocal, bind, EStateM.bind, look]
  split <;> rfl

/-- A local that has its place may be declared. -/
theorem State.Placed.declare {name : String} {span : Source.Span} (h : s.Placed r n)
    (hplaced : (Local.mk name span none false).Placed r s.pos) :
    { s with draft := s.draft.declare name span }.Placed r n :=
  h.redraft s.heap fun d hd l hl => by
    rcases List.mem_cons.mp hd with rfl | hd
    · rcases List.mem_cons.mp hl with rfl | hl
      · exact hplaced
      · exact h.locals _ List.mem_cons_self l hl
    · exact h.locals d (List.mem_cons_of_mem _ hd) l hl

/-- The local `super` is of the compiler's own. -/
theorem places_addSuper : Places r n (addLocal "super" Source.Span.none) where
  ok s a s' h hdone := by
    rw [addLocal_eq] at hdone
    split at hdone
    · cases hdone
    · cases hdone
      exact h.declare (.inl (.inr (.inr rfl)))
  problem s e s' h hstop := by
    rw [addLocal_eq] at hstop
    split at hstop
    · cases hstop
      exact ⟨h, h.errorBefore rfl⟩
    · cases hstop

/-! ### Captured variables -/

/-- A local that is marked as captured has the name and the place it had. -/
theorem Local.mem_markCaptured {name : String} {ls : List Local}
    (h : l ∈ Local.markCaptured name ls) : ∃ m ∈ ls, m.name = l.name ∧ m.span = l.span := by
  induction ls with
  | nil => cases h
  | cons m rest ih =>
    rw [Local.markCaptured] at h
    split at h
    · rcases List.mem_cons.mp h with rfl | h
      · exact ⟨m, List.mem_cons_self, rfl, rfl⟩
      · exact ⟨l, List.mem_cons_of_mem _ h, rfl, rfl⟩
    · rcases List.mem_cons.mp h with rfl | h
      · exact ⟨l, List.mem_cons_self, rfl, rfl⟩
      · obtain ⟨m', hm', hname, hspan⟩ := ih h
        exact ⟨m', List.mem_cons_of_mem _ hm', hname, hspan⟩

/-- A capture leaves the locals. -/
theorem Draft.locals_addCapture (d : Draft) (c : Capture) : (d.addCapture c).2.locals = d.locals := by
  unfold Draft.addCapture
  repeat' split
  all_goals rfl

/-- Too many captures are an error of one place. -/
theorem Draft.single_addCapture {d d' : Draft} {c : Capture}
    (h : d.addCapture c = (.error p, d')) : p.previous? = none := by
  unfold Draft.addCapture at h
  repeat' split at h
  all_goals cases h
  rfl

/-- Looking for a variable of the functions around moves no local. -/
theorem LocalsPlaced.resolveCapture {name : String} {limit : Nat} {inner : Draft}
    {around : List Draft} (h : LocalsPlaced r limit (inner :: around)) :
    LocalsPlaced r limit ((Draft.resolveCapture name inner around).2.1 ::
      (Draft.resolveCapture name inner around).2.2) := by
  induction around generalizing inner with
  | nil => exact h
  | cons outer rest ih =>
    obtain ⟨hinner, hrest⟩ := List.forall_mem_cons.mp h
    have hadd {c : Capture} {ds : List Draft} (hds : LocalsPlaced r limit ds) :
        LocalsPlaced r limit ((inner.addCapture c).2 :: ds) :=
      List.forall_mem_cons.mpr ⟨fun l hl => hinner l (inner.locals_addCapture c ▸ hl), hds⟩
    unfold Draft.resolveCapture
    split
    · exact h
    · refine hadd (List.forall_mem_cons.mpr ⟨fun l hl => ?_, (List.forall_mem_cons.mp hrest).2⟩)
      obtain ⟨m, hm, hname, hspan⟩ := Local.mem_markCaptured hl
      have hplaced := (List.forall_mem_cons.mp hrest).1 m hm
      rwa [Local.Placed, hname, hspan] at hplaced
    · have hrest' := ih hrest
      split
      · next heq =>
        rw [heq] at hrest'
        exact hadd hrest'
      · next heq =>
        rw [heq] at hrest'
        exact List.forall_mem_cons.mpr ⟨hinner, hrest'⟩

/-- A variable that cannot be captured is a problem of one place. -/
theorem Draft.single_resolveCapture {name : String} {inner : Draft} {around : List Draft}
    (h : (Draft.resolveCapture name inner around).1 = .error p) : p.previous? = none := by
  induction around generalizing inner with
  | nil => cases h
  | cons outer rest ih =>
    have hadd {c : Capture} (h : (inner.addCapture c).1.map some = .error p) :
        p.previous? = none := by
      cases hadded : inner.addCapture c with
      | mk index d =>
        rw [hadded] at h
        cases index with
        | ok i => cases h
        | error q =>
          obtain rfl : q = p := Except.error.inj h
          exact Draft.single_addCapture hadded
    unfold Draft.resolveCapture at h
    split at h
    · cases h
      rfl
    · exact hadd h
    · split at h
      · exact hadd h
      · next heq => exact ih ((congrArg Prod.fst heq).trans h)

/-- The functions around keep the places of their locals when one is captured. -/
theorem places_captureVariable (name : String) : Places r n (captureVariable name) where
  ok s a s' h hdone := by
    unfold captureVariable at hdone
    dsimp only at hdone
    split at hdone
    · cases hdone
      exact h.redraft s.heap h.locals.resolveCapture
    · exact (run_failBefore.mp hdone).elim
  problem s e s' h hstop := by
    unfold captureVariable at hstop
    dsimp only at hstop
    split at hstop
    · cases hstop
    · next hp =>
      cases hstop
      have h' : State.Placed r n { s with
          draft := (Draft.resolveCapture name s.draft s.enclosing).2.1
          enclosing := (Draft.resolveCapture name s.draft s.enclosing).2.2 } :=
        h.redraft s.heap h.locals.resolveCapture
      exact ⟨h', h'.errorBefore (Draft.single_resolveCapture hp)⟩

/-! ### Declarations -/

/-- A name is read, or something else is there. -/
theorem expectName_cases (what : Expectation) (s : State) :
    (∃ name span line, s.tokens[s.pos]? = some ⟨.name name, span, line⟩ ∧
      expectName what s = .ok name { s with pos := s.pos + 1 }) ∨
    expectName what s = .error (.problem (s.errorHere (.expected what s.found))) s := by
  unfold expectName
  cases ht : s.tokens[s.pos]? with
  | none =>
    have hpeek : s.peek? = none := by rw [State.peek?, State.lexeme?, ht]; rfl
    refine .inr ?_
    simp only [bind, EStateM.bind, look, hpeek]
    rfl
  | some t =>
    have hpeek : s.peek? = some t.token := by rw [State.peek?, State.lexeme?, ht]; rfl
    obtain ⟨token, span, line⟩ := t
    cases token with
    | name name =>
      refine .inl ⟨name, span, line, rfl, ?_⟩
      simp only [bind, EStateM.bind, look, hpeek]
      rfl
    | _ =>
      refine .inr ?_
      simp only [bind, EStateM.bind, look, hpeek]
      rfl

/-- An earlier declaration in the same scope has the same name. -/
theorem Local.duplicate?_eq_some {name : String} {depth : Nat} {ls : List Local}
    (h : Local.duplicate? name depth ls = some l) : l ∈ ls ∧ l.name = name := by
  induction ls with
  | nil => cases h
  | cons m rest ih =>
    rw [Local.duplicate?] at h
    split at h
    · split at h
      · next hname =>
        cases h
        exact ⟨List.mem_cons_self, hname⟩
      · obtain ⟨hmem, hname⟩ := ih h
        exact ⟨List.mem_cons_of_mem _ hmem, hname⟩
    · cases h

/-- A name is declared in a block or a function, unless its scope has it already. -/
theorem declareVariable_eq (name : String) (s : State) : declareVariable name s =
    if s.draft.scopeDepth > 0 then
      match Local.duplicate? name s.draft.scopeDepth s.draft.locals with
      | some first => .error (.problem (s.errorBefore (.duplicateLocal name first.span))) s
      | none => addLocal name s.previousSpan s
    else .ok () s := by
  have hlook {γ : Type} (f : State → γ) (g : γ → Compiler Unit) :
      (look f >>= g) s = g (f s) s := rfl
  rw [declareVariable, hlook]
  split
  · rw [hlook]
    cases Local.duplicate? name s.draft.scopeDepth s.draft.locals <;> rfl
  · rfl

/-- Declaring the name that was read last, where all locals have their places before it. -/
theorem State.Placed.declareVariable {name : String} {span : Source.Span} {line : UInt32} {i : Nat}
    (hproper : ¬ Implicit name) (h : s.Placed r n) (hpos : s.pos = i + 1)
    (ht : r.tokens[i]? = some ⟨.name name, span, line⟩)
    (hlocals : LocalsPlaced r i (s.draft :: s.enclosing)) :
    (∀ a s', declareVariable name s = .ok a s' → s'.Placed r n) ∧
      ∀ e s', declareVariable name s = .error (.problem e) s' → s'.Placed r n ∧ Points r n e := by
  have hread : s.tokens[s.pos - 1]? = some ⟨.name name, span, line⟩ := by
    rw [h.tokens, hpos]
    exact ht
  have hprevious : s.previous? = some ⟨.name name, span, line⟩ := by
    rw [State.previous?, if_neg (by omega), hread]
  rw [declareVariable_eq, addLocal_eq, State.previousSpan, hprevious]
  split
  · split
    · next first hfirst =>
      obtain ⟨hmem, hname⟩ := Local.duplicate?_eq_some hfirst
      refine ⟨fun a s' hdone => (by cases hdone), fun e s' hstop => ?_⟩
      cases hstop
      rw [State.errorBefore_of_pos hread (by omega)]
      refine ⟨h, .inl ⟨_, Array.mem_of_getElem? ht, rfl, rfl⟩, fun name' previous hkind => ?_⟩
      obtain ⟨rfl, rfl⟩ := Problem.duplicateLocal.inj hkind
      rcases hlocals _ List.mem_cons_self first hmem with himplicit | ⟨j, hj, hnamed⟩
      · exact absurd (hname ▸ himplicit) hproper
      · exact ⟨j, i, hj, hname ▸ hnamed, line, ht⟩
    · split
      · refine ⟨fun a s' hdone => (by cases hdone), fun e s' hstop => ?_⟩
        cases hstop
        exact ⟨h, h.errorBefore rfl⟩
      · refine ⟨fun a s' hdone => ?_, fun e s' hstop => (by cases hstop)⟩
        cases hdone
        exact h.declare (.inr ⟨i, by omega, line, ht⟩)
  · refine ⟨fun a s' hdone => ?_, fun e s' hstop => (by cases hstop)⟩
    cases hdone
    exact h

/-- A name is read and declared, with steps in between that move nothing. -/
theorem places_declared {what : Expectation} {x : String → Compiler α} {f : String → α → β}
    (hproper : ∀ l ∈ r.tokens, ∀ name, l.token = .name name → ¬ Implicit name)
    (hx : ∀ name, Keeping (x name)) : Places r n (do
      let name ← expectName what
      let a ← x name
      declareVariable name
      return f name a) := by
  have hafter (s : State) (h : s.Placed r n) {name : String} {span : Source.Span} {line : UInt32}
      (ht : s.tokens[s.pos]? = some ⟨.name name, span, line⟩) :
      (∀ b s', (do let a ← x name; declareVariable name; return f name a : Compiler β)
        { s with pos := s.pos + 1 } = .ok b s' → s'.Placed r n) ∧
      ∀ e s', (do let a ← x name; declareVariable name; return f name a : Compiler β)
        { s with pos := s.pos + 1 } = .error (.problem e) s' → s'.Placed r n ∧ Points r n e := by
    have hread : { s with pos := s.pos + 1 }.Placed r n :=
      h.advance (by rw [State.peek?, State.lexeme?, ht]; rfl)
    rw [h.tokens] at ht
    have hname : ¬ Implicit name := hproper _ (Array.mem_of_getElem? ht) name rfl
    have hlocals (s₁ : State) (hstays : { s with pos := s.pos + 1 }.Stays s₁) :
        LocalsPlaced r s.pos (s₁.draft :: s₁.enclosing) :=
      LocalsPlaced.of_stays (s := { s with pos := s.pos + 1 }) h.locals hstays
    refine ⟨fun b s' hdone => ?_, fun e s' hstop => ?_⟩
    · obtain ⟨a, s₁, hbetween, hrest⟩ := run_bind.mp hdone
      obtain ⟨_, s₂, hdeclare, hreturn⟩ := run_bind.mp hrest
      obtain ⟨-, rfl⟩ := run_pure.mp hreturn
      have hstays := (hx name).ok _ _ _ hbetween
      exact ((hread.stays hstays).declareVariable hname hstays.pos ht
        (hlocals s₁ hstays)).1 _ _ hdeclare
    · rcases stop_bind.mp hstop with hstop | ⟨a, s₁, hbetween, hstop⟩
      · exact (hx name).places.problem _ _ _ hread hstop
      · have hstays := (hx name).ok _ _ _ hbetween
        rcases stop_bind.mp hstop with hstop | ⟨_, s₂, -, hstop⟩
        · exact ((hread.stays hstays).declareVariable hname hstays.pos ht
            (hlocals s₁ hstays)).2 _ _ hstop
        · cases hstop
  refine ⟨fun s b s' h hdone => ?_, fun s e s' h hstop => ?_⟩
  · obtain ⟨name, s₁, hname, hdone⟩ := run_bind.mp hdone
    rcases expectName_cases what s with ⟨name', span, line, ht, heq⟩ | heq
    · cases heq.symm.trans hname
      exact (hafter s h ht).1 _ _ hdone
    · cases heq.symm.trans hname
  · rcases expectName_cases what s with ⟨name', span, line, ht, heq⟩ | heq
    · rcases stop_bind.mp hstop with hstop | ⟨name, s₁, hname, hstop⟩
      · cases heq.symm.trans hstop
      · cases heq.symm.trans hname
        exact (hafter s h ht).2 _ _ hstop
    · rcases stop_bind.mp hstop with hstop | ⟨name, s₁, hname, hstop⟩
      · cases heq.symm.trans hstop
        exact ⟨h, h.errorHere rfl⟩
      · cases heq.symm.trans hname

/-! ### Going on after an error -/

/-- Compiling goes on behind the tokens that were read, and not behind the last one. -/
theorem resumeAt_bounds (tokens : Array Lexeme) (fuel pos : Nat) (hpos : pos ≤ tokens.size) :
    pos ≤ resumeAt tokens fuel pos ∧ resumeAt tokens fuel pos ≤ tokens.size := by
  induction fuel generalizing pos with
  | zero => exact ⟨Nat.le_refl _, hpos⟩
  | succ fuel ih =>
    rw [resumeAt]
    split
    · exact ⟨Nat.le_refl _, hpos⟩
    · next t ht =>
      dsimp only
      split
      · exact ⟨Nat.le_refl _, hpos⟩
      · obtain ⟨hle, hsize⟩ := ih (pos + 1) (Array.getElem?_eq_some_iff.mp ht).1
        exact ⟨by omega, hsize⟩

/-- A reported error comes behind those before, as long as there is room. -/
theorem State.Placed.report {e : CompileError} (h : s.Placed r n) (he : Points r n e) :
    (s.report e).Placed r n := by
  unfold State.report
  dsimp only
  split
  · next hroom =>
    obtain ⟨more, herrors, hmore⟩ := h.errors
    refine ⟨h.tokens, h.bytes, h.pos, h.locals, ⟨more ++ [e], ?_, ?_⟩, ?_⟩
    · rw [Array.toList_push, herrors, List.append_assoc]
    · intro e' he'
      rcases List.mem_append.mp he' with he' | he'
      · exact hmore e' he'
      · rwa [List.mem_singleton.mp he']
    · rw [Array.size_push]
      exact Nat.le_trans hroom (Nat.le_max_left _ _)
  · exact h.redraft _ h.locals

/-- The functions given up after an error take their locals with them. -/
theorem State.Placed.keepDrafts (h : s.Placed r n) (k : Nat) : (s.keepDrafts k).Placed r n := by
  unfold State.keepDrafts
  split
  · exact h
  · next draft enclosing hkept =>
    refine h.redraft s.heap fun d hd => h.locals d ?_
    exact List.mem_of_mem_drop (hkept.symm ▸ hd)

/-- A state that recovers records an error that has its place. -/
theorem State.Placed.recover {e : CompileError} (h : s.Placed r n) (he : Points r n e)
    (back : Checkpoint) : (s.recover e back).Placed r n := by
  have h₁ : ((s.report e).keepDrafts back.depth).Placed r n := (h.report he).keepDrafts _
  unfold State.recover
  dsimp only
  generalize (s.report e).keepDrafts back.depth = s₁ at h₁ ⊢
  have hnext : s₁.pos ≤ (if s₁.pos = back.pos && !s₁.atEnd then s₁.pos + 1 else s₁.pos) ∧
      (if s₁.pos = back.pos && !s₁.atEnd then s₁.pos + 1 else s₁.pos) ≤ s₁.tokens.size := by
    have hpos : s₁.pos ≤ s₁.tokens.size := h₁.tokens ▸ h₁.pos
    split
    · next hstuck =>
      simp only [State.atEnd, Bool.and_eq_true, Bool.not_eq_true', decide_eq_false_iff_not,
        decide_eq_true_eq] at hstuck
      omega
    · exact ⟨Nat.le_refl _, hpos⟩
  obtain ⟨hle, hsize⟩ := resumeAt_bounds s₁.tokens _ _ hnext.2
  have hlocals := h₁.keepLocals (f := fun d => { d with
      scopeDepth := back.scopeDepth
      locals := keepLast back.locals s₁.draft.locals }) fun l hl => List.mem_of_mem_drop hl
  exact
    { hlocals with
      pos := h₁.tokens ▸ hsize
      locals := fun d hd l hl => (hlocals.locals d hd l hl).mono (Nat.le_trans hnext.1 hle) }

/-- Recovering from errors that have their places keeps all places. -/
theorem Places.recovering {x : Compiler Unit} (hx : Places r n x) :
    Places r n (recovering x) where
  ok s a s' h hdone := by
    unfold Compile.recovering at hdone
    dsimp only at hdone
    split at hdone
    · next hbody =>
      cases hdone
      exact hx.ok _ _ _ h hbody
    · next hbody =>
      cases hdone
      obtain ⟨h', he⟩ := hx.problem _ _ _ h hbody
      exact h'.recover he _
    · cases hdone
  problem s e s' h hstop := by
    unfold Compile.recovering at hstop
    dsimp only at hstop
    split at hstop <;> cases hstop

/-- How deep forms are nested does not matter to places. -/
theorem State.Placed.level {s : State} (h : s.Placed r n) (k : Nat) :
    ({ s with nesting := k }).Placed r n := { h with }

instance deepens_places : Deepens (fun _ x _ => Places r n x) where
  nested h := {
    ok := fun s a s' hs hdone => by
      obtain ⟨-, s₁, hr, rfl⟩ := nested_ok_iff.mp hdone
      exact (h.ok _ _ _ (hs.level _) hr).level _
    problem := fun s e s' hs hstop => by
      rcases nested_error_iff.mp hstop with ⟨hfull, -, -⟩ | ⟨-, s₁, hr, rfl⟩
      · rw [nested_full hfull] at hstop
        exact (keeping_failHere rfl).places.problem s e s' hs hstop
      · obtain ⟨hplaced, he⟩ := h.problem _ _ _ (hs.level _) hr
        exact ⟨hplaced.level _, he⟩ }

/-- All forms keep all places. -/
theorem walk_places
    (hproper : ∀ l ∈ r.tokens, ∀ name, l.token = .name name → ¬ Implicit name) :
    Walk (fun _ x _ => Places r n x) recovering where
  pure a := (keeping_pure a).places
  bind hx hf := hx.bind hf
  look f := (keeping_look f).places
  failHere _ hp := (keeping_failHere hp.single).places
  failBefore _ hp := (keeping_failBefore hp.single).places
  take := places_take
  recode _ hf := (keeping_redraft fun d => (hf d).locals).places
  intern chars := (keeping_intern chars).places
  beginScope :=
    (keeping_redraft (f := fun d => { d with scopeDepth := d.scopeDepth + 1 }) fun _ => rfl).places
  beginFunction := places_beginFunction
  finishFunction := places_finishFunction
  endScope := places_endScope
  addSuper := places_addSuper
  markInitialized := places_markInitialized
  captureVariable := places_captureVariable
  classes _ := places_modify fun _ h => { h with }
  declaredName _ := places_declared (x := fun _ => pure ()) (f := fun name _ => name) hproper
    fun _ => keeping_pure ()
  declaredClass := places_declared (f := fun name constant => (name, constant)) hproper
    keeping_nameConstant
  recovering h := h.recovering

end ScriptMachine.Compile
