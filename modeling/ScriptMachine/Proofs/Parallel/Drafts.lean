import ScriptMachine.Proofs.Compile.Functions
import ScriptMachine.Proofs.Parallel.Arrays
import ScriptMachine.Proofs.Parallel.Heaps

/-!
# One source compiled on two heaps

States of the compiler correspond if they are at the same place of the same tokens, and their drafts
have the same code and variables and corresponding constants. A step that does the same to all
corresponding states, up to the handles it makes, is uniform.
-/

namespace ScriptMachine

namespace Pairing

open Compile

variable {p q : Pairing} {s t : State} {d e : Draft} {v w : Value} {x y : Handle} {h₁ h₁' : Heap}

/-- Drafts correspond if they have the same code and variables, and corresponding constants. -/
structure Drafts (p : Pairing) (d e : Draft) : Prop where
  kind : d.kind = e.kind
  name : Option.Rel p.Pairs d.name e.name
  arity : d.arity = e.arity
  chunk : p.Chunks d.chunk e.chunk
  pooled : d.Pooled
  pooled' : e.Pooled
  locals : d.locals = e.locals
  captures : d.captures = e.captures
  scopeDepth : d.scopeDepth = e.scopeDepth

/-- States correspond if they differ in handles only, and in what no source sees. -/
structure States (p : Pairing) (s t : State) : Prop where
  heaps : p.Heaps s.heap t.heap
  functions : ∀ x y, p.terms.functions x y
  tokens : s.tokens = t.tokens
  pos : s.pos = t.pos
  sourceBytes : s.sourceBytes = t.sourceBytes
  classes : s.classes = t.classes
  nesting : s.nesting = t.nesting
  errors : s.errors = t.errors
  draft : p.Drafts s.draft t.draft
  enclosing : List.Forall₂ p.Drafts s.enclosing t.enclosing
  outer : ∀ x ∈ s.outer, ∃ y ∈ t.outer, p.Pairs x y
  outer' : ∀ y ∈ t.outer, ∃ x ∈ s.outer, p.Pairs x y

/-- Corresponding functions in the making correspond from the other side. -/
theorem Drafts.symm (hd : p.Drafts d e) : p.symm.Drafts e d where
  kind := hd.kind.symm
  name := option_symm hd.name
  arity := hd.arity.symm
  chunk := hd.chunk.symm
  pooled := hd.pooled'
  pooled' := hd.pooled
  locals := hd.locals.symm
  captures := hd.captures.symm
  scopeDepth := hd.scopeDepth.symm

/-- Corresponding states of the compiler correspond from the other side. -/
theorem States.symm (hs : p.States s t) : p.symm.States t s where
  heaps := hs.heaps.symm
  functions x y := hs.functions y x
  tokens := hs.tokens.symm
  pos := hs.pos.symm
  sourceBytes := hs.sourceBytes.symm
  nesting := hs.nesting.symm
  classes := hs.classes.symm
  errors := hs.errors.symm
  draft := hs.draft.symm
  enclosing := (hs.enclosing.imp fun _ _ => Drafts.symm).flip
  outer := hs.outer'
  outer' := hs.outer

/-- Corresponding values have the same index in pools of corresponding constants. -/
theorem Chunks.pool_eq (hc : p.Chunks d.chunk e.chunk) (hd : d.Pooled) (he : e.Pooled)
    (hvw : p.Values v w) : d.pool[v.bits]? = e.pool[w.bits]? := by
  ext k
  rw [hd.index, he.index]
  have hrel := forall₂_getElem? hc.constants k.toNat
  rw [Array.getElem?_toList, Array.getElem?_toList] at hrel
  generalize d.chunk.constants[k.toNat]? = a at hrel
  generalize e.chunk.constants[k.toNat]? = b at hrel
  cases hrel with
  | none => exact iff_of_false nofun nofun
  | some hab => rw [Option.some.injEq, Option.some.injEq, values_inj hab hvw]

/-- Paired constants stand at the same index. -/
theorem Drafts.pool_eq (hd : p.Drafts d e) (hvw : p.Values v w) :
    d.pool[v.bits]? = e.pool[w.bits]? := hd.chunk.pool_eq hd.pooled hd.pooled' hvw

/-- Corresponding functions have as many constants. -/
theorem Drafts.constants_size (hd : p.Drafts d e) :
    d.chunk.constants.size = e.chunk.constants.size := hd.chunk.constants.length_eq

/-! ### What the compiler keeps alive -/

/-- Every handle of a function in the making is paired with one of the other. -/
theorem Drafts.exists_handle (hd : p.Drafts d e) (hx : x ∈ d.handles) :
    ∃ y ∈ e.handles, p.Pairs x y := by
  rcases Draft.mem_handles.mp hx with hname | ⟨v, hv, hat⟩
  · have hrel := hd.name
    rw [hname] at hrel
    cases heq : e.name with
    | none =>
      rw [heq] at hrel
      cases hrel
    | some y =>
      rw [heq] at hrel
      cases hrel with
      | some hxy => exact ⟨y, Draft.mem_handles.mpr (.inl heq), hxy⟩
  · obtain ⟨w, hw, hvw⟩ := exists_of_mem_left hd.chunk.constants (Array.mem_toList_iff.mpr hv)
    obtain ⟨y, hy, hxy⟩ := hvw.exists_handle hat
    exact ⟨y, Draft.mem_handles.mpr (.inr ⟨w, Array.mem_toList_iff.mp hw, hy⟩), hxy⟩

/-- All functions in the making correspond. -/
theorem States.drafts (hs : p.States s t) : List.Forall₂ p.Drafts s.drafts t.drafts :=
  .cons hs.draft hs.enclosing

/-- Every root of one state is paired with one of the other. -/
theorem States.exists_root (hs : p.States s t) (hx : x ∈ s.roots) :
    ∃ y ∈ t.roots, p.Pairs x y := by
  rcases State.mem_roots.mp hx with ⟨d, hd, hmem⟩ | hmem
  · obtain ⟨e, he, hde⟩ := exists_of_mem_left hs.drafts hd
    obtain ⟨y, hy, hxy⟩ := hde.exists_handle hmem
    exact ⟨y, State.mem_roots.mpr (.inl ⟨e, he, hy⟩), hxy⟩
  · obtain ⟨y, hy, hxy⟩ := hs.outer x hmem
    exact ⟨y, State.mem_roots.mpr (.inr hy), hxy⟩

/-- What a draft refers to decides whether it corresponds. -/
theorem Drafts.carry (hd : p.Drafts d e) (hterms : q.terms = p.terms)
    (hpairs : ∀ x y, x ∈ d.handles → p.Pairs x y → q.Pairs x y) : q.Drafts d e :=
  { hd with
    name := option_carry hd.name fun x hx y => hpairs x y (Draft.mem_handles.mpr (.inl hx))
    chunk := { hd.chunk with
      lines := fun hq => hd.chunk.lines (hterms ▸ hq)
      constants := forall₂_values_carry hd.chunk.constants fun v hv x y hat =>
        hpairs x y (Draft.mem_handles.mpr (.inr ⟨v, Array.mem_toList_iff.mp hv, hat⟩)) } }

/-- Heaps that keep what the compiler keeps alive may take the place of its heap. -/
theorem States.carry (hs : p.States s t) (hq : q.Heaps h₁ h₁') (hterms : q.terms = p.terms)
    (hpairs : ∀ x y, p.Pairs x y → x ∈ s.roots → q.Pairs x y) :
    q.States { s with heap := h₁ } { t with heap := h₁' } := by
  have houter (x y : Handle) (hx : x ∈ s.outer) (hxy : p.Pairs x y) : q.Pairs x y :=
    hpairs x y hxy (State.mem_roots.mpr (.inr hx))
  have hdraft (d e : Draft) (hd : d ∈ s.drafts) (hde : p.Drafts d e) : q.Drafts d e :=
    hde.carry hterms fun x y hx hxy => hpairs x y hxy (State.mem_roots.mpr (.inl ⟨d, hd, hx⟩))
  refine { hs with
    heaps := hq
    functions := fun x y => hterms ▸ hs.functions x y
    draft := hdraft _ _ List.mem_cons_self hs.draft
    enclosing := ((List.forall₂_and_left _ _).mpr ⟨fun _ hd => hd, hs.enclosing⟩).imp
      fun d e hde => hdraft d e (List.mem_cons_of_mem _ hde.1) hde.2
    outer := fun x hx => ?_
    outer' := fun y hy => ?_ }
  · obtain ⟨y, hy, hxy⟩ := hs.outer x hx
    exact ⟨y, hy, houter x y hx hxy⟩
  · obtain ⟨x, hx, hxy⟩ := hs.outer' y hy
    exact ⟨x, hx, houter x y hx hxy⟩

/-- The drafts around take the place of the innermost ones. -/
theorem States.popped (hs : p.States { s with heap := h₁ } { t with heap := h₁' }) :
    p.States (s.popped h₁) (t.popped h₁') := by
  have henclosing := hs.enclosing
  unfold State.popped
  dsimp only at henclosing
  generalize s.enclosing = ds at henclosing
  generalize t.enclosing = es at henclosing
  cases henclosing with
  | nil => exact { hs with enclosing := .nil }
  | cons hde hrest => exact { hs with draft := hde, enclosing := hrest }

/-! ### What messages tell -/

/-- An error at the next token is the same. -/
theorem States.errorHere (hs : p.States s t) (e : Problem) : s.errorHere e = t.errorHere e := by
  have hline : s.line = t.line := by simp only [State.line, State.previous?, hs.pos, hs.tokens]
  simp only [State.errorHere, State.lexeme?, State.endSpan, hs.pos, hs.tokens, hs.sourceBytes, hline]

/-- An error at the token before is the same. -/
theorem States.errorBefore (hs : p.States s t) (e : Problem) :
    s.errorBefore e = t.errorBefore e := by
  simp only [State.errorBefore, State.previous?, hs.pos, hs.tokens, hs.errorHere]

end Pairing

namespace Compile

open Pairing

variable {α β γ δ : Type} {p q : Pairing} {s t s' : State}

/-- What the caller of `s` keeps alive stays so in `s'`, and paired. -/
structure Advances (p : Pairing) (s : State) (q : Pairing) (s' : State) : Prop where
  terms : q.terms = p.terms
  pairs : ∀ x y, p.Pairs x y → s.heap.Reachable s.outer x → q.Pairs x y
  keeps : ∀ x, s.heap.Reachable s.outer x → s'.heap.Reachable s'.outer x

/-- Advancing twice is advancing. -/
theorem Advances.trans {r : Pairing} {s'' : State} (h : Advances p s q s')
    (h' : Advances q s' r s'') : Advances p s r s'' :=
  ⟨h'.terms.trans h.terms, fun x y hxy hx => h'.pairs x y (h.pairs x y hxy hx) (h.keeps x hx),
    fun x hx => h'.keeps x (h.keeps x hx)⟩

/-- Nothing of the heap and of the caller changed. -/
theorem advances_of_eq (hheap : s'.heap = s.heap) (houter : s'.outer = s.outer) :
    Advances p s p s' :=
  ⟨rfl, fun _ _ hxy _ => hxy, fun x hx => by rwa [hheap, houter]⟩

/-- Two results of the compiler are alike: corresponding successes with `Q`, the same problem in
corresponding states, or a fault on either side. -/
inductive Similar (p : Pairing) (s : State) (Q : Pairing → α → β → State → State → Prop) :
    EStateM.Result Stop State α → EStateM.Result Stop State β → Prop
  | ok {q : Pairing} {a : α} {b : β} {s' t' : State} (advances : Advances p s q s')
    (states : q.States s' t') (answers : Q q a b s' t') : Similar p s Q (.ok a s') (.ok b t')
  | problem {q : Pairing} {e : CompileError} {s' t' : State} (advances : Advances p s q s')
    (states : q.States s' t') : Similar p s Q (.error (.problem e) s') (.error (.problem e) t')
  | faultLeft {f : Fault} {s' : State} {r : EStateM.Result Stop State β} :
    Similar p s Q (.error (.fault f) s') r
  | faultRight {f : Fault} {t' : State} {r : EStateM.Result Stop State α} :
    Similar p s Q r (.error (.fault f) t')

section Rules

variable {Q : Pairing → α → β → State → State → Prop} {T : Pairing → γ → δ → State → State → Prop}

/-- What happened before may be counted in. -/
theorem Similar.after {r : EStateM.Result Stop State α} {r' : EStateM.Result Stop State β}
    (h : Similar q s' Q r r') (ha : Advances p s q s') : Similar p s Q r r' := by
  cases h with
  | ok advances states answers => exact .ok (ha.trans advances) states answers
  | problem advances states => exact .problem (ha.trans advances) states
  | faultLeft => exact .faultLeft
  | faultRight => exact .faultRight

/-- One step after another. -/
theorem Similar.bind {x : Compiler α} {y : Compiler β} {f : α → Compiler γ} {g : β → Compiler δ}
    (h : Similar p s Q (x s) (y t))
    (hf : ∀ q a b s' t', q.States s' t' → Q q a b s' t' → Similar q s' T (f a s') (g b t')) :
    Similar p s T ((x >>= f) s) ((y >>= g) t) := by
  show Similar p s T (EStateM.bind x f s) (EStateM.bind y g t)
  unfold EStateM.bind
  generalize x s = r at h
  generalize y t = r' at h
  cases h with
  | ok advances states answers => exact (hf _ _ _ _ _ states answers).after advances
  | problem advances states => exact .problem advances states
  | faultLeft => exact .faultLeft
  | faultRight => exact .faultRight

end Rules

/-- A step does the same in corresponding states and answers with the same. -/
class Uniform (x : Compiler α) : Prop where
  similar : ∀ {p : Pairing} {s t : State}, p.States s t →
    Similar p s (fun _ a b _ _ => a = b) (x s) (x t)

section Composition

instance uniform_pure (a : α) : Uniform (pure a : Compiler α) where
  similar hs := .ok (advances_of_eq rfl rfl) hs rfl

/-- One uniform step after another. -/
theorem Uniform.bind {x : Compiler α} {f : α → Compiler β} (hx : Uniform x)
    (hf : ∀ a, Uniform (f a)) : Uniform (x >>= f) where
  similar hs := (hx.similar hs).bind fun _ a _ _ _ hs' hab => hab ▸ (hf a).similar hs'

instance uniform_bind (x : Compiler α) (f : α → Compiler β) [hx : Uniform x]
    [hf : ∀ a, Uniform (f a)] : Uniform (x >>= f) := hx.bind hf

instance uniform_seqRight (x : Compiler α) (y : Compiler β) [Uniform x] [Uniform y] :
    Uniform (x *> y) where
  similar hs :=
    have hb : Uniform (x >>= fun _ => y) := inferInstance
    hb.similar hs

instance uniform_ite {c : Prop} [Decidable c] (x y : Compiler α) [hx : Uniform x]
    [hy : Uniform y] : Uniform (if c then x else y) := by
  split
  · exact hx
  · exact hy

/-- Reading what corresponding states have alike. -/
theorem uniform_look {f : State → α} (hf : ∀ {p : Pairing} {s t : State}, p.States s t → f s = f t) :
    Uniform (look f) where
  similar hs := .ok (advances_of_eq rfl rfl) hs (hf hs)

/-- Changing a draft in the same way. -/
theorem uniform_modifyDraft {f : Draft → Draft}
    (hf : ∀ {p : Pairing} {d e : Draft}, p.Drafts d e → p.Drafts (f d) (f e)) :
    Uniform (modifyDraft f) where
  similar hs := .ok (advances_of_eq rfl rfl) { hs with draft := hf hs.draft } rfl

end Composition

/-! ### Stopping with a problem -/

instance uniform_failHere (e : Problem) : Uniform (failHere e : Compiler α) where
  similar {p s t} hs := by
    rw [failHere, failHere, hs.errorHere]
    exact .problem (advances_of_eq rfl rfl) hs

/-- A form one level deeper is uniform if it is: both states are on the same level. -/
instance uniform_nested (form : Compiler α) [hform : Uniform form] : Uniform (nested form) where
  similar {p s t} hs := by
    rcases Nat.lt_or_ge s.nesting maxNesting with hlt | hfull
    · have hlt' : t.nesting < maxNesting := hs.nesting ▸ hlt
      have hdeeper : p.States s.deeper t.deeper :=
        { hs with nesting := congrArg (· + 1) hs.nesting }
      have hsimilar := hform.similar hdeeper
      unfold nested
      rw [if_neg (Nat.not_le.mpr hlt), if_neg (Nat.not_le.mpr hlt')]
      generalize form s.deeper = r at hsimilar
      generalize form t.deeper = r' at hsimilar
      cases hsimilar with
      | ok advances states answers =>
        exact .ok ⟨advances.terms, advances.pairs, advances.keeps⟩
          { states with nesting := congrArg (· - 1) states.nesting } answers
      | problem advances states =>
        exact .problem ⟨advances.terms, advances.pairs, advances.keeps⟩
          { states with nesting := congrArg (· - 1) states.nesting }
      | faultLeft => exact .faultLeft
      | faultRight => exact .faultRight
    · rw [nested_full hfull, nested_full (hs.nesting ▸ hfull)]
      exact (uniform_failHere _).similar hs

instance uniform_failBefore (e : Problem) : Uniform (failBefore e : Compiler α) where
  similar {p s t} hs := by
    rw [failBefore, failBefore, hs.errorBefore]
    exact .problem (advances_of_eq rfl rfl) hs

/-! ### Steps that make handles -/

/-- Interning where everything in the making is kept alive. -/
theorem intern_eq (chars : String) (s : State) :
    intern chars s = match s.heap.intern chars fun _ => s.roots with
      | .ok (r, h) => .ok r { s with heap := h }
      | .error e => .error (.fault e) { s with heap := Heap.absent } := rfl

/-- The texts of one content are paired. -/
theorem similar_intern {chars : String} (hs : p.States s t) :
    Similar p s (fun q r r' _ _ => q.Pairs r r') (intern chars s) (intern chars t) := by
  have hroots (x : Handle) (hx : x ∈ s.roots) := hs.exists_root hx
  have hcovers := hs.heaps.covers_roots hroots
  have hcovers' := hs.symm.heaps.covers_roots fun _ => hs.symm.exists_root
  rw [intern_eq, intern_eq]
  rcases hs.heaps.left.intern chars hcovers with ⟨r, h, heq, hi⟩ | heq
  · rcases hs.heaps.right.intern chars hcovers' with ⟨r', h', heq', hi'⟩ | heq'
    · obtain ⟨q, hq, hpair, hkept⟩ := hs.heaps.intern hi hi'
      have hpairs (x y : Handle) (hxy : p.Pairs x y) (hx : s.heap.Reachable s.roots x) :
          q.Pairs x y := hkept.pairs x y hxy hx (hs.heaps.reach hroots hxy hx)
      have houter (x : Handle) (hx : s.heap.Reachable s.outer x) : s.heap.Reachable s.roots x :=
        hx.mono fun z hz => State.mem_roots.mpr (.inr hz)
      rw [heq, heq']
      refine .ok ⟨hkept.terms, fun x y hxy hx => hpairs x y hxy (houter x hx), fun x hx => ?_⟩
        (hs.carry hq hkept.terms fun x y hxy hx => hpairs x y hxy (.root hx)) hpair
      exact (Heap.reachable_congr fun z hz => hi.kept z (houter z hz)).mpr hx
    · rw [heq']
      exact .faultRight
  · rw [heq]
    exact .faultLeft

/-- Reading goes on at once. -/
theorem look_bind {α β : Type} (f : State → α) (k : α → Compiler β) (s : State) :
    (look f >>= k) s = k (f s) s := rfl

/-- Corresponding values get the same index. -/
theorem similar_makeConstant {v w : Value} (hs : p.States s t) (hvw : p.Values v w) :
    Similar p s (fun _ k k' _ _ => k = k') (makeConstant v s) (makeConstant w t) := by
  have hd := hs.draft
  rw [makeConstant, makeConstant, look_bind, look_bind, hd.pool_eq hvw]
  cases hfound : t.draft.pool[w.bits]? with
  | some k => exact .ok (advances_of_eq rfl rfl) hs rfl
  | none =>
    show Similar p s _ ((if s.draft.chunk.constants.size ≥ _ then _ else _ : Compiler UInt16) s)
      ((if t.draft.chunk.constants.size ≥ _ then _ else _ : Compiler UInt16) t)
    have hsize := hd.constants_size
    rw [hsize]
    split
    · exact (uniform_failBefore .tooManyConstants).similar hs
    · next hroom =>
      have hroom := Nat.lt_of_not_le hroom
      refine .ok (advances_of_eq rfl rfl) { hs with draft := { hd with
        chunk := ⟨hd.chunk.code, hd.chunk.lines, ?_⟩
        pooled := ?_
        pooled' := hd.pooled'.add hfound hroom } } (congrArg Nat.toUInt16 hsize)
      · show List.Forall₂ p.Values (s.draft.chunk.constants.push v).toList
          (t.draft.chunk.constants.push w).toList
        rw [Array.toList_push, Array.toList_push]
        exact List.rel_append hd.chunk.constants (.cons hvw .nil)
      · exact hd.pooled.add ((hd.pool_eq hvw).trans hfound) (hsize ▸ hroom)

/-- A function begins alike. -/
theorem similar_beginFunction {kind : FunctionKind} {x y : Handle} (hs : p.States s t)
    (hxy : p.Pairs x y) :
    Similar p s (fun _ _ _ _ _ => True) (beginFunction kind x s) (beginFunction kind y t) := by
  have hdraft : p.Drafts (Draft.start kind (some x)) (Draft.start kind (some y)) :=
    { kind := rfl
      name := .some hxy
      arity := rfl
      chunk := ⟨rfl, fun _ => rfl, .nil⟩
      pooled := Draft.pooled_start kind _
      pooled' := Draft.pooled_start kind _
      locals := rfl
      captures := rfl
      scopeDepth := rfl }
  exact .ok (advances_of_eq rfl rfl)
    { hs with draft := hdraft, enclosing := .cons hs.draft hs.enclosing } trivial

/-- Finishing a function allocates it on a heap with one more event, and goes back to the draft
around. -/
theorem finishFunction_cases (s : State) : (∃ e s', finishFunction s = .error (.fault e) s') ∨
    ∃ h, s.heap.Alike h ∧
      ((∃ e s', (h.alloc (.function s.draft.prototype) fun _ => s.around) = .error e ∧
          finishFunction s = .error (.fault e) s') ∨
        ∃ r h', (h.alloc (.function s.draft.prototype) fun _ => s.around) = .ok (r, h') ∧
          finishFunction s = .ok (r, s.draft.captures) (s.popped h')) := by
  unfold finishFunction State.around State.popped
  cases finishedName s.heap s.draft with
  | error e => exact .inl ⟨e, s, rfl⟩
  | ok name =>
    refine .inr ⟨_, Heap.alike_note s.heap .debug fun _ =>
      let code := s.draft.chunk.code.size
      let constants := s.draft.chunk.constants.size
      s!"compiled {name} ({code} instructions, {constants} constants)", ?_⟩
    dsimp only
    generalize Heap.alloc _ _ _ = made
    cases made with
    | error e => exact .inl ⟨e, _, rfl, rfl⟩
    | ok made =>
      refine .inr ⟨made.1, made.2, rfl, ?_⟩
      cases s.enclosing <;> rfl

/-- The functions of corresponding drafts are paired. -/
theorem similar_finishFunction (hs : p.States s t) :
    Similar p s (fun q made made' _ _ => q.Pairs made.1 made'.1 ∧ made.2 = made'.2)
      (finishFunction s) (finishFunction t) := by
  rcases finishFunction_cases s with ⟨e, s', heq⟩ | ⟨h, ha, hdone⟩
  · rw [heq]
    exact .faultLeft
  rcases finishFunction_cases t with ⟨e, t', heq⟩ | ⟨h', ha', hdone'⟩
  · rw [heq]
    exact .faultRight
  rcases hdone with ⟨e, s', -, heq⟩ | ⟨r, h₁, halloc, heq⟩
  · rw [heq]
    exact .faultLeft
  rcases hdone' with ⟨e, t', -, heq'⟩ | ⟨r', h₁', halloc', heq'⟩
  · rw [heq']
    exact .faultRight
  have hheaps := hs.heaps.alike ha ha'
  have hobject : p.Objects (.function s.draft.prototype) (.function t.draft.prototype) :=
    .function ⟨hs.draft.arity, congrArg Array.size hs.draft.captures, hs.draft.name, hs.draft.chunk⟩
  have hroots {s t : State} {p : Pairing} (hs : p.States s t) (x : Handle)
      (hx : x ∈ s.around ++ (Object.function s.draft.prototype).references) :
      ∃ y ∈ t.around ++ (Object.function t.draft.prototype).references, p.Pairs x y := by
    obtain ⟨y, hy, hxy⟩ := hs.exists_root (State.mem_finished.mp hx)
    exact ⟨y, State.mem_finished.mpr hy, hxy⟩
  -- both allocations succeeded, so they are the ones that the sound heaps allow
  obtain ⟨r₂, h₂, heq₁, hdone, hsound⟩ | herr := hheaps.left.alloc (.function s.draft.prototype) nofun
    (hheaps.covers_roots (hroots hs))
  · obtain ⟨r₂', h₂', heq₁', hdone', hsound'⟩ | herr := hheaps.right.alloc
      (.function t.draft.prototype) nofun (hheaps.symm.covers_roots (hroots hs.symm))
    · obtain ⟨rfl, rfl⟩ := Prod.mk.inj (Except.ok.inj (heq₁.symm.trans halloc))
      obtain ⟨rfl, rfl⟩ := Prod.mk.inj (Except.ok.inj (heq₁'.symm.trans halloc'))
      obtain ⟨q, hq, hpair, hkept⟩ := hheaps.alloc hdone hdone' hsound hsound' hobject
        fun _ _ => hs.functions _ _
      have hreach (x : Handle) (hx : s.heap.Reachable s.roots x) :
          h.Reachable (s.around ++ (Object.function s.draft.prototype).references) x :=
        ((Heap.reachable_congr fun z _ => ha.object? z).mpr hx).mono fun z hz =>
          State.mem_finished.mpr hz
      have hpairs (x y : Handle) (hxy : p.Pairs x y) (hx : s.heap.Reachable s.roots x) :
          q.Pairs x y :=
        hkept.pairs x y hxy (hreach x hx) (hheaps.reach (hroots hs) hxy (hreach x hx))
      have houter (x : Handle) (hx : s.heap.Reachable s.outer x) : s.heap.Reachable s.roots x :=
        hx.mono fun z hz => State.mem_roots.mpr (.inr hz)
      have hstates := hs.carry hq hkept.terms fun x y hxy hx => hpairs x y hxy (.root hx)
      rw [heq, heq']
      refine .ok ⟨hkept.terms, fun x y hxy hx => hpairs x y hxy (houter x hx), fun x hx => ?_⟩
        hstates.popped ⟨hpair, hs.draft.captures⟩
      rw [State.popped_heap, State.popped_outer]
      refine (Heap.reachable_congr fun z hz => ?_).mpr hx
      rw [hdone.kept z (hreach z (houter z hz)), ha.object?]
    · cases halloc'.symm.trans herr
  · cases halloc.symm.trans herr

end Compile

end ScriptMachine
