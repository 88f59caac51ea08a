import ScriptMachine.Proofs.Compile.Closures
import ScriptMachine.Proofs.Parallel.Translating
import ScriptMachine.Proofs.Scoping.Functions

/-!
# Twins that translate a function

A function begins with twin drafts, whose code stays the same while it is translated. When it is
finished its objects are paired, and the closure that the code around makes of it captures the same
variables on both sides.
-/

namespace ScriptMachine

open Compile

namespace Compile

open Pairing

variable {p q : Pairing} {before before' : Heap} {s s' s₁ t t' t₁ : State}
  {v w : List UInt32} {flat : Bool} {kind : FunctionKind} {r r' : Handle}
  {made made' : Handle × Array Capture}

/-- The state in which the draft of a function begins inside those around it. -/
def State.within (s : State) (kind : FunctionKind) (r : Handle) : State :=
  { s with draft := Draft.start kind (some r), enclosing := s.drafts }

/-- The function in the making is a root beside the others. -/
theorem State.within_roots (kind : FunctionKind) (r : Handle) {x : Handle} (hx : x ∈ s.roots) :
    x ∈ (s.within kind r).roots := by
  rw [State.mem_roots] at hx ⊢
  rcases hx with ⟨d, hd, hx⟩ | hx
  · exact .inl ⟨d, List.mem_cons_of_mem _ hd, hx⟩
  · exact .inr hx

/-- Twins begin a function with paired names. -/
theorem Tandem.within (hs : p.Twins before before' s t) (hkind : kind ≠ .script)
    (hname : p.Pairs r r') (hr : s.heap.Covers [r]) (hr' : t.heap.Covers [r'])
    (htext : ∃ text, s.heap.object? r = some (.string text))
    (htext' : ∃ text, t.heap.object? r' = some (.string text))
    (hx : beginFunction kind r s = .ok () s') (hy : beginFunction kind r' t = .ok () t') :
    s' = s.within kind r ∧ t' = t.within kind r' ∧ p.Twins before before' s' t' := by
  obtain ⟨hlive, rfl⟩ := (does_beginFunction hs.left hr htext).run hx
  obtain ⟨hlive', rfl⟩ := (does_beginFunction hs.right hr' htext').run hy
  refine ⟨rfl, rfl, hlive, hlive', hs.heaps, hs.lines, fun x y hx hy => ?_, hs.classes, ?_⟩
  · exact hs.fresh x y (mt (·.mono fun _ => State.within_roots kind r) hx)
      (mt (·.mono fun _ => State.within_roots kind r') hy)
  · refine .inner ?_ hkind ⟨rfl, fun _ => rfl, .nil⟩ (fun _ c hc => ?_) hs.drafts
    · exact ⟨rfl, .some hname, rfl, Draft.pooled_start _ _, Draft.pooled_start _ _,
        .cons ⟨rfl, rfl, rfl⟩ .nil, rfl, rfl⟩
    · simp [Draft.start] at hc

/-- What is left of a function inside when it is finished: its object. -/
theorem State.Gains.finish (hb : (s.within kind r).Gains before s₁ v) (hlive : s₁.Live before)
    (h : finishFunction s₁ = .ok made s') : s.Gains before s' [] ∧ s'.drafts = s₁.enclosing ∧
      s'.classes = s₁.classes ∧ Recaptured s.draft s'.draft ∧
        s'.heap.Covers [made.1] ∧ made.2 = s₁.draft.captures ∧
          ∃ h₁, s₁.heap.Alike h₁ ∧ s'.heap.Sound ∧
            Heap.Allocated h₁ s₁.around (.function s₁.draft.prototype) made.1 s'.heap := by
  obtain ⟨hlive', hfinished⟩ := (does_finishFunction hlive).run h
  have hcovers := hfinished.covers hlive
  obtain ⟨hcaptures, h₁, h', ha, hsound, hpopped, halloc⟩ := hfinished
  have haround := hb.around
  generalize henclosing : s₁.enclosing = ds at haround
  cases haround with
  | @cons _ d _ ds hfirst hrest =>
  rw [State.popped_cons henclosing] at hpopped
  subst hpopped
  have hkept (x : Handle) (hx : s₁.heap.Reachable s₁.roots x) :
      h'.object? x = s₁.heap.object? x := by
    rw [halloc.kept x, ha.object?]
    rw [Heap.reachable_congr fun y _ => ha.object? y]
    exact hx.mono fun y hy => State.mem_finished.mpr hy
  obtain ⟨locals, captures, rfl, hlocals, hmore⟩ := hfirst
  refine ⟨⟨hlive', hb.outer, rfl, (List.append_nil _).symm, List.prefix_rfl, hrest, fun x hx => ?_⟩,
    rfl, rfl, ⟨locals, captures, rfl, hlocals, hmore⟩, hcovers, hcaptures, h₁, ha, hsound, halloc⟩
  have hbegun : (s.within kind r).heap.Reachable (s.within kind r).roots x :=
    hx.mono fun _ => State.within_roots kind r
  exact (hkept x (hb.reachable hbegun)).trans (hb.kept x hbegun)

/-- Twins finish a function each, and these are paired. -/
theorem Tandem.finish (hs : p.Twins before before' s t)
    (hb : Tandem flat before before' p (s.within kind r) (t.within kind r') q s₁ t₁ v w)
    (hx : finishFunction s₁ = .ok made s') (hy : finishFunction t₁ = .ok made' t') :
    ∃ q', Tandem true before before' p s t q' s' t' [] [] ∧ q'.Pairs made.1 made'.1 ∧
      s'.heap.Covers [made.1] ∧ t'.heap.Covers [made'.1] ∧ made.2 = made'.2 ∧
        s'.heap.object? made.1 = some (.function s₁.draft.prototype) ∧
          s₁.draft.prototype.upvalueCount = made.2.size ∧
            (s.enclosing = [] → ∀ c ∈ made.2, c.isLocal = true → 0 < c.index.toNat) := by
  obtain ⟨hleft, hdrafts, hclasses, hlocals, hcovers, hcaptures, h₁, ha, hsound, halloc⟩ :=
    hb.left.finish hb.twins.left hx
  obtain ⟨hright, hdrafts', hclasses', -, hcovers', hcaptures', h₁', ha', hsound', halloc'⟩ :=
    hb.right.finish hb.twins.right hy
  have hinner : s₁.enclosing ≠ [] := by
    rw [← hdrafts]
    exact List.cons_ne_nil _ _
  have htwin := hb.twins.drafts.twin
  -- the handles are new on both sides, so they may stand for each other
  have hreach {h₁ : Heap} {u : State} {x : Handle} (ha : u.heap.Alike h₁)
      (hx : u.heap.Reachable u.roots x) :
      h₁.Reachable (u.around ++ (Object.function u.draft.prototype).references) x := by
    rw [Heap.reachable_congr fun y _ => ha.object? y]
    exact hx.mono fun y hy => State.mem_finished.mpr hy
  have hfunction : q.terms.functions made.1 made'.1 := hb.twins.fresh _ _
    (fun hr => halloc.fresh _ (hreach ha hr) rfl)
    fun hr => halloc'.fresh _ (hreach ha' hr) rfl
  obtain ⟨q', hheaps, hpair, hkept⟩ := (hb.twins.heaps.alike ha ha').alloc halloc halloc' hsound
    hsound' (.function ⟨htwin.arity, congrArg Array.size htwin.captures, htwin.name,
      hb.twins.drafts.chunk hinner⟩) fun _ _ => hfunction
  have hpairs (x y : Handle) (hxy : q.Pairs x y) (hx : s₁.heap.Reachable s₁.roots x)
      (hy : t₁.heap.Reachable t₁.roots y) : q'.Pairs x y :=
    hkept.pairs x y hxy (hreach ha hx) (hreach ha' hy)
  have hterms : q'.terms = p.terms := hkept.terms.trans hb.terms
  have hrest : q'.Stacked s'.drafts t'.drafts := by
    have hstacked := hb.twins.drafts.around hinner
    rw [← hdrafts, ← hdrafts'] at hstacked
    refine hstacked.carry hkept.terms fun x y hx hy hxy => hpairs x y hxy ?_ ?_
    · obtain ⟨d, hd, hx⟩ := hx
      exact .root (State.mem_roots.mpr (.inl ⟨d, List.mem_cons_of_mem _ (hdrafts ▸ hd), hx⟩))
    · obtain ⟨e, he, hy⟩ := hy
      exact .root (State.mem_roots.mpr (.inl ⟨e, List.mem_cons_of_mem _ (hdrafts' ▸ he), hy⟩))
  refine ⟨q', ⟨hleft, hright, hterms, fun x y hxy hx hy => ?_, ⟨hleft.live, hright.live, hheaps, ?_,
    fun x y hx hy => ?_, ?_, hrest⟩, fun _ => .nil, fun _ => ?_⟩, hpair, hcovers, hcovers', ?_,
    halloc.new, congrArg Array.size hcaptures.symm, fun hscript => ?_⟩
  · have hbegun := hx.mono fun _ => State.within_roots kind r
    have hbegun' := hy.mono fun _ => State.within_roots kind r'
    exact hpairs x y (hb.pairs x y hxy hbegun hbegun') (hb.left.reachable hbegun)
      (hb.right.reachable hbegun')
  · rw [hterms]
    exact hs.lines
  · rw [hterms]
    exact hs.fresh x y (mt hleft.reachable hx) (mt hright.reachable hy)
  · rw [hclasses, hclasses', hb.twins.classes]
  · obtain ⟨locals, captures, hdraft, hle, -⟩ := hlocals
    rw [hdraft]
    exact ⟨rfl, Nat.le_of_eq hle.length_eq⟩
  · rw [hcaptures, hcaptures', htwin.captures]
  · have hone : s₁.enclosing.length = 1 := by
      rw [← hdrafts, State.drafts, hleft.enclosing_nil.mpr hscript, List.length_singleton]
    rw [hcaptures]
    exact hb.twins.drafts.above hone

/-! ### Declarations -/

/-- The local declared last is not the one of slot zero. -/
def State.Bound (s : State) : Prop :=
  s.enclosing = [] → 0 < s.draft.scopeDepth → 1 < s.draft.locals.length

/-- What is bound stays so. -/
theorem State.Bound.later (h : s.Bound) (ht : Tandem true before before' p s t q s' t' v w) :
    s'.Bound := by
  obtain ⟨hdepth, hlength⟩ := ht.level rfl
  intro hscript hinside
  exact Nat.lt_of_lt_of_le (h (ht.left.enclosing_nil.mp hscript) (hdepth ▸ hinside)) hlength

end Compile

namespace Pairing

open Compile

variable {p q : Pairing} {before before' : Heap} {s s' t t' : State} {v w : List UInt32}

/-- Constants under which a declared variable is defined: outside of all scopes they are those of its
name. -/
structure Binds (p : Pairing) (s t : State) (k l : UInt16) : Prop where
  above : s.Bound
  link : s.draft.scopeDepth = 0 → p.Matches s t k l

/-- A name that is bound alike stays so. -/
theorem Binds.later {k l : UInt16} (h : p.Binds s t k l)
    (ht : Tandem true before before' p s t q s' t' v w) : q.Binds s' t' k l :=
  ⟨h.above.later ht, fun hzero => (h.link ((ht.level rfl).1 ▸ hzero)).later ht⟩

end Pairing

namespace Compile

open Pairing

variable {p q q' : Pairing} {before before' : Heap} {s s' s₁ t t' t₁ : State}
  {v w : List UInt32} {flat : Bool} {kind : FunctionKind} {k l : UInt16}

/-- Twins declare a local each. -/
theorem Tandem.declared {name : String} {span span' : Source.Span} (hs : p.Twins before before' s t)
    (hroom : s.draft.locals.length < maxLocals) :
    Tandem flat before before' p s t p (s.declared name span) (t.declared name span') [] [] ∧
      (s.declared name span).Bound := by
  have hdeclared : Tandem flat before before' p s t p (s.resite s.pos (s.site.declared name span))
      (t.resite t.pos (t.site.declared name span')) [] [] :=
    .resite hs { sites_twins flat hs with
      locals := .cons ⟨rfl, rfl, rfl⟩ hs.drafts.twin.locals
      grounded := fun hscript => ⟨hroom, .above (hs.drafts.grounded hscript).root⟩
      level := fun _ => ⟨rfl, Nat.le_succ _⟩ }
  exact ⟨hdeclared, fun hscript _ =>
    Nat.succ_lt_succ (hs.drafts.grounded hscript).root.length_pos⟩

/-- The same local is added. -/
theorem echoes_addLocal {name : String} {span span' : Source.Span} :
    Echoes true before before' p s t (addLocal name span) (addLocal name span')
      fun _ _ _ s' _ => s'.Bound := by
  intro hs _ _ s' t' hxs hyt
  obtain ⟨-, hroom, rfl⟩ := (does_addLocal hs.left).run hxs
  obtain ⟨-, -, rfl⟩ := (does_addLocal hs.right).run hyt
  obtain ⟨ht, hbound⟩ := Tandem.declared hs hroom
  exact ⟨p, [], [], ht, hbound⟩

/-- A name is declared alike. -/
theorem echoes_declareVariable {name : String} :
    Echoes true before before' p s t (declareVariable name) (declareVariable name)
      fun _ _ _ s' _ => s'.Bound := by
  intro hs _ _ s' t' hxs hyt
  have hdepth := hs.drafts.twin.scopeDepth
  obtain ⟨-, ⟨hzero, rfl⟩ | ⟨hinside, hroom, span, rfl⟩⟩ := (does_declareVariable hs.left).run hxs
  · obtain ⟨-, ⟨-, rfl⟩ | ⟨hinside', -⟩⟩ := (does_declareVariable hs.right).run hyt
    · exact ⟨p, [], [], .refl hs, fun _ hpos => absurd hzero (Nat.ne_of_gt hpos)⟩
    · omega
  · obtain ⟨-, ⟨hzero', -⟩ | ⟨-, -, span', rfl⟩⟩ := (does_declareVariable hs.right).run hyt
    · omega
    · obtain ⟨ht, hbound⟩ := Tandem.declared hs hroom
      exact ⟨p, [], [], ht, hbound⟩

/-- Places stay the same when the local declared last gets its value, if that is not the one of slot
zero. -/
theorem Sites.initialized {g g' : Site} (h : Sites flat s g g')
    (habove : s.enclosing = [] → 0 < g.depth → 1 < g.locals.length) :
    Sites flat s g.initialized g'.initialized := by
  have hlocals := h.locals
  unfold Site.initialized
  rw [← h.depth]
  split
  · exact h
  · next hinside =>
    generalize hls : g.locals = ls at hlocals
    generalize hms : g'.locals = ms at hlocals
    cases hlocals with
    | nil => exact h
    | cons hl hrest =>
      dsimp only
      refine ⟨rfl, h.arity, h.classes, .cons ⟨hl.name, rfl, hl.captured⟩ hrest,
        fun hscript => ?_, fun hflat => ?_⟩
      · obtain ⟨hfew, hroot⟩ := h.grounded hscript
        have hmore := habove hscript (Nat.pos_of_ne_zero hinside)
        rw [hls] at hfew hroot hmore
        refine ⟨hfew, ?_⟩
        cases hroot with
        | root => exact absurd hmore (Nat.lt_irrefl 1)
        | above rest => exact .above rest
      · have hlevel := h.level hflat
        rw [hls] at hlevel
        exact hlevel

/-- The variable declared last gets its value alike. -/
theorem along_markInitialized (hbound : s.Bound) :
    Along true before before' p s t markInitialized markInitialized := by
  have hinitialized (s s' : State) (h : markInitialized s = .ok () s') :
      ∃ pos, s' = s.resite pos s.site.initialized :=
    ⟨s.pos, (EStateM.Result.ok.inj h).2.symm.trans s.initialized_eq⟩
  exact along_resite _ _ hinitialized hinitialized fun hs => (sites_twins true hs).initialized hbound

/-- A declared variable is defined alike. -/
theorem along_defineVariable (hb : p.Binds s t k l) :
    Along true before before' p s t (defineVariable k) (defineVariable l) := by
  refine .look fun hs => ?_
  rw [← hs.drafts.twin.scopeDepth]
  by_cases hinside : s.draft.scopeDepth > 0
  · rw [if_pos hinside, if_pos hinside]
    exact along_markInitialized hb.above
  · rw [if_neg hinside, if_neg hinside]
    exact along_emit (.of_alike (.defineGlobal (hb.link (by omega))) (.of_free rfl))

/-- A name is gone past and declared alike. -/
theorem echoes_bindName {name : String} :
    Echoes true before before' p s t (bindName name) (bindName name)
      fun k l q s' t' => q.Binds s' t' k l := by
  refine .advance fun _ => echoes_declareVariable.then_ fun _ hbound => .look fun hs => ?_
  rw [← hs.drafts.twin.scopeDepth]
  split
  · next hinside => exact echoes_pure ⟨hbound, fun hzero => by omega⟩
  · refine fun hs k l s' t' hxs hyt => ?_
    obtain ⟨q, v, w, ht, hk⟩ := echoes_nameConstant hs k l s' t' hxs hyt
    exact ⟨q, v, w, ht, hbound.later ht, fun _ => hk⟩

/-! ### Functions -/

/-- Twins begin a scope. -/
theorem echoes_beginScope : Echoes false before before' p s t beginScope beginScope
    fun _ _ _ s' _ => 0 < s'.draft.scopeDepth := by
  intro hs _ _ s' t' hxs hyt
  obtain rfl := (EStateM.Result.ok.inj hxs).2
  obtain rfl := (EStateM.Result.ok.inj hyt).2
  have ht : Tandem false before before' p s t p
      (s.resite s.pos { s.site with depth := s.site.depth + 1 })
      (t.resite t.pos { t.site with depth := t.site.depth + 1 }) [] [] :=
    .resite hs { sites_twins false hs with
      depth := congrArg (· + 1) hs.drafts.twin.scopeDepth
      level := fun h => by cases h }
  exact ⟨p, [], [], ht, Nat.succ_pos _⟩

/-- The code at the end of a scope is none that only functions have. -/
theorem leave_outermost (depth : Nat) (ls : List Local) :
    ∀ i ∈ (Local.leave depth ls).1, i.constant? = none ∧ i.Outermost := by
  induction ls with
  | nil => exact fun _ hi => absurd hi List.not_mem_nil
  | cons l ls ih =>
    rw [Local.leave]
    split
    · refine List.forall_mem_cons.mpr ⟨?_, ih⟩
      split <;> exact ⟨rfl, .of_free rfl⟩
    · exact fun _ hi => absurd hi List.not_mem_nil

/-- The same locals leave their scope. -/
theorem along_endScope : Along false before before' p s t endScope endScope := by
  have hleft (s s' : State) (h : modifyDraft (fun d => { d with scopeDepth := d.scopeDepth - 1 }) s =
      .ok () s') : ∃ pos, s' = s.resite pos { s.site with depth := s.site.depth - 1 } :=
    ⟨s.pos, (EStateM.Result.ok.inj h).2.symm⟩
  have hleave : Along false before before' p s t _ _ :=
    along_resite (fun g => { g with depth := g.depth - 1 }) (fun g => { g with depth := g.depth - 1 })
      hleft hleft fun hs =>
        { sites_twins false hs with
          depth := congrArg (· - 1) hs.drafts.twin.scopeDepth
          level := fun h => by cases h }
  refine hleave.then_ fun {_ _ _ s₁ t₁ _ _} _ _ => .look fun hs => ?_
  have htwin := hs.drafts.twin
  obtain ⟨hcode, hkept⟩ := leave_same htwin.locals s₁.draft.scopeDepth
  dsimp only
  rw [← htwin.scopeDepth, ← hcode]
  refine (along_emitAll (leave_outermost _ _)).then_ fun ht _ => ?_
  refine along_resite (fun g => { g with locals := (Local.leave s₁.draft.scopeDepth s₁.draft.locals).2 })
    (fun g => { g with locals := (Local.leave s₁.draft.scopeDepth t₁.draft.locals).2 })
    (fun s _ h => ⟨s.pos, (EStateM.Result.ok.inj h).2.symm⟩)
    (fun s _ h => ⟨s.pos, (EStateM.Result.ok.inj h).2.symm⟩) fun hs₂ =>
    { sites_twins false hs₂ with
      locals := hkept
      grounded := fun hscript => ?_
      level := fun h => by cases h }
  have hg := hs.drafts.grounded (ht.left.enclosing_nil.mp hscript)
  exact ⟨Nat.le_trans (length_leave_le _ _) hg.few, hg.root.leave _⟩

/-! ### Functions -/

/-- The same number of parameters is noted. -/
theorem along_setArity {count : UInt8} : Along true before before' p s t
    (modifyDraft fun d => { d with arity := count }) (modifyDraft fun d => { d with arity := count }) :=
  along_resite (fun g => { g with arity := count }) (fun g => { g with arity := count })
    (fun s _ h => ⟨s.pos, (EStateM.Result.ok.inj h).2.symm⟩)
    (fun s _ h => ⟨s.pos, (EStateM.Result.ok.inj h).2.symm⟩) fun hs =>
    { sites_twins true hs with arity := rfl }

/-- The same parameters are declared, by induction on them. -/
theorem along_parameters {params : List String} : Along true before before' p s t
    (translateParameters params) (translateParameters params) := by
  induction params generalizing p s t with
  | nil => exact along_pure
  | cons name params ih =>
    cases params with
    | nil =>
      rw [translateParameters]
      exact echoes_bindName.then_ fun _ hk => along_defineVariable hk
    | cons other params =>
      rw [translateParameters]
      · exact echoes_bindName.then_ fun _ hk => (along_defineVariable hk).then_ fun _ _ =>
          .advance fun _ => ih
      · simp

/-- The same signature is declared. -/
theorem along_signature {params : List String} : Along true before before' p s t
    (translateSignature params) (translateSignature params) := by
  unfold translateSignature
  split
  · exact .advance fun _ => along_parameters.then_ fun _ _ => along_setArity.then_ fun _ _ =>
      along_advance
  · exact .advance fun _ => along_advance

/-- A function ends with the same return. -/
theorem along_emitReturn (hinner : s.enclosing ≠ []) :
    Along flat before before' p s t emitReturn emitReturn := by
  refine .look fun hs => ?_
  rw [← hs.drafts.twin.kind]
  exact .emit ⟨fun hscript => absurd hscript hinner, fun _ => rfl⟩ fun ht =>
    along_emit ⟨fun hscript => absurd (ht.left.enclosing_nil.mp hscript) hinner, fun _ => rfl⟩

/-- Twins make a closure of matching functions, which capture the same. -/
theorem along_emitClosure {captures : Array Capture} (hk : p.Matches s t k l)
    (hcount : s.Counts k captures.size)
    (habove : s.enclosing = [] → ∀ c ∈ captures, c.isLocal = true → 0 < c.index.toNat) :
    Along true before before' p s t (emitClosure k captures) (emitClosure l captures) := by
  intro hs _ _ s' t' hxs hyt
  obtain ⟨-, code, lines, hcode, -, rfl⟩ := (does_emitClosure hs.left).run hxs
  obtain ⟨-, code', lines', hcode', -, rfl⟩ := (does_emitClosure hs.right).run hyt
  refine ⟨p, _, _, (Tandem.refl hs).recode lines lines' hcode hcode' (fun hinner => ?_)
    fun hscript => ?_, trivial⟩
  · obtain rfl := hk.inner hinner
    rw [← Array.toList_inj, hcode, hcode', (hs.drafts.chunk hinner).code]
  · have hwords := Aligned.closure (v := []) (w := []) hk (by simpa using hcount)
      (fun c hc => habove hscript c (Array.mem_toList_iff.mp hc)) .nil
    rwa [List.append_nil, List.append_nil] at hwords

/-- Paired functions become constants that match. -/
theorem echoes_functionConstant {x y : Handle} {f : Prototype} (hxy : p.Pairs x y)
    (hx : s.heap.Covers [x]) (hy : t.heap.Covers [y]) (hf : s.heap.object? x = some (.function f)) :
    Echoes true before before' p s t (makeConstant (.ofHandle x)) (makeConstant (.ofHandle y))
      fun k l q s' t' => q.Matches s' t' k l ∧ s'.Counts k f.upvalueCount := by
  intro hs k l s' t' hxs hyt
  have hcovers {h : Heap} {z : Handle} (hz : h.Covers [z]) (r : Handle)
      (hr : (Value.ofHandle z).toHandle? = some r) : h.Covers [r] := by
    rw [Value.toHandle?_ofHandle, Option.some.injEq] at hr
    exact hr ▸ hz
  obtain ⟨ht, hk⟩ := Tandem.makeConstant hs (.reference hxy) (hcovers hx) (hcovers hy) hxs hyt
  obtain ⟨-, -, hconstant⟩ :=
    State.Gains.makeConstant hs.left hs.drafts.twin.pooled (hcovers hx) hxs
  obtain ⟨_, _, rfl⟩ := makeConstant_keeps hs.left (hcovers hx) hxs
  exact ⟨p, [], [], ht, hk, x, f, hconstant, hf, rfl⟩

/-- From the first parameter to the last return of a function. -/
theorem along_functionCode {params : List String} {body : Compiler Unit} (hinner : s.enclosing ≠ [])
    (hbody : ∀ {p s t}, s.enclosing ≠ [] → Along false before before' p s t body body) :
    Along false before before' p s t (do
      beginScope
      translateSignature params
      advance
      body
      advance
      emitReturn) (do
      beginScope
      translateSignature params
      advance
      body
      advance
      emitReturn) :=
  echoes_beginScope.then_ fun h₁ _ => along_signature.loose.then_ fun h₂ _ => .advance fun h₃ =>
    (hbody (mt ((h₁.trans h₂).trans h₃).left.enclosing_nil.mp hinner)).then_ fun h₄ _ =>
      .advance fun h₅ => along_emitReturn
        (mt ((((h₁.trans h₂).trans h₃).trans h₄).trans h₅).left.enclosing_nil.mp hinner)

/-- Twins that translate a function are twins again. -/
theorem along_function {name : String} {params : List String} {body : Compiler Unit}
    (hkind : kind ≠ .script) (hbody : ∀ {p s t}, s.enclosing ≠ [] →
      Along false before before' p s t body body) : Along true before before' p s t
        (translateFunction kind name params body) (translateFunction kind name params body) := by
  have hsplit : translateFunction kind name params body =
      intern name >>= fun r => beginFunction kind r >>= fun _ => (do
        beginScope
        translateSignature params
        advance
        body
        advance
        emitReturn) >>= fun _ => finishFunction >>= fun made =>
          makeConstant (.ofHandle made.1) >>= fun k => emitClosure k made.2 := by
    simp [translateFunction]
  rw [hsplit]
  intro hs _ _ s' t' hxs hyt
  obtain ⟨r, s₁, h₁, h⟩ := run_bind.mp hxs
  obtain ⟨_, s₂, h₂, h⟩ := run_bind.mp h
  obtain ⟨_, s₃, h₃, h⟩ := run_bind.mp h
  obtain ⟨made, s₄, h₄, h₅⟩ := run_bind.mp h
  obtain ⟨r', t₁, h₁', h'⟩ := run_bind.mp hyt
  obtain ⟨_, t₂, h₂', h'⟩ := run_bind.mp h'
  obtain ⟨_, t₃, h₃', h'⟩ := run_bind.mp h'
  obtain ⟨made', t₄, h₄', h₅'⟩ := run_bind.mp h'
  obtain ⟨q₁, hname, hpair, hr, hr', htext, htext'⟩ := Tandem.intern hs h₁ h₁'
  obtain ⟨rfl, rfl, hwithin⟩ :=
    Tandem.within hname.twins hkind hpair hr hr' htext htext' h₂ h₂'
  obtain ⟨q₃, v, w, hcode, -⟩ := along_functionCode (s := s₁.within kind r) (List.cons_ne_nil _ _)
    hbody hwithin _ _ s₃ t₃ h₃ h₃'
  obtain ⟨q₄, hdone, hfunction, hcovers, hcovers', hcaptures, hobject, hsize, habove⟩ :=
    Tandem.finish hname.twins hcode h₄ h₄'
  rw [← hcaptures] at h₅'
  have hclosure := (echoes_functionConstant hfunction hcovers hcovers' hobject).then_
    fun ht hk => along_emitClosure hk.1 (hsize ▸ hk.2) fun hscript => habove
      ((hdone.trans ht).left.enclosing_nil.mp hscript)
  obtain ⟨q, v', w', htandem, -⟩ := hclosure hdone.twins _ _ s' t' h₅ h₅'
  exact ⟨q, _, _, (hname.trans hdone).trans htandem, trivial⟩

end Compile

end ScriptMachine
