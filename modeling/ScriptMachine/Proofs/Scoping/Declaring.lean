import ScriptMachine.Proofs.Compile.Variables
import ScriptMachine.Proofs.Scoping.Expressions

/-!
# Declarations in a translation

Inside a scope, a declared name becomes a local whose slot is where its value is put; outside of
all scopes it is a global. At the end of a scope the locals that it added leave the stack.
-/

namespace ScriptMachine.Compile

variable {before : Heap} {s s' : State} {o : Nat} {P K : Site → Prop} {α β : Type} {name : String}
  {R : Body → Site → β → List UInt32 → Site → Prop}

/-! ### Places -/

namespace Site

variable {g g' g'' : Site}

/-- All locals are initialized, and none belongs to a deeper scope. -/
def Rests (g : Site) : Prop := ∀ l ∈ g.locals, ∃ k ≤ g.depth, l.depth = some k

/-- The place after statements and declarations: there are new locals in the scope. -/
structure Grows (g g' : Site) : Prop where
  depth : g'.depth = g.depth
  arity : g'.arity = g.arity
  classes : g'.classes = g.classes
  locals : Deeper g.depth g.locals g'.locals

/-- The place after a statement: no local is new. -/
structure Stays (g g' : Site) : Prop where
  depth : g'.depth = g.depth
  arity : g'.arity = g.arity
  classes : g'.classes = g.classes
  locals : LocalsLe g.locals g'.locals

/-- At rest every local has its value. -/
theorem Rests.settled (h : g.Rests) : Settled g.locals := by
  intro l hl
  obtain ⟨k, -, hk⟩ := h l hl
  simp [hk]

/-- Every site stays itself. -/
@[refl] theorem Stays.refl (g : Site) : g.Stays g := ⟨rfl, rfl, rfl, .refl _⟩

/-- Staying twice is staying. -/
theorem Stays.trans (h : g.Stays g') (h' : g'.Stays g'') : g.Stays g'' :=
  ⟨h'.depth.trans h.depth, h'.arity.trans h.arity, h'.classes.trans h.classes,
    h.locals.trans h'.locals⟩

/-- A site that stays has grown by nothing. -/
theorem Stays.grows (h : g.Stays g') : g.Grows g' :=
  ⟨h.depth, h.arity, h.classes, .of_le h.locals⟩

/-- Every site has grown by nothing. -/
@[refl] theorem Grows.refl (g : Site) : g.Grows g := (Stays.refl g).grows

/-- Growing twice is growing. -/
theorem Grows.trans (h : g.Grows g') (h' : g'.Grows g'') : g.Grows g'' :=
  ⟨h'.depth.trans h.depth, h'.arity.trans h.arity, h'.classes.trans h.classes,
    h.locals.trans (h.depth ▸ h'.locals)⟩

/-- A site that grows from rest is at rest. -/
theorem Grows.rests (h : g.Grows g') (hg : g.Rests) : g'.Rests := by
  obtain ⟨new, old, hlocals, hle, hnew⟩ := h.locals
  intro l hl
  rw [hlocals] at hl
  rw [h.depth]
  rcases List.mem_append.mp hl with hl | hl
  · exact ⟨_, Nat.le_refl _, hnew l hl⟩
  · obtain ⟨m, hm, hml⟩ := exists_of_mem_right hle hl
    obtain ⟨k, hk, hmk⟩ := hg m hm
    exact ⟨k, hk, hml.depth.trans hmk⟩

/-- As many locals are visible as before. -/
theorem Stays.scope_length (h : g.Stays g') (hg : g.Rests) :
    g'.scope.length = g.scope.length := by
  rw [Site.scope, Site.scope, length_scopeOf (h.grows.rests hg).settled, length_scopeOf hg.settled]
  exact h.locals.length_eq.symm

/-- The place with one more local, which has no value yet. -/
def declared (g : Site) (name : String) (span : Source.Span) : Site :=
  { g with locals := ⟨name, span, none, false⟩ :: g.locals }

/-- The place after the local declared last got its value. -/
def initialized (g : Site) : Site :=
  if g.depth = 0 then g
  else
    match g.locals with
    | [] => g
    | l :: rest => { g with locals := { l with depth := some g.depth } :: rest }

/-- The place after the closure of a function with some captures was made. -/
def marked (g : Site) (captures : List Capture) : Site :=
  { g with locals := markLocals captures g.locals }

/-- A name is not in scope before its value is known. -/
@[simp] theorem scope_declared {span : Source.Span} : (g.declared name span).scope = g.scope :=
  scopeOf_fresh rfl

/-- In a block the last local gets its value. -/
theorem initialized_inside {l : Local} {rest : List Local} (hdepth : 0 < g.depth)
    (hlocals : g.locals = l :: rest) :
    g.initialized = { g with locals := { l with depth := some g.depth } :: rest } := by
  rw [initialized, if_neg (Nat.ne_of_gt hdepth), hlocals]

/-- Only the last local may change. -/
theorem initialized_locals (g : Site) : g.initialized.locals.length = g.locals.length ∧
    g.initialized.locals.tail = g.locals.tail := by
  unfold initialized
  split
  · exact ⟨rfl, rfl⟩
  · split
    · exact ⟨rfl, rfl⟩
    · next h => simp [h]

/-- A local that was declared and got its value. -/
theorem initialized_declared {span : Source.Span} (hdepth : 0 < g.depth) :
    (g.declared name span).initialized =
      { g with locals := ⟨name, span, some g.depth, false⟩ :: g.locals } :=
  initialized_inside (l := ⟨name, span, none, false⟩) hdepth rfl

/-- A name that is declared with its value grows the site. -/
theorem grows_declared {span : Source.Span} (hdepth : 0 < g.depth) :
    g.Grows (g.declared name span).initialized := by
  rw [initialized_declared hdepth]
  exact ⟨rfl, rfl, rfl, [_], g.locals, rfl, .refl _, by simp⟩

/-- Marking locals as captured leaves the site. -/
theorem stays_marked (captures : List Capture) : g.Stays (g.marked captures) :=
  ⟨rfl, rfl, rfl, localsLe_markLocals captures g.locals⟩

end Site

/-! ### Declaring and defining -/

/-- The variable with a name is declared. -/
theorem makes_declareVariable : Makes before o Site.Rests (declareVariable name)
    fun _ g _ w h => w = [] ∧ ((g.depth = 0 ∧ h = g) ∨
      (0 < g.depth ∧ ∃ span, h = g.declared name span)) := by
  intro s _ s' hs _ hp h
  obtain ⟨-, ⟨hdepth, rfl⟩ | ⟨hdepth, hroom, span, rfl⟩⟩ := (does_declareVariable hs.live).run h
  · exact ⟨[], .refl hs, fun B _ => ⟨rfl, .inl ⟨hdepth, rfl⟩⟩⟩
  · exact ⟨[], (State.Adds.refl hs).resite s.pos (g := s.site.declared name span) hp.settled hroom,
      fun B _ => ⟨rfl, .inr ⟨hdepth, span, rfl⟩⟩⟩

/-- Only the site changes when a local gets its value. -/
theorem State.initialized_eq (s : State) : s.initialized = s.resite s.pos s.site.initialized := by
  by_cases hzero : s.draft.scopeDepth = 0
  · rw [State.initialized, markInitialized_zero hzero, Site.initialized]
    exact (if_pos (c := s.site.depth = 0) hzero).symm ▸ rfl
  · have hinside := Nat.pos_of_ne_zero hzero
    cases hlocals : s.draft.locals with
    | nil =>
      have hsame : s.site.initialized = s.site := by
        rw [Site.initialized, if_neg (show ¬s.site.depth = 0 from hzero)]
        simp [State.site, hlocals]
      rw [hsame, State.initialized, Draft.markInitialized, if_neg hzero]
      simp only [hlocals]
      rfl
    | cons l rest =>
      rw [State.initialized, markInitialized_inside hinside hlocals,
        Site.initialized_inside (g := s.site) hinside hlocals]
      rfl

/-- Giving a local its value makes no word. -/
theorem makes_markInitialized : Makes before o P markInitialized
    fun _ g _ w h => w = [] ∧ h = g.initialized :=
  makes_resite Site.initialized (fun s s' h => ⟨s.pos, by
      obtain rfl := (EStateM.Result.ok.inj h).2
      exact s.initialized_eq⟩)
    (fun g _ hfew hsettled => by
      obtain ⟨hlength, htail⟩ := g.initialized_locals
      exact ⟨hlength ▸ hfew, htail ▸ hsettled⟩)
    fun _ _ _ => ⟨rfl, rfl⟩

/-- The variable declared last gets the value on top of the stack. -/
theorem makes_defineVariable {k : UInt16} : Makes before o P (defineVariable k)
    fun _ g _ w h => (0 < g.depth ∧ w = [] ∧ h = g.initialized) ∨
      (g.depth = 0 ∧ w = [(Instr.defineGlobal k).encode] ∧ h = g) := by
  refine Makes.look (f := Site.depth) (fun _ => rfl) fun depth => ?_
  by_cases hdepth : depth > 0
  · rw [if_pos hdepth]
    exact makes_markInitialized.imp (fun _ => id) fun _ g _ w h hp hw =>
      .inl ⟨hp.2 ▸ hdepth, hw⟩
  · rw [if_neg hdepth]
    exact makes_emit fun _ g hp => .inr ⟨by omega, rfl, rfl⟩

/-- A name is gone past and declared. -/
theorem makes_bindName : Makes before o Site.Rests (bindName name)
    fun B g k w h => w = [] ∧ ((g.depth = 0 ∧ h = g ∧ B.Names k name) ∨
      (0 < g.depth ∧ ∃ span, h = g.declared name span)) := by
  unfold bindName
  refine .advance <| makes_declareVariable.then_ (K := fun _ => True) (fun _ _ _ _ _ _ _ => trivial)
    fun _ v => Makes.look (f := Site.depth) (fun _ => rfl) fun depth => ?_
  by_cases hdepth : depth > 0
  · rw [if_pos hdepth]
    refine makes_pure fun B g hp g₀ _ hg => ?_
    obtain ⟨rfl, ⟨hzero, rfl⟩ | ⟨hinside, hspan⟩⟩ := hg
    · exact absurd (hp.2.symm.trans hzero) (by omega)
    · exact ⟨rfl, .inr ⟨hinside, hspan⟩⟩
  · rw [if_neg hdepth]
    refine gives_nameConstant.makes.imp (fun _ => id) fun B g k w h hp hw g₀ _ hg => ?_
    obtain ⟨rfl, rfl, hk⟩ := hw
    obtain ⟨rfl, ⟨hzero, rfl⟩ | ⟨hinside, span, rfl⟩⟩ := hg
    · exact ⟨rfl, .inl ⟨hzero, rfl, hk⟩⟩
    · have hsame : g₀.depth = depth := hp.2
      omega

/-- A declared name is defined by a value. -/
theorem makes_binding {x : Compiler Unit} {S : Body → Scope → Unit → List UInt32 → Prop}
    (hx : ∀ o', Gives before o' x S) : Makes before o Site.Rests (do
      let global ← bindName name
      x
      defineVariable global) fun B g _ w h => g.Grows h ∧ ∃ v define, S B g.scope () v ∧
        Binds B g.scope name (decide (0 < g.depth)) define h.scope ∧ w = v ++ define := by
  refine makes_bindName.then_ (K := fun _ => True) (fun _ _ _ _ _ _ _ => trivial) fun k u =>
    Makes.then_ (K := fun _ => True) (hx _).makes (fun _ _ _ _ _ _ _ => trivial) fun _ v =>
      makes_defineVariable.imp (fun _ => id) fun B g _ w h _ hw g₁ _ hv g₀ hrests hu => ?_
  obtain ⟨rfl, hv⟩ := hv
  obtain ⟨rfl, ⟨hzero, rfl, hk⟩ | ⟨hinside, span, rfl⟩⟩ := hu
  · rcases hw with ⟨hdepth, -⟩ | ⟨-, rfl, rfl⟩
    · omega
    · refine ⟨.refl _, v, _, hv, ?_, rfl⟩
      rw [decide_eq_false (by omega)]
      exact .global hk
  · rcases hw with ⟨-, rfl, rfl⟩ | ⟨hdepth, -⟩
    · refine ⟨Site.grows_declared hinside, v, [], by simpa using hv, ?_, rfl⟩
      rw [decide_eq_true hinside, Site.initialized_declared hinside]
      exact .local_
    · exact absurd hdepth (Nat.ne_of_gt hinside)

/-! ### Scopes -/

/-- Beginning a scope makes no word. -/
theorem makes_beginScope : Makes before o P beginScope
    fun _ g _ w h => w = [] ∧ h = { g with depth := g.depth + 1 } :=
  makes_resite (fun g => { g with depth := g.depth + 1 })
    (fun s _ h => ⟨s.pos, (EStateM.Result.ok.inj h).2.symm⟩)
    (fun _ _ hfew hsettled => ⟨hfew, hsettled⟩) fun _ _ _ => ⟨rfl, rfl⟩

/-- The locals of a scope leave the stack at its end. -/
theorem makes_endScope {f : Site} : Makes before o (fun g => f.Rests ∧ g.depth = f.depth + 1 ∧
      Deeper g.depth f.locals g.locals) endScope
    fun _ g _ w h => w = g.scope.exit f.scope.length ∧ h.scope = g.scope.keep f.scope.length ∧
      h.depth = f.depth ∧ h.arity = g.arity ∧ h.classes = g.classes ∧
        LocalsLe f.locals h.locals := by
  intro s _ s' hs _ hp h
  obtain ⟨hrests, hdepth, new, old, hlocals, hle, hnew⟩ := hp
  have hdepth : s.draft.scopeDepth = f.depth + 1 := hdepth
  have hlocals : s.draft.locals = new ++ old := hlocals
  have hold : ∀ l ∈ old, ∃ k ≤ f.depth, l.depth = some k := by
    intro l hl
    obtain ⟨m, hm, hml⟩ := exists_of_mem_right hle hl
    obtain ⟨k, hk, hmk⟩ := hrests m hm
    exact ⟨k, hk, hml.depth.trans hmk⟩
  have hleave : Local.leave f.depth (new ++ old) = _ := leave_append
    (fun l hl => (hnew l hl).trans (congrArg some hdepth)) fun l hl k hk => by
      obtain ⟨k', hk', hlk⟩ := hold l hl
      rw [hlk, Option.some.injEq] at hk
      exact hk ▸ hk'
  obtain ⟨-, lines, left, rfl, -, rfl⟩ := (does_endScope hs.live).run h
  rw [hdepth, Nat.add_sub_cancel, hlocals, hleave]
  have hsettled : Settled new := fun l hl => by simp [hnew l hl]
  have hsettled' : Settled old := fun l hl => by
    obtain ⟨k, -, hk⟩ := hold l hl
    simp [hk]
  have hfew : old.length ≤ maxLocals := by
    have := (hs.tidy s.draft List.mem_cons_self).locals
    rw [hlocals, List.length_append] at this
    omega
  have hscope : s.site.scope = scopeOf new ++ scopeOf old := by
    rw [Site.scope, ← scopeOf_append]
    exact congrArg scopeOf hlocals
  have hlength : f.scope.length = (scopeOf old).length := by
    rw [Site.scope, length_scopeOf hrests.settled, length_scopeOf hsettled']
    exact hle.length_eq
  have hwords : s.site.scope.exit f.scope.length =
      (new.map fun l => if l.captured then Instr.closeUpvalue else .pop).map Instr.encode := by
    have hbindings : scopeOf new = new.map fun l => ⟨l.name, l.captured⟩ := by
      rw [scopeOf, List.filter_eq_self.mpr hsettled]
    rw [Scope.exit, hscope, hlength, List.length_append, Nat.add_sub_cancel, List.take_left,
      hbindings, List.map_map, List.map_map]
    rfl
  refine ⟨s.site.scope.exit f.scope.length, ?_, fun B _ => ⟨rfl, ?_, ?_, rfl, rfl, hle⟩⟩
  · exact ((State.Adds.refl hs).recode lines (by simp [hwords])).resite s.pos
      (g := ⟨s.draft.scopeDepth - 1, old, s.draft.arity, s.classes⟩)
      (fun l hl => hsettled' l (List.mem_of_mem_tail hl)) hfew
  · rw [Scope.keep, hscope, hlength, List.length_append, Nat.add_sub_cancel, List.drop_left]
    rfl
  · show s.draft.scopeDepth - 1 = f.depth
    rw [hdepth, Nat.add_sub_cancel]

end ScriptMachine.Compile
