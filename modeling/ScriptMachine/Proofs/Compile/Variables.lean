import ScriptMachine.Proofs.Compile.Scopes

/-!
# Declaring variables

Inside a scope a declared name is a local without a value at first. It gets its slot when the value
is on the stack, and from then on the picture of the stack has it. At the outermost depth a
declared name is a global.
-/

namespace ScriptMachine.Compile

variable {W W' W'' : World} {s s' s'' : State} {before : Heap} {name : String} {α β : Type}
  {k : UInt16} {l : Local} {rest : List Local}

/-! ### Declaring -/

/-- The state with a local that is not initialized. -/
def State.declared (s : State) (name : String) (span : Source.Span) : State :=
  { s with draft := s.draft.declare name span }

/-- A local is added, or there are too many. -/
theorem does_addLocal {span : Source.Span} (hl : s.Live before) :
    Does before s (addLocal name span s) fun _ s' =>
      s.draft.locals.length < maxLocals ∧ s' = s.declared name span := by
  refine (does_look (Q := fun count s' => count = s.draft.locals.length ∧ s' = s) hl
    ⟨rfl, rfl⟩).bind fun count s' hl' _ h => ?_
  obtain ⟨rfl, rfl⟩ := h
  by_cases hfull : s'.draft.locals.length ≥ maxLocals
  · rw [if_pos hfull]
    exact (does_failBefore (Q := fun _ _ => False) hl').bind fun _ _ _ _ h => h.elim
  · rw [if_neg hfull]
    exact does_modifyDraft hl' rfl rfl ⟨Nat.lt_of_not_le hfull, rfl⟩

/-- A name becomes a local within a scope, and none outside of all. -/
theorem does_declareVariable (hl : s.Live before) :
    Does before s (declareVariable name s) fun _ s' => (s.draft.scopeDepth = 0 ∧ s' = s) ∨
      (0 < s.draft.scopeDepth ∧ s.draft.locals.length < maxLocals ∧
        ∃ span, s' = s.declared name span) := by
  refine (does_look (Q := fun depth s' => depth = s.draft.scopeDepth ∧ s' = s) hl
    ⟨rfl, rfl⟩).bind fun depth s' hl' _ h => ?_
  obtain ⟨rfl, rfl⟩ := h
  by_cases hdepth : s'.draft.scopeDepth > 0
  · rw [if_pos hdepth]
    refine (does_look (Q := fun _ s₁ => s₁ = s') hl' rfl).bind fun first s₁ hl₁ _ h => ?_
    subst h
    cases first with
    | some first => exact does_failBefore hl₁
    | none =>
      refine (does_look (Q := fun _ s₂ => s₂ = s₁) hl₁ rfl).bind fun span s₂ hl₂ _ h => ?_
      subst h
      exact (does_addLocal hl₂).imp fun _ _ _ _ h => .inr ⟨hdepth, h.1, span, h.2⟩
  · rw [if_neg hdepth]
    exact does_pure hl' (.inl ⟨by omega, rfl⟩)

/-- A local without a value has no slot yet. -/
theorem slotsOf_fresh (hfresh : l.depth = none) : slotsOf (l :: rest) = slotsOf rest := by
  simp [slotsOf, hfresh]

/-- A local that has its value has the slot above the others. -/
theorem slotsOf_settled (hready : l.depth.isSome) : slotsOf (l :: rest) = slotsOf rest ++ [l.slot] := by
  simp [slotsOf, hready]

/-- Declaring a local changes nothing of the picture. -/
theorem emits_declared {span : Source.Span} (hr : s.Ready W) (hs : Settled s.draft.locals)
    (hdepth : 0 < s.draft.scopeDepth) (hroom : s.draft.locals.length < maxLocals) :
    Emits before W W s (s.declared name span) [] := by
  have hd := hr.drafts s.draft List.mem_cons_self
  refine ⟨hr.redraft ⟨hd.name, hd.constants, hd.pool, hd.few, hd.lines, ?_, hd.variables_, hs, ?_,
    ?_⟩ hr.captures.1 ?_ ?_ (hr.replanted rfl), rfl,
    ⟨rfl, rfl, rfl, rfl, List.prefix_rfl, List.prefix_rfl⟩, by simp [State.declared, Draft.declare],
    outgrown_refl _, rfl, fun _ _ _ ht => ht⟩
  · exact hroom
  · intro hnil
    exact hd.inhabited ((slotsOf_fresh rfl).symm.trans hnil)
  · intro m hm k hk
    rcases List.mem_cons.mp hm with rfl | hm
    · cases hk
    · exact hd.depth m hm k hk
  · intro hzero
    exact absurd hzero (Nat.ne_of_gt hdepth)
  · exact fun m hm hname => ⟨m, List.mem_cons_of_mem _ hm, hname⟩

/-- A name that was declared: a global, whose name is a constant, or a local without a value. -/
inductive Declared (before : Heap) (W W' : World) (s : State) (name : String) (k : UInt16)
    (s' : State) : Prop
  | global (depth : s.draft.scopeDepth = 0) (carries : Carries before W W' s s' [])
      (named : Named k name W' s')
  | local_ {l : Local} (depth : 0 < s.draft.scopeDepth) (emits : Emits before W W' s s' [])
      (locals : s'.draft.locals = l :: s.draft.locals) (named : l.name = name)
      (fresh : l.depth = none)

/-- A declared name leaves the state ready. -/
theorem Declared.ready (h : Declared before W W' s name k s') : s'.Ready W' := by
  cases h with
  | global _ carries _ => exact carries.ready
  | local_ _ emits _ _ _ => exact emits.ready

/-- A name that is read is declared as a local, or as a constant for a global. -/
theorem does_declareName {what : Expectation} (hl : s.Live before) :
    Does before s (declareName what s) fun r s' => ∀ W, s.Ready W → Settled s.draft.locals →
      s'.errors = #[] → Spelled r.1 ∧ ∃ W', Declared before W W' s r.1 r.2 s' := by
  refine (does_expectName hl).bind fun name s₁ hl₁ _ hname => ?_
  obtain ⟨⟨pos, rfl⟩, hspelled⟩ := hname
  refine (does_declareVariable hl₁).bind fun _ s₂ hl₂ _ hdeclared => ?_
  refine (does_look (Q := fun depth s₃ => depth = s₂.draft.scopeDepth ∧ s₃ = s₂) hl₂
    ⟨rfl, rfl⟩).bind fun depth s₃ hl₃ _ h => ?_
  obtain ⟨rfl, rfl⟩ := h
  rcases hdeclared with ⟨hdepth, rfl⟩ | ⟨hdepth, hroom, span, rfl⟩
  · rw [if_neg (Nat.not_lt.mpr (Nat.le_of_eq hdepth))]
    refine (finds_nameConstant (K := Always) _ hl₃).bind fun k s₄ hl₄ _ hk => ?_
    refine does_pure hl₄ fun W hr hs hclean => ⟨hspelled W hr, ?_⟩
    have hmoved : Carries before W W s _ [] := State.Moved.carries ⟨pos, rfl⟩ hr
    obtain ⟨W', hc, hnamed⟩ := hk W hmoved.ready trivial hclean
    exact ⟨W', .global hdepth (hmoved.trans hc) hnamed⟩
  · rw [if_pos (show (State.declared _ name span).draft.scopeDepth > 0 from hdepth)]
    refine does_pure hl₃ fun W hr hs hclean => ⟨hspelled W hr, W, ?_⟩
    have hmoved : Carries before W W s _ [] := State.Moved.carries ⟨pos, rfl⟩ hr
    exact .local_ hdepth (hmoved.emits.trans (emits_declared hmoved.ready hs hdepth hroom)) rfl rfl rfl

/-! ### Initializing -/

/-- The state whose latest local has its value. -/
def State.initialized (s : State) : State := { s with draft := s.draft.markInitialized }

/-- Outside of all scopes no local gets its value. -/
theorem markInitialized_zero {d : Draft} (h : d.scopeDepth = 0) : d.markInitialized = d :=
  if_pos h

/-- Within a scope the last local gets its value. -/
theorem markInitialized_inside {d : Draft} (h : 0 < d.scopeDepth) (hd : d.locals = l :: rest) :
    d.markInitialized =
      { d with locals := { l with depth := some d.scopeDepth } :: rest } := by
  rw [Draft.markInitialized, if_neg (Nat.ne_of_gt h), hd]

/-- The name and the code are kept. -/
theorem markInitialized_kept (d : Draft) :
    d.markInitialized.name = d.name ∧ d.markInitialized.chunk = d.chunk := by
  unfold Draft.markInitialized
  split
  · exact ⟨rfl, rfl⟩
  · split <;> exact ⟨rfl, rfl⟩

/-- Giving a local its value does nothing else. -/
theorem does_markInitialized (hl : s.Live before) :
    Does before s (markInitialized s) fun _ s' => s' = s.initialized := by
  obtain ⟨hname, hchunk⟩ := markInitialized_kept s.draft
  exact does_modifyDraft hl hname (by rw [hchunk]) rfl

/-- The variable declared last got its value: inside a scope it is initialized, else the code that
defines the global is emitted. -/
theorem does_defineVariable (hl : s.Live before) :
    Does before s (defineVariable k s) fun a s' => (0 < s.draft.scopeDepth ∧ s' = s.initialized) ∨
      (s.draft.scopeDepth = 0 ∧ s.Emitted (Instr.defineGlobal k).encode a s') := by
  refine (does_look (Q := fun depth s' => depth = s.draft.scopeDepth ∧ s' = s) hl
    ⟨rfl, rfl⟩).bind fun depth s' hl' _ h => ?_
  obtain ⟨rfl, rfl⟩ := h
  by_cases hdepth : s'.draft.scopeDepth > 0
  · rw [if_pos hdepth]
    exact (does_markInitialized hl').imp fun _ _ _ _ h => .inl ⟨hdepth, h⟩
  · rw [if_neg hdepth]
    exact (does_emit hl').imp fun _ _ _ _ h => .inr ⟨by omega, h⟩

/-- A local that gets its value, or had it, changes nothing but its slot. -/
theorem emits_initialized (before : Heap) (hr : s.Ready W) (hdepth : 0 < s.draft.scopeDepth)
    (hd : s.draft.locals = l :: rest) : Emits before W W s s.initialized [] ∧
      s.initialized.draft.locals = { l with depth := some s.draft.scopeDepth } :: rest ∧
        (s.initialized.view W).context = (s.view W).context := by
  have hready := hr.drafts s.draft List.mem_cons_self
  have hsettled := hready.settled
  have hlength := hready.slots
  have hbound := hready.depth
  rw [hd] at hsettled hlength hbound
  have hstate : s.initialized =
      { s with draft := { s.draft with
          locals := { l with depth := some s.draft.scopeDepth } :: rest } } := by
    rw [State.initialized, markInitialized_inside hdepth hd]
  rw [hstate]
  refine ⟨⟨hr.redraft ⟨hready.name, hready.constants, hready.pool, hready.few, hready.lines,
    hlength, hready.variables_, hsettled, ?_, ?_⟩ hr.captures.1 ?_ ?_ (hr.replanted rfl), rfl,
    ⟨rfl, rfl, rfl, rfl, List.prefix_rfl, List.prefix_rfl⟩, by simp, outgrown_refl _, rfl,
    fun _ _ _ ht => ht⟩, rfl, rfl⟩
  · intro hnil
    have hslots : slotsOf ({ l with depth := some s.draft.scopeDepth } :: rest) =
        slotsOf rest ++ [l.slot] := slotsOf_settled rfl
    have hnil' : slotsOf ({ l with depth := some s.draft.scopeDepth } :: rest) = [] := hnil
    rw [hslots] at hnil'
    simp at hnil'
  · intro m hm j hj
    rcases List.mem_cons.mp hm with rfl | hm
    · exact Nat.le_of_eq (Option.some.inj hj).symm
    · exact hbound m (List.mem_cons_of_mem _ hm) j hj
  · intro hzero
    exact absurd hzero (Nat.ne_of_gt hdepth)
  · intro m hm hname
    rw [hd] at hm
    rcases List.mem_cons.mp hm with rfl | hm
    · exact ⟨_, List.mem_cons_self, hname⟩
    · exact ⟨m, List.mem_cons_of_mem _ hm, hname⟩

/-! ### Variable declarations -/

/-- The latest local is initialized after a step that emitted `w`. -/
structure Initializes (before : Heap) (W W' : World) (s s' : State) (w : List UInt32) (l : Local)
    (rest : List Local) : Prop where
  emits : Emits before W W' s s'.initialized w
  last : s'.initialized.draft.locals = { l with depth := some s.draft.scopeDepth } :: rest
  split : ∀ V, (s'.initialized.view W').Le V → ∃ S x, V.slots = S ++ [x] ∧
    SlotsUpgrade (slotsOf rest) S ∧ l.slot.Upgrade x ∧ (s'.view W').context.Le V.context ∧
      V.slots.take s.draft.slots.length = S

/-- The value on top of the stack becomes the slot of the last local. -/
theorem initializes {w : List UInt32} (hdepth : 0 < s.draft.scopeDepth)
    (he : Emits before W W' s s' w) (hlocals : s'.draft.locals = l :: rest)
    (hrest : LocalsLe s.draft.locals rest) : Initializes before W W' s s' w l rest := by
  have hdepth' : s'.draft.scopeDepth = s.draft.scopeDepth := he.draft.scopeDepth
  obtain ⟨hinit, hlast, hcontext⟩ := emits_initialized before he.ready (hdepth' ▸ hdepth) hlocals
  refine ⟨?_, hdepth' ▸ hlast, fun V hV => ?_⟩
  · have := he.trans hinit
    rwa [List.append_nil] at this
  · have hslots : s'.initialized.draft.slots = slotsOf rest ++ [l.slot] := by
      rw [Draft.slots, hlast, slotsOf_settled rfl]
      rfl
    have hup : SlotsUpgrade s'.initialized.draft.slots V.slots := hV.slots
    rw [hslots] at hup
    obtain ⟨S, x, hVS, hS, hx⟩ := hup.concat
    have hlength : S.length = s.draft.slots.length := by
      rw [← hS.length_eq]
      exact hrest.slots.length_eq.symm
    refine ⟨S, x, hVS, hS, hx, hcontext ▸ hV.context, ?_⟩
    rw [hVS, ← hlength, List.take_left]

/-- A step that leaves the value of the latest local on top, before the local is initialized. -/
theorem extends_initialized {w : List UInt32} (hdepth : 0 < s.draft.scopeDepth)
    (he : Emits before W W' s s' w) (hlocals : s'.draft.locals = l :: rest)
    (hrest : LocalsLe s.draft.locals rest)
    (hrun : ∀ (V : View) (S : List Slot) (x : Slot), V.slots = S ++ [x] →
      SlotsUpgrade (slotsOf rest) S → l.slot.Upgrade x → (s'.view W').context.Le V.context →
      Fragment V.context (.plain S) w (.plain (S ++ [x]))) :
    Extends before W W' s s'.initialized w := by
  have h := initializes hdepth he hlocals hrest
  refine ⟨h.emits, ⟨[_], rest, h.last, hrest, ?_⟩, fun V hV => ?_⟩
  · intro m hm
    rw [List.mem_singleton.mp hm]
  · obtain ⟨S, x, hVS, hS, hx, hcontext, htake⟩ := h.split V hV
    rw [htake, hVS]
    exact hrun V S x hVS hS hx hcontext

/-- The initializer of a local. -/
theorem extends_of_value {w : List UInt32} (hdepth : 0 < s.draft.scopeDepth)
    (hname : l.name ≠ "super") (hfresh : l.depth = none) (he : Emits before W W' s s' [])
    (hlocals : s'.draft.locals = l :: s.draft.locals)
    (hw : Compiles before W' W'' s' s'' w (Through [] [.value])) :
    Extends before W W'' s s''.initialized w := by
  have hle := hw.locals
  rw [hlocals] at hle
  obtain ⟨l', rest, hl', hrest, hlocals'⟩ := List.forall₂_cons_left_iff.mp hle
  refine extends_initialized hdepth (he.trans hw.emits) hlocals' hrest
    fun V S x _ hS hx hcontext => ?_
  have hbefore : (s''.view W'').Le ⟨V.context, S⟩ := by
    refine ⟨hcontext, ?_⟩
    show SlotsUpgrade (slotsOf s''.draft.locals) S
    rw [hlocals', slotsOf_fresh (hl'.depth.trans hfresh)]
    exact hS
  have hrun := (hw.runs _ hbefore).whole
  have hfits : SlotsFit (S ++ [.value]) (S ++ [x]) := by
    refine .append (.refl _) (.cons ⟨?_, by simp [Slot.value]⟩ .nil)
    rw [← hx.content]
    show Content.Fits .any (contentOf l'.name)
    rw [hl'.name, contentOf, if_neg hname]
  have hrun' := Fragment.append hrun (.nil (Shape.fits_plain hfits))
  simpa only [List.append_nil] using hrun'

/-- The value of a declared variable, which is defined by it. -/
theorem Declared.define {a : Unit} {w : List UInt32} {t : State} (hd : Declared before W W' s name k s')
    (hname : Spelled name)
    (hw : Compiles before W' W'' s' s'' w (Through [] [.value]))
    (ht : (0 < s''.draft.scopeDepth ∧ t = s''.initialized) ∨
      (s''.draft.scopeDepth = 0 ∧ s''.Emitted (Instr.defineGlobal k).encode a t)) :
    ∃ code, Extends before W W'' s t code := by
  cases hd with
  | local_ depth emits locals named fresh =>
    have hdepth : s''.draft.scopeDepth = s.draft.scopeDepth :=
      hw.emits.draft.scopeDepth.trans emits.draft.scopeDepth
    rcases ht with ⟨-, rfl⟩ | ⟨hzero, -⟩
    · exact ⟨w, extends_of_value depth (named ▸ hname.1) fresh emits locals hw⟩
    · omega
  | global depth carries named =>
    have hdepth : s''.draft.scopeDepth = s.draft.scopeDepth :=
      hw.emits.draft.scopeDepth.trans carries.emits.draft.scopeDepth
    rcases ht with ⟨hmore, -⟩ | ⟨-, he⟩
    · omega
    · have hall := (carries.trans hw.toCarries).trans (he.carries hw.ready)
      refine ⟨_, hall.emits, .of_le hall.locals, fun V hV => ?_⟩
      have hV' : (s''.view W'').Le V := by
        obtain ⟨lines, -, rfl⟩ := he
        exact hV
      have hnamed : V.context.Names k name :=
        names_mono (Stable.carry hw.toCarries carries.ready named : Named k name W'' s'') hV'.context
      have hlength : V.slots.length ≤ s.draft.slots.length := by
        rw [← hV.slots.length_eq]
        exact Nat.le_of_eq hall.locals.slots.length_eq.symm
      rw [List.take_of_length_le hlength, List.nil_append]
      have hrun := (hw.runs V hV').whole
      have hdefine := Fragment.instr (Effect.plain (g := none) (.defineGlobal hnamed)
        (hw.ready.slots_ne_nil hV'))
      have hpushed : V.slots ++ [.value] = withValues V.slots 1 := rfl
      rw [Whole, hpushed] at hrun
      simpa only [withValues, List.replicate_zero, List.append_nil] using hrun.append hdefine

/-- A variable declaration. -/
theorem declares_let {inner : Parsers} (hn : Nests before inner.expression) :
    Declares before (letDeclaration inner) := by
  have hvalue : Turns before Always (do
      let assigned ← accept .assign
      if assigned then expression inner else emit .null
      expect .semicolon .declarationEnd : Compiler Unit) [] [.value] := by
    refine Writes.after_reads (fun _ => does_accept) fun assigned => ?_
    cases assigned with
    | true => exact (hn.push _ []).bind fun _ => turns_expect
    | false => exact (turns_plain 0 1 0 fun _ => .null).bind fun _ => turns_expect
  have hsplit : letDeclaration inner = declareName .variableName >>= fun r => (do
      let assigned ← accept .assign
      if assigned then expression inner else emit .null
      expect .semicolon .declarationEnd : Compiler Unit) >>= fun _ => defineVariable r.2 := by
    unfold letDeclaration
    simp only [bind_assoc]
    congr
    funext r
    congr
    funext assigned
    cases assigned <;> simp
  rw [hsplit]
  intro s hl
  refine (does_declareName hl).bind fun r s₁ hl₁ _ hdeclared => ?_
  refine (hvalue s₁ hl₁).bind fun _ s₂ hl₂ hlater₂ hw => ?_
  refine (does_defineVariable hl₂).imp fun _ t _ hlater ht W hr hs hclean => ?_
  have hclean₂ := hlater.clean hclean
  have hclean₁ := hlater₂.clean hclean₂
  obtain ⟨hname, W', hd⟩ := hdeclared W hr hs hclean₁
  obtain ⟨W'', w, hw⟩ := hw W' hd.ready trivial hclean₂
  exact ⟨W'', hd.define hname hw ht⟩

end ScriptMachine.Compile
