import ScriptMachine.Proofs.Compile.Expressions

/-!
# Statements, declarations and scopes

A statement leaves the stack as it was; a declaration may leave the values of new locals on top.
At the end of a scope its locals leave the stack, so what is between a beginning and an end of a
scope is a statement again.
-/

namespace ScriptMachine.Compile

variable {W W' W'' : World} {s s' s'' : State} {before : Heap} {name : String} {α β : Type}
  {pre post : List Slot}

/-- All locals of the innermost function are initialized. -/
def AllSettled : World → State → Prop := fun _ s => Settled s.draft.locals

instance : Stable AllSettled := ⟨fun hc _ hk => hc.locals.settled hk⟩

/-- Without temporaries below, code turns `pre` on top of the locals into `post`. -/
def Whole (pre post : List Slot) (V : View) (code : List UInt32) : Prop :=
  Fragment V.context (.plain (V.slots ++ pre)) code (.plain (V.slots ++ post))

/-- Code that is entered and left as said is whole. -/
theorem Through.whole {V : View} {code : List UInt32} (h : Through pre post V code) :
    Whole pre post V code := by
  have := h []
  rwa [List.append_nil] at this

/-- A statement leaves the stack as it was. -/
def Executes (before : Heap) (x : Compiler α) : Prop :=
  Writes before AllSettled x fun _ => Whole [] []

/-- Code that leaves the height is that of a statement. -/
theorem Turns.executes {x : Compiler α} (h : Turns before AllSettled x [] []) :
    Executes before x := Writes.imp h fun _ _ _ => Through.whole

/-- A statement after a statement. -/
theorem Executes.bind {x : Compiler α} {f : α → Compiler β} (hx : Executes before x)
    (hf : ∀ a, Executes before (f a)) : Executes before (x >>= f) :=
  Writes.bind hx hf fun _ _ _ _ _ => Fragment.append

/-- There are new locals, at the given depth. -/
def Deeper (depth : Nat) (ls ms : List Local) : Prop :=
  ∃ new old, ms = new ++ old ∧ LocalsLe ls old ∧ ∀ l ∈ new, l.depth = some depth

/-- Locals that grow are no deeper. -/
theorem Deeper.of_le {depth : Nat} {ls ms : List Local} (h : LocalsLe ls ms) :
    Deeper depth ls ms := ⟨[], ms, rfl, h, by simp⟩

/-- Deeper than deeper is deeper. -/
theorem Deeper.trans {depth : Nat} {ls ms ns : List Local} (h : Deeper depth ls ms)
    (h' : Deeper depth ms ns) : Deeper depth ls ns := by
  obtain ⟨new, old, rfl, hle, hnew⟩ := h
  obtain ⟨new', old', rfl, hle', hnew'⟩ := h'
  have hmid : LocalsLe new (old'.take new.length) :=
    (List.forall₂_take_append _ _ _ (List.Forall₂.flip hle')).flip
  have hold : LocalsLe old (old'.drop new.length) :=
    (List.forall₂_drop_append _ _ _ (List.Forall₂.flip hle')).flip
  refine ⟨new' ++ old'.take new.length, old'.drop new.length, ?_, hle.trans hold, fun l hl => ?_⟩
  · rw [List.append_assoc, List.take_append_drop]
  · rcases List.mem_append.mp hl with hl | hl
    · exact hnew' l hl
    · obtain ⟨l', hl', hll'⟩ := exists_of_mem_right hmid hl
      rw [hll'.depth, hnew l' hl']

/-- A step that emits `code` and leaves new locals on the stack. -/
structure Extends (before : Heap) (W W' : World) (s s' : State) (code : List UInt32) : Prop where
  emits : Emits before W W' s s' code
  locals : Deeper s.draft.scopeDepth s.draft.locals s'.draft.locals
  runs : ∀ V, (s'.view W').Le V →
    Fragment V.context (.plain (V.slots.take s.draft.slots.length)) code (.plain V.slots)

/-- Initialized locals stay initialized. -/
theorem Extends.settled {code : List UInt32} (h : Extends before W W' s s' code)
    (hs : Settled s.draft.locals) : Settled s'.draft.locals := by
  obtain ⟨new, old, hlocals, hle, hnew⟩ := h.locals
  intro l hl
  rw [hlocals] at hl
  rcases List.mem_append.mp hl with hl | hl
  · rw [hnew l hl]
    rfl
  · exact hle.settled hs l hl

/-- The slots after a step are those before it and new ones. -/
theorem Extends.slots {code : List UInt32} (h : Extends before W W' s s' code) :
    SlotsUpgrade s.draft.slots (s'.draft.slots.take s.draft.slots.length) := by
  obtain ⟨new, old, hlocals, hle, -⟩ := h.locals
  have hup := hle.slots
  have hlength : s.draft.slots.length = (slotsOf old).length := hup.length_eq
  have hslots : s'.draft.slots = slotsOf old ++ slotsOf new := by
    rw [Draft.slots, hlocals, slotsOf_append]
  rw [hlength, hslots, List.take_left]
  exact hup

/-- Code that extends code that was extended extends it. -/
theorem Extends.trans {v w : List UInt32} (h : Extends before W W' s s' v)
    (h' : Extends before W' W'' s' s'' w) (hr : s'.Ready W') :
    Extends before W W'' s s'' (v ++ w) where
  emits := h.emits.trans h'.emits
  locals := h.locals.trans (h.emits.draft.scopeDepth ▸ h'.locals)
  runs := fun V hV => by
    have hup := h'.slots
    have hlength : s.draft.slots.length ≤ s'.draft.slots.length := by
      have := h.slots.length_eq
      rw [List.length_take] at this
      omega
    -- what the first step left is the bottom of the stack
    have hmiddle : (s'.view W').Le ⟨V.context, V.slots.take s'.draft.slots.length⟩ := by
      refine ⟨(h'.emits.context_le hr).trans hV.context, hup.trans ?_⟩
      exact List.forall₂_take _ hV.slots
    have hfirst := h.runs _ hmiddle
    rw [List.take_take, Nat.min_eq_left hlength] at hfirst
    exact hfirst.append (h'.runs V hV)

/-- A declaration may leave new locals on the stack. -/
def Declares (before : Heap) (x : Compiler α) : Prop :=
  ∀ s, s.Live before → Does before s (x s) fun _ s' => ∀ W, s.Ready W → Settled s.draft.locals →
    s'.errors = #[] → ∃ W' code, Extends before W W' s s' code

/-- A declaration one level deeper declares what it declares. -/
theorem Declares.nested {x : Compiler α} (hx : Declares before x) :
    Declares before (nested x) := by
  refine fun s hl => does_nested hl fun hl' => (hx s.deeper hl').imp fun a s' _ _ hd => ?_
  intro W hr hs hclean
  obtain ⟨W', code, h⟩ := hd W (hr.level _) hs hclean
  exact ⟨W', code, h.emits.shallower, h.locals, h.runs⟩

/-- A statement is a declaration of nothing. -/
theorem Executes.declares {x : Compiler α} (hx : Executes before x) : Declares before x := by
  refine fun s hl => (hx s hl).imp fun a s' _ _ hc W hr hs hclean => ?_
  obtain ⟨W', code, hw⟩ := hc W hr hs hclean
  refine ⟨W', code, hw.emits, .of_le hw.locals, fun V hV => ?_⟩
  have hrun : Whole [] [] V code := hw.runs V hV
  have hlength : V.slots.length ≤ s.draft.slots.length := by
    have hup : SlotsUpgrade s.draft.slots s'.draft.slots := hw.locals.slots
    rw [hup.length_eq]
    exact Nat.le_of_eq hV.slots.length_eq.symm
  rw [List.take_of_length_le hlength]
  simpa only [Whole, List.append_nil] using hrun

/-- A declaration after a declaration. -/
theorem Declares.bind {x : Compiler α} {f : α → Compiler β} (hx : Declares before x)
    (hf : ∀ a, Declares before (f a)) : Declares before (x >>= f) := by
  intro s hl
  refine (hx s hl).bind fun a s' hl' _ hc => (hf a s' hl').imp fun _ s'' _ hlater hc' => ?_
  intro W hr hs hclean
  obtain ⟨W', v, hv⟩ := hc W hr hs (hlater.clean hclean)
  obtain ⟨W'', w, hw⟩ := hc' W' hv.emits.ready (hv.settled hs) hclean
  exact ⟨W'', v ++ w, hv.trans hw hv.emits.ready⟩

/-- A step that only reads tokens is a statement. -/
theorem executes_of_reads {x : Compiler α}
    (hx : ∀ s, s.Live before → Does before s (x s) (Reads s)) : Executes before x :=
  (turns_of_reads hx).executes

/-! ### Ends of scopes -/

/-- The state behind a scope: instructions were emitted and some locals are kept. -/
def State.behind (s : State) (is : List Instr) (lines : Array UInt32) (kept : List Local) : State :=
  { s with draft := { s.draft with
      chunk := { s.draft.chunk with
        code := s.draft.chunk.code ++ (is.map Instr.encode).toArray, lines := lines }
      scopeDepth := s.draft.scopeDepth - 1
      locals := kept } }

/-- A scope was ended: the code is emitted that takes its locals from the stack. -/
def State.Ended (s : State) : Unit → State → Prop := fun _ s' => ∃ (lines : Array UInt32) (left : _),
  left = Local.leave (s.draft.scopeDepth - 1) s.draft.locals ∧
    s.Relines left.1.length lines ∧ s' = s.behind left.1 lines left.2

/-- Instructions are emitted one after the other. -/
theorem does_emitAll {is : List Instr} (hl : s.Live before) :
    Does before s (emitAll is s) fun _ s' => ∃ lines : Array UInt32,
      s.Relines is.length lines ∧
      s' = s.recode (s.draft.chunk.code ++ (is.map Instr.encode).toArray) lines := by
  induction is generalizing s with
  | nil => exact does_pure hl ⟨s.draft.chunk.lines, by simp [State.Relines], by simp [State.recode]⟩
  | cons i is ih =>
    refine (does_emit hl).bind fun _ s' hl' _ he => (ih hl').imp fun _ s'' _ _ h => ?_
    obtain ⟨first, hfirst, rfl⟩ := he
    obtain ⟨lines, hlines, rfl⟩ := h
    refine ⟨lines, ?_, by simp [State.recode]⟩
    rw [List.length_cons, Nat.add_comm]
    exact hfirst.trans hlines

/-- Other locals need nothing more to be alive. -/
theorem State.Live.relocal {d : Draft} (hl : s.Live before) (hname : d.name = s.draft.name)
    (hconstants : d.chunk.constants = s.draft.chunk.constants) :
    ({ s with draft := d } : State).Live before := by
  refine hl.change (.refl _) rfl fun e he => ?_
  rcases List.mem_cons.mp he with rfl | he
  · refine ⟨s.draft, List.mem_cons_self, hname, fun r hr => ?_⟩
    rwa [Draft.handles, hname, hconstants] at hr
  · exact ⟨e, List.mem_cons_of_mem _ he, rfl, fun _ => id⟩

/-- A change of the function in the making that keeps its constants is done. -/
theorem does_modifyDraft {f : Draft → Draft} {Q : Unit → State → Prop} (hl : s.Live before)
    (hname : (f s.draft).name = s.draft.name)
    (hconstants : (f s.draft).chunk.constants = s.draft.chunk.constants)
    (hpost : Q () { s with draft := f s.draft }) : Does before s (modifyDraft f s) Q :=
  .ok (hl.relocal hname hconstants) ⟨rfl, rfl, Nat.le_refl _⟩ hpost

/-- A scope ends with the removal of its locals. -/
theorem does_endScope (hl : s.Live before) : Does before s (endScope s) s.Ended := by
  refine (does_modifyDraft (Q := fun _ s' => s' = { s with
    draft := { s.draft with scopeDepth := s.draft.scopeDepth - 1 } }) hl rfl rfl rfl).bind
    fun _ s₁ hl₁ _ h₁ => ?_
  subst h₁
  refine (does_look (Q := fun left s₂ => left = Local.leave (s.draft.scopeDepth - 1)
    s.draft.locals ∧ s₂ = { s with
      draft := { s.draft with scopeDepth := s.draft.scopeDepth - 1 } }) hl₁ ⟨rfl, rfl⟩).bind
    fun left s₂ hl₂ _ h₂ => ?_
  obtain ⟨hleft, rfl⟩ := h₂
  refine (does_emitAll hl₂).bind fun _ s₃ hl₃ _ h₃ => ?_
  obtain ⟨lines, hlines, rfl⟩ := h₃
  exact does_modifyDraft hl₃ rfl rfl ⟨lines, left, hleft, hlines, rfl⟩

/-- The locals of a scope are left, those around it stay. -/
theorem leave_append {depth : Nat} {new old : List Local}
    (hnew : ∀ l ∈ new, l.depth = some (depth + 1))
    (hold : ∀ l ∈ old, ∀ k, l.depth = some k → k ≤ depth) : Local.leave depth (new ++ old) =
      (new.map fun l => if l.captured then .closeUpvalue else .pop, old) := by
  induction new with
  | nil =>
    cases old with
    | nil => rfl
    | cons l old =>
      have hstay : l.depth.any (depth < ·) = false := by
        cases hd : l.depth with
        | none => rfl
        | some k => simpa using hold l List.mem_cons_self k hd
      simp [Local.leave, hstay]
  | cons l new ih =>
    have hleave : l.depth.any (depth < ·) = true := by simp [hnew l List.mem_cons_self]
    rw [List.cons_append, Local.leave, if_pos hleave, ih fun m hm => hnew m (List.mem_cons_of_mem _ hm)]
    rfl

/-- The code that leaves a scope takes its locals from the stack. -/
theorem fragment_leave {Γ : CodeContext} {S : List Slot} (hS : S ≠ []) {new : List Local}
    (hnew : Settled new) : Fragment Γ (.plain (S ++ slotsOf new))
      ((new.map fun l => if l.captured then Instr.closeUpvalue else .pop).map Instr.encode)
      (.plain S) := by
  induction new with
  | nil =>
    have hnil : slotsOf [] = [] := rfl
    rw [hnil, List.append_nil]
    exact .nil (.refl _)
  | cons l new ih =>
    have hslots : slotsOf (l :: new) = slotsOf new ++ [l.slot] := by
      have hone : slotsOf [l] = [l.slot] := by simp [slotsOf, hnew l List.mem_cons_self]
      rw [← List.singleton_append, slotsOf_append, hone]
    have hne : S ++ slotsOf new ≠ [] := by simp [hS]
    have hrest := ih fun m hm => hnew m (List.mem_cons_of_mem _ hm)
    rw [hslots, ← List.append_assoc, List.map_cons, List.map_cons]
    refine Fragment.append (v := [_]) ?_ hrest
    by_cases hcaptured : l.captured = true
    · rw [if_pos hcaptured]
      exact .instr (.closeUpvalue hne)
    · rw [if_neg hcaptured]
      have hfits : Shape.Fits ⟨S ++ slotsOf new ++ [l.slot], none⟩
          (.plain (withValues (S ++ slotsOf new) 1)) := by
        refine Shape.fits_plain (.append (.refl _) (.cons ⟨Content.fits_any _, fun h => ?_⟩ .nil))
        exact absurd h hcaptured
      have hpop := Fragment.append (.nil hfits)
        (.instr (Effect.plain (g := none) (Plain.pop (Γ := Γ)) hne))
      simpa only [withValues, List.replicate_zero, List.append_nil, List.nil_append] using hpop

/-- The state inside a new scope. -/
def State.inner (s : State) : State :=
  { s with draft := { s.draft with scopeDepth := s.draft.scopeDepth + 1 } }

/-- A scope begins with no local. -/
theorem does_beginScope (hl : s.Live before) :
    Does before s (beginScope s) fun _ s' => s' = s.inner := does_modifyDraft hl rfl rfl rfl

/-- Another innermost draft with the same captures. -/
theorem State.Ready.replace {d : Draft} (hr : s.Ready W) (hd : DraftOk W d)
    (hcaptures : d.captures = s.draft.captures) (hglobal : AllGlobal d s.enclosing)
    (hsuper : true ∈ s.classes → ∃ e ∈ d :: s.enclosing, ∃ l ∈ e.locals, l.name = "super")
    (hconstants : d.chunk.constants = s.draft.chunk.constants) :
    ({ s with draft := d } : State).Ready W where
  fits := hr.fits
  clean := hr.clean
  tokens := hr.tokens
  drafts := List.forall_mem_cons.mpr ⟨hd, (List.forall_mem_cons.mp hr.drafts).2⟩
  enclosing := hr.enclosing
  captures := ⟨fun c hc => hr.captures.1 c (hcaptures ▸ hc), hr.captures.2⟩
  global := hglobal
  super := hsuper
  planted := hr.replanted hconstants

/-- A new scope leaves the state ready. -/
theorem State.Ready.inner (hr : s.Ready W) : s.inner.Ready W := by
  have hd := hr.drafts s.draft List.mem_cons_self
  refine hr.redraft ⟨hd.name, hd.constants, hd.pool, hd.few, hd.lines, hd.slots, hd.variables_,
    hd.settled, hd.inhabited, fun l hl k hk => ?_⟩ hr.captures.1 (fun h => by simp at h)
    (fun l hl hname => ⟨l, hl, hname⟩) (hr.replanted rfl)
  exact Nat.le_succ_of_le (hd.depth l hl k hk)

/-- A local named `super` stays where the functions have only grown. -/
theorem State.Ready.super_grown {d : Draft} (hr : s.Ready W)
    (hlocals : LocalsLe s.draft.locals d.locals) {ds : List Draft}
    (hds : List.Forall₂ (Outgrown W W') s.enclosing ds) (h : true ∈ s.classes) :
    ∃ e ∈ d :: ds, ∃ l ∈ e.locals, l.name = "super" := by
  obtain ⟨e, he, l, hl, hname⟩ := hr.super h
  rcases List.mem_cons.mp he with rfl | he
  · obtain ⟨l', hl', hle⟩ := exists_of_mem_left hlocals hl
    exact ⟨d, List.mem_cons_self, l', hl', hle.name.trans hname⟩
  · obtain ⟨e', he', hgrown⟩ := exists_of_mem_left hds he
    obtain ⟨l', hl', hle⟩ := exists_of_mem_left hgrown.locals hl
    exact ⟨e', List.mem_cons_of_mem _ he', l', hl', hle.name.trans hname⟩

/-- The end of a scope: its locals leave the stack. -/
theorem Emits.leave {w : List UInt32} {new old : List Local} (hr : s.Ready W)
    (hs : Settled s.draft.locals) (he : Emits before W W' s.inner s' w)
    (hsplit : s'.draft.locals = new ++ old) (hle : LocalsLe s.draft.locals old)
    (hnew : ∀ l ∈ new, l.depth = some (s.draft.scopeDepth + 1)) (hend : s'.Ended () s'') :
    ∃ w', Carries before W W' s s'' (w ++ w') ∧ ∀ V, (s''.view W').Le V →
      (s'.view W').Le ⟨V.context, V.slots ++ slotsOf new⟩ ∧
        Fragment V.context (.plain (V.slots ++ slotsOf new)) w' (.plain V.slots) := by
  obtain ⟨lines, left, hleft, hlines, rfl⟩ := hend
  have hd := hr.drafts s.draft List.mem_cons_self
  have hd' := he.ready.drafts s'.draft List.mem_cons_self
  have hdepth : s'.draft.scopeDepth - 1 = s.draft.scopeDepth := by
    rw [he.draft.scopeDepth]
    rfl
  have hold (m : Local) (hm : m ∈ old) (k : Nat) (hk : m.depth = some k) :
      k ≤ s.draft.scopeDepth := by
    obtain ⟨l, hl, hlm⟩ := exists_of_mem_right hle hm
    exact hd.depth l hl k (hlm.depth.symm.trans hk)
  rw [hdepth, hsplit, leave_append hnew hold] at hleft
  obtain ⟨is, kept⟩ := left
  obtain ⟨his, rfl⟩ := Prod.mk.inj hleft
  have hslots : (slotsOf kept).length = s.draft.slots.length := hle.slots.length_eq.symm
  have hready : (s'.behind is lines kept).Ready W' := by
    refine he.ready.replace ⟨hd'.name, hd'.constants, hd'.pool, hd'.few, ?_, ?_, hd'.variables_,
      ?_, ?_, ?_⟩ rfl ?_ (fun h => ?_) rfl
    · exact hlines.lined he.ready (by simp)
    · have := hd.slots
      rwa [hle.length_eq] at this
    · exact fun m hm => hle.settled hs m (List.mem_of_mem_tail hm)
    · intro hnil
      have hnil' : slotsOf kept = [] := hnil
      rw [hnil', List.length_nil, eq_comm, List.length_eq_zero_iff] at hslots
      exact hd.inhabited hslots
    · rw [hdepth]
      exact hold
    · intro h
      rw [hdepth] at h
      obtain ⟨hnil, hnames⟩ := hr.global h
      refine ⟨?_, fun m hm => ?_⟩
      · rw [← List.length_eq_zero_iff, ← he.enclosing.length_eq]
        exact List.length_eq_zero_iff.mpr hnil
      · obtain ⟨l, hl, hlm⟩ := exists_of_mem_right hle hm
        exact hlm.name.trans (hnames l hl)
    · rw [he.classes] at h
      exact hr.super_grown hle he.enclosing h
  refine ⟨is.map Instr.encode, ⟨⟨hready, he.outer, ⟨he.draft.kind, he.draft.name, he.draft.arity,
    hdepth, he.draft.constants, he.draft.captures⟩, ?_, he.enclosing, he.classes, he.kept⟩, hle⟩,
    fun V hV => ⟨⟨hV.context, ?_⟩, ?_⟩⟩
  · rw [← List.append_assoc, State.behind, Array.toList_append, he.code]
    rfl
  · have hmore : s'.draft.slots = slotsOf kept ++ slotsOf new := by
      rw [Draft.slots, hsplit, slotsOf_append]
    show SlotsUpgrade s'.draft.slots _
    rw [hmore]
    exact List.rel_append hV.slots (SlotsUpgrade.refl _)
  · rw [his]
    exact fragment_leave (hready.slots_ne_nil hV) fun l hl => by rw [hnew l hl]; rfl

/-- What is between the beginning and the end of a scope is a statement. -/
theorem Declares.scoped {x : Compiler Unit} (hx : Declares before x) : Executes before (do
    beginScope
    x
    endScope) := by
  intro s hl
  refine (does_beginScope hl).bind fun _ s₁ hl₁ _ h₁ => ?_
  subst h₁
  refine (hx s.inner hl₁).bind fun _ s₂ hl₂ _ hinner => ?_
  refine (does_endScope hl₂).imp fun _ s₃ _ hlater hend => ?_
  intro W hr hs hclean
  obtain ⟨W', w, hw⟩ := hinner W hr.inner hs (hlater.clean hclean)
  obtain ⟨new, old, hsplit, hle, hnew⟩ := hw.locals
  obtain ⟨w', hc, hleave⟩ := hw.emits.leave hr hs hsplit hle hnew hend
  refine ⟨W', _, hc, fun V hV => ?_⟩
  obtain ⟨hle, hrun⟩ := hleave V hV
  have hlength : V.slots.length = s.draft.slots.length :=
    hV.slots.length_eq.symm.trans hc.locals.slots.length_eq.symm
  have hfirst := hw.runs _ hle
  have htake : (V.slots ++ slotsOf new).take s.inner.draft.slots.length = V.slots := by
    show (V.slots ++ slotsOf new).take s.draft.slots.length = V.slots
    rw [← hlength, List.take_left]
  rw [htake] at hfirst
  simpa only [Whole, List.append_nil] using hfirst.append hrun

end ScriptMachine.Compile
