import ScriptMachine.Proofs.Compile.Does

/-!
# The compiler's picture of the stack

Between two steps the compiler knows what the code so far relies on: which local is in which
slot, whether an upvalue may stand for it, what the captured variables hold, and which constants
there are. The locals named `super` hold classes; no source can name one. The picture only grows:
slots may become captured, constants and captures are added.

What a step without errors does to the drafts: the innermost one gets more code, constants and
captures, the ones around it only captures and marks of captured locals. What the picture said
before, it still says.
-/

namespace ScriptMachine.Compile

/-- What a variable of a name holds. -/
def contentOf (name : String) : Content := if name = "super" then .class_ else .any

namespace Local

/-- The slot of a local. -/
def slot (l : Local) : Slot := ⟨contentOf l.name, l.captured⟩

/-- `m` is `l`, except that it may be captured by now. -/
structure Le (l m : Local) : Prop where
  name : m.name = l.name
  depth : m.depth = l.depth
  captured : l.captured = true → m.captured = true

/-- Every local is at most itself. -/
@[refl] theorem Le.refl (l : Local) : l.Le l := ⟨rfl, rfl, id⟩

/-- Growing twice is growing. -/
theorem Le.trans {l m n : Local} (h : l.Le m) (h' : m.Le n) : l.Le n :=
  ⟨h'.name.trans h.name, h'.depth.trans h.depth, h'.captured ∘ h.captured⟩

/-- The slot of a local that grows upgrades. -/
theorem Le.slot {l m : Local} (h : l.Le m) : l.slot.Upgrade m.slot :=
  ⟨by rw [Local.slot, Local.slot, h.name], h.captured⟩

end Local

/-- Local by local, the same but for captures made since. -/
abbrev LocalsLe (ls ms : List Local) : Prop := List.Forall₂ Local.Le ls ms

/-- All locals are at most themselves. -/
theorem LocalsLe.refl (ls : List Local) : LocalsLe ls ls := List.forall₂_same.mpr fun l _ => .refl l

/-- Growing twice is growing, local by local. -/
theorem LocalsLe.trans {ls ms ns : List Local} (h : LocalsLe ls ms) (h' : LocalsLe ms ns) :
    LocalsLe ls ns := forall₂_comp h h' fun _ _ _ => Local.Le.trans

/-- The slots of locals that are listed with the latest first; a local that is not initialized has
none. -/
def slotsOf (ls : List Local) : List Slot :=
  ((ls.filter fun l => l.depth.isSome).map Local.slot).reverse

/-- All locals are initialized. -/
def Settled (ls : List Local) : Prop := ∀ l ∈ ls, l.depth.isSome

/-- The slots of locals that grow upgrade. -/
theorem LocalsLe.slots {ls ms : List Local} (h : LocalsLe ls ms) :
    SlotsUpgrade (slotsOf ls) (slotsOf ms) := by
  refine List.rel_reverse ?_
  induction h with
  | nil => exact .nil
  | cons hl _ ih =>
    rw [List.filter_cons, List.filter_cons, hl.depth]
    split
    · exact .cons hl.slot ih
    · exact ih

/-- Locals that have their values keep them. -/
theorem LocalsLe.settled {ls ms : List Local} (h : LocalsLe ls ms) (hs : Settled ls) :
    Settled ms := by
  induction h with
  | nil => exact hs
  | cons hl _ ih =>
    intro m hm
    rcases List.mem_cons.mp hm with rfl | hm
    · rw [hl.depth]
      exact hs _ List.mem_cons_self
    · exact ih (fun l hl => hs l (List.mem_cons_of_mem _ hl)) m hm

/-- Every local that has its value has a slot. -/
theorem length_slotsOf {ls : List Local} (hs : Settled ls) : (slotsOf ls).length = ls.length := by
  rw [slotsOf, List.length_reverse, List.length_map, List.filter_eq_self.mpr hs]

/-- The local at a place has the slot that counts the locals before it. -/
theorem slotsOf_append (new old : List Local) : slotsOf (new ++ old) = slotsOf old ++ slotsOf new := by
  simp [slotsOf]

namespace Draft

/-- The slots of a draft's locals. -/
def slots (d : Draft) : List Slot := slotsOf d.locals

end Draft

/-- What a captured variable holds, where the functions around are `outer` and what the captured
variables of the innermost of them hold is `contents`. -/
def captureContent (outer : List Draft) (contents : List Content) (c : Capture) : Content :=
  (if c.isLocal then (outer.head?.bind (·.slots[c.index.toNat]?)).map Slot.content
    else contents[c.index.toNat]?).getD .any

/-- What the captured variables of the innermost of some functions hold. -/
def captureContents : List Draft → List Content
  | [] => []
  | d :: outer => d.captures.toList.map (captureContent outer (captureContents outer))

/-- The contents of captures are found in the functions around. -/
theorem captureContents_cons (d : Draft) (outer : List Draft) : captureContents (d :: outer) =
    d.captures.toList.map (captureContent outer (captureContents outer)) := rfl

/-- A capture finds its variable: a slot of the function around that is marked as captured, or a
capture of that function. -/
def CaptureOk (outer : List Draft) (c : Capture) : Prop :=
  ∃ d rest, outer = d :: rest ∧
    if c.isLocal then ∃ a, d.slots[c.index.toNat]? = some a ∧ a.captured = true
    else c.index.toNat < d.captures.size

/-- Every capture of every draft finds its variable. -/
def CapturesOk : List Draft → Prop
  | [] => True
  | d :: outer => (∀ c ∈ d.captures, CaptureOk outer c) ∧ CapturesOk outer

/-- What holds of every draft of a compilation without errors. -/
structure DraftOk (W : World) (d : Draft) : Prop where
  name : ∀ r, d.name = some r → ∃ chars, W r = some (.text chars)
  constants : ∀ v ∈ d.chunk.constants, W.Holds v .any
  pool : ∀ (b : UInt64) (i : UInt16), d.pool[b]? = some i →
    ∃ v : Value, d.chunk.constants[i.toNat]? = some v ∧ v.bits = b
  few : d.chunk.constants.size ≤ Chunk.maxConstants
  lines : d.chunk.Lined
  slots : d.locals.length ≤ maxLocals
  variables_ : d.captures.size ≤ maxUpvalues
  settled : Settled d.locals.tail
  inhabited : d.slots ≠ []
  depth : ∀ l ∈ d.locals, ∀ k, l.depth = some k → k ≤ d.scopeDepth

/-- A name that a source can spell: not the one of superclasses, nor the one of slot zero. -/
def Spelled (name : String) : Prop := name ≠ "super" ∧ name ≠ ""

/-- A token of a source: a name is one that a source can spell. -/
structure FromSource (l : Lexeme) : Prop where
  name : ∀ spelling, l.token = .name spelling → Spelled spelling

/-- At the outermost depth the names are globals: there is no local but slot zero of the script. -/
def AllGlobal (d : Draft) (outer : List Draft) : Prop :=
  d.scopeDepth = 0 → outer = [] ∧ ∀ l ∈ d.locals, l.name = ""

/-- What holds between two steps of a compilation without errors. -/
structure State.Ready (W : World) (s : State) : Prop where
  fits : W.Fits s.heap
  clean : s.errors = #[]
  tokens : ∀ l ∈ s.tokens, FromSource l
  drafts : ∀ d ∈ s.drafts, DraftOk W d
  enclosing : ∀ d ∈ s.enclosing, Settled d.locals
  captures : CapturesOk s.drafts
  global : AllGlobal s.draft s.enclosing
  super : true ∈ s.classes → ∃ d ∈ s.drafts, ∃ l ∈ d.locals, l.name = "super"
  planted : s.heap.Planted s.constants

/-- Nothing of this depends on how deep forms are nested. -/
theorem State.Ready.level {W : World} {s : State} (hr : s.Ready W) (n : Nat) :
    ({ s with nesting := n }).Ready W :=
  ⟨hr.fits, hr.clean, hr.tokens, hr.drafts, hr.enclosing, hr.captures, hr.global, hr.super,
    hr.planted⟩

/-- Another innermost draft with the same constants. -/
theorem State.Ready.replanted {W : World} {s : State} {d : Draft} (hr : s.Ready W)
    (h : d.chunk.constants = s.draft.chunk.constants) :
    s.heap.Planted ({ s with draft := d } : State).constants := by
  have hplanted := hr.planted
  rw [State.constants, State.drafts, List.flatMap_cons, ← h] at hplanted
  exact hplanted

/-- Another innermost draft, with captures that find their variables. -/
theorem State.Ready.redraft {W : World} {s : State} {d : Draft} (hr : s.Ready W) (hd : DraftOk W d)
    (hcaptures : ∀ c ∈ d.captures, CaptureOk s.enclosing c) (hglobal : AllGlobal d s.enclosing)
    (hsuper : ∀ l ∈ s.draft.locals, l.name = "super" → ∃ l' ∈ d.locals, l'.name = "super")
    (hplanted : s.heap.Planted ({ s with draft := d } : State).constants) :
    ({ s with draft := d } : State).Ready W := by
  refine ⟨hr.fits, hr.clean, hr.tokens, ?_, hr.enclosing, ⟨hcaptures, hr.captures.2⟩, hglobal, ?_,
    hplanted⟩
  · intro e he
    rcases List.mem_cons.mp he with rfl | he
    · exact hd
    · exact hr.drafts e (List.mem_cons_of_mem _ he)
  · intro h
    obtain ⟨e, he, l, hl, hname⟩ := hr.super h
    rcases List.mem_cons.mp he with rfl | he
    · exact ⟨d, List.mem_cons_self, hsuper l hl hname⟩
    · exact ⟨e, List.mem_cons_of_mem _ he, l, hl, hname⟩

/-- What the code of the innermost function may rely on. -/
structure View where
  context : CodeContext
  slots : List Slot

/-- The picture grows. -/
structure View.Le (V U : View) : Prop where
  context : V.context.Le U.context
  slots : SlotsUpgrade V.slots U.slots

/-- Every view is at most itself. -/
@[refl] theorem View.Le.refl (V : View) : V.Le V := ⟨.refl _, .refl _⟩

/-- Growing twice is growing. -/
theorem View.Le.trans {V U T : View} (h : V.Le U) (h' : U.Le T) : V.Le T :=
  ⟨h.context.trans h'.context, h.slots.trans h'.slots⟩

/-- The picture that the compiler has of the innermost function. -/
def State.view (W : World) (s : State) : View :=
  ⟨⟨s.draft.chunk.constants.toList.map W.typeOf, captureContents s.drafts⟩, s.draft.slots⟩

end ScriptMachine.Compile

namespace ScriptMachine.Compile

variable {W W' W'' : World} {d d' d'' : Draft} {s s' s'' : State} {before : Heap}

/-- The innermost draft after a step. -/
structure Grown (W W' : World) (d d' : Draft) : Prop where
  kind : d'.kind = d.kind
  name : d'.name = d.name
  arity : d'.arity = d.arity
  scopeDepth : d'.scopeDepth = d.scopeDepth
  constants : d.chunk.constants.toList.map W.typeOf <+: d'.chunk.constants.toList.map W'.typeOf
  captures : d.captures.toList <+: d'.captures.toList

/-- A draft around the innermost one after a step. -/
structure Outgrown (W W' : World) (d d' : Draft) : Prop extends Grown W W' d d' where
  chunk : d'.chunk = d.chunk
  pool : d'.pool = d.pool
  locals : LocalsLe d.locals d'.locals

/-- A function in the making that grows twice grows. -/
theorem Grown.trans (h : Grown W W' d d') (h' : Grown W' W'' d' d'') : Grown W W'' d d'' :=
  ⟨h'.kind.trans h.kind, h'.name.trans h.name, h'.arity.trans h.arity,
    h'.scopeDepth.trans h.scopeDepth, h.constants.trans h'.constants, h.captures.trans h'.captures⟩

/-- A function around that is captured from twice is captured from. -/
theorem Outgrown.trans (h : Outgrown W W' d d') (h' : Outgrown W' W'' d' d'') :
    Outgrown W W'' d d'' :=
  ⟨h.toGrown.trans h'.toGrown, h'.chunk.trans h.chunk, h'.pool.trans h.pool,
    h.locals.trans h'.locals⟩

/-- Drafts that only got more captures and marks. -/
abbrev Marked (ds ds' : List Draft) : Prop :=
  List.Forall₂ (fun d d' => LocalsLe d.locals d'.locals ∧ d.captures.toList <+: d'.captures.toList)
    ds ds'

/-- Functions around that are captured from are marked. -/
theorem marked_of_outgrown {ds ds' : List Draft} (h : List.Forall₂ (Outgrown W W') ds ds') :
    Marked ds ds' := h.imp fun _ _ hd => ⟨hd.locals, hd.captures⟩

/-- A capture that finds its variable still does when the functions around grow. -/
theorem CaptureOk.mono {outer outer' : List Draft} {c : Capture} (h : CaptureOk outer c)
    (hm : Marked outer outer') : CaptureOk outer' c := by
  obtain ⟨d, rest, rfl, hc⟩ := h
  cases hm with
  | @cons _ d' _ rest' hd _ =>
    refine ⟨d', rest', rfl, ?_⟩
    split at hc
    · next hlocal =>
      obtain ⟨a, ha, hcap⟩ := hc
      obtain ⟨b, hb, hup⟩ := SlotsUpgrade.slot hd.1.slots ha
      rw [if_pos hlocal]
      exact ⟨b, hb, hup.captured hcap⟩
    · next hlocal =>
      rw [if_neg hlocal]
      have := hd.2.length_le
      simp only [Array.length_toList] at this
      omega

/-- Growing functions keep what their captured variables hold. -/
theorem captureContents_prefix {outer outer' : List Draft} (hd : ∀ c ∈ d.captures, CaptureOk outer c)
    (hc : CapturesOk outer) (hcap : d.captures.toList <+: d'.captures.toList)
    (hm : Marked outer outer') : captureContents (d :: outer) <+: captureContents (d' :: outer') := by
  induction outer generalizing d d' outer' with
  | nil =>
    have hnone : d.captures.toList = [] := by
      rw [List.eq_nil_iff_forall_not_mem]
      intro c hmem
      obtain ⟨e, rest, heq, -⟩ := hd c (Array.mem_toList_iff.mp hmem)
      simp at heq
    simp [captureContents, hnone]
  | cons e rest ih =>
    cases hm with
    | @cons _ e' _ rest' he hrest =>
      have houter : captureContents (e :: rest) <+: captureContents (e' :: rest') :=
        ih hc.1 hc.2 he.2 hrest
      rw [captureContents_cons d, captureContents_cons d']
      refine (List.map_congr_left fun c hmem => ?_) ▸ hcap.map _
      obtain ⟨_, _, heq, hok⟩ := hd c (Array.mem_toList_iff.mp hmem)
      rw [List.cons.injEq] at heq
      obtain ⟨rfl, rfl⟩ := heq
      rw [captureContent, captureContent]
      split at hok
      · next hlocal =>
        obtain ⟨a, ha, -⟩ := hok
        obtain ⟨b, hb, hup⟩ := SlotsUpgrade.slot he.1.slots ha
        have ha' : e.slots[c.index.toNat]? = some a := ha
        have hb' : e'.slots[c.index.toNat]? = some b := hb
        simp [hlocal, ha', hb', hup.content]
      · next hlocal =>
        rw [if_neg hlocal, if_neg hlocal]
        congr 1
        obtain ⟨more, hmore⟩ := houter
        rw [← hmore, List.getElem?_append_left (by simpa [captureContents] using hok)]

/-- What a step that emits `code` does. -/
structure Emits (before : Heap) (W W' : World) (s s' : State) (code : List UInt32) : Prop where
  ready : s'.Ready W'
  outer : s'.outer = s.outer
  draft : Grown W W' s.draft s'.draft
  code : s'.draft.chunk.code.toList = s.draft.chunk.code.toList ++ code
  enclosing : List.Forall₂ (Outgrown W W') s.enclosing s'.enclosing
  classes : s'.classes = s.classes
  kept : ∀ x t, before.Reachable s.outer x → W x = some t → W' x = some t

/-- Words emitted behind words are emitted. -/
theorem Emits.trans {v w : List UInt32} (h : Emits before W W' s s' v)
    (h' : Emits before W' W'' s' s'' w) : Emits before W W'' s s'' (v ++ w) where
  ready := h'.ready
  outer := h'.outer.trans h.outer
  draft := h.draft.trans h'.draft
  code := by rw [h'.code, h.code, List.append_assoc]
  enclosing := forall₂_comp h.enclosing h'.enclosing fun _ _ _ => Outgrown.trans
  classes := h'.classes.trans h.classes
  kept := fun x t hx ht => h'.kept x t (h.outer.symm ▸ hx) (h.kept x t hx ht)

/-- What a form emits one level deeper is emitted on the level it started on. -/
theorem Emits.shallower {v : List UInt32} (h : Emits before W W' s.deeper s' v) :
    Emits before W W' s s'.shallower v :=
  ⟨h.ready.level _, h.outer, h.draft, h.code, h.enclosing, h.classes, h.kept⟩

/-- What the code of the innermost function could refer to, it still can. -/
theorem Emits.context_le {v : List UInt32} (h : Emits before W W' s s' v) (hr : s.Ready W) :
    (s.view W).context.Le (s'.view W').context :=
  ⟨h.draft.constants, captureContents_prefix hr.captures.1 hr.captures.2 h.draft.captures
    (marked_of_outgrown h.enclosing)⟩

/-- A step that adds no local makes the picture grow. -/
theorem Emits.view_le {v : List UInt32} (h : Emits before W W' s s' v) (hr : s.Ready W)
    (hl : LocalsLe s.draft.locals s'.draft.locals) : (s.view W).Le (s'.view W') :=
  ⟨h.context_le hr, hl.slots⟩

end ScriptMachine.Compile
