import ScriptMachine.Proofs.Compile.Variables

/-!
# Functions

A function is compiled in a draft of its own, on top of the drafts of the functions around. Its
parameters are its first locals. When its body is finished, the draft is a function whose code is
well formed in the context of its constants and captures, and the closure made of it finds every
captured variable among those of the function around.
-/

namespace ScriptMachine.Compile

variable {W W' W'' V : World} {s s' s'' : State} {before : Heap} {name : String} {α β : Type}
  {k : UInt16} {r : Handle}

/-! ### Parameters -/

/-- What the parameters of a function are declared as: locals with their values, which the caller
pushes. -/
def State.Parametrized (s : State) (before : Heap) (W : World) (n : Nat) (s' : State) : Prop :=
  ∃ W' new, Emits before W W' s s' [] ∧ s'.draft.locals = new ++ s.draft.locals ∧
    new.length = n ∧ ∀ l ∈ new, l.depth = some s.draft.scopeDepth ∧ l.name ≠ "super"

/-- Parameters are declared, by induction on how many may follow. -/
theorem does_parameters {room : Nat} (hl : s.Live before) :
    Does before s (parameters room s) fun n s' => n ≤ room ∧ ∀ W, s.Ready W →
      Settled s.draft.locals → 0 < s.draft.scopeDepth → s'.errors = #[] →
        s.Parametrized before W n s' := by
  induction room generalizing s with
  | zero => exact does_failHere hl
  | succ room ih =>
    refine (does_declareName hl).bind fun p s₁ hl₁ _ hdeclared => ?_
    obtain ⟨name, k⟩ := p
    refine (does_defineVariable hl₁).bind fun _ s₂ hl₂ hlater₂ hdefined => ?_
    -- the first parameter
    have hone (W : World) (hr : s.Ready W) (hs : Settled s.draft.locals)
        (hdepth : 0 < s.draft.scopeDepth) (hclean : s₂.errors = #[]) :
        s.Parametrized before W 1 s₂ := by
      obtain ⟨hname, W', hd⟩ := hdeclared W hr hs (hlater₂.clean hclean)
      cases hd with
      | global depth _ _ => omega
      | @local_ l depth emits locals named fresh =>
        have hdepth₁ : 0 < s₁.draft.scopeDepth := by rwa [emits.draft.scopeDepth]
        obtain ⟨hinit, hlocals, -⟩ := emits_initialized before emits.ready hdepth₁ locals
        rcases hdefined with ⟨-, rfl⟩ | ⟨hzero, -⟩
        · refine ⟨W', [_], by simpa using emits.trans hinit, hlocals, rfl, fun m hm => ?_⟩
          rw [List.mem_singleton.mp hm]
          exact ⟨congrArg some emits.draft.scopeDepth, named ▸ hname.1⟩
        · omega
    refine (does_accept hl₂).bind fun more s₃ hl₃ hlater₃ hm => ?_
    have hmoved (W : World) (hr : s₂.Ready W) : Carries before W W s₂ s₃ [] :=
      State.Moved.carries hm hr
    have hdraft : s₃.draft = s₂.draft := hm.draft
    cases more with
    | false =>
      refine does_pure hl₃ ⟨by omega, fun W hr hs hdepth hclean => ?_⟩
      obtain ⟨W', new, he, hlocals, hlength, hnew⟩ := hone W hr hs hdepth (hlater₃.clean hclean)
      refine ⟨W', new, by simpa using he.trans (hmoved W' he.ready).emits, ?_, hlength, hnew⟩
      rw [hdraft, hlocals]
    | true =>
      refine (ih hl₃).bind fun n s₄ hl₄ hlater₄ h => ?_
      refine does_pure hl₄ ⟨by omega, fun W hr hs hdepth hclean => ?_⟩
      have hclean₃ := hlater₄.clean hclean
      obtain ⟨W', new, he, hlocals, hlength, hnew⟩ := hone W hr hs hdepth (hlater₃.clean hclean₃)
      have hmove := hmoved W' he.ready
      have hsettled : Settled s₃.draft.locals := by
        rw [hdraft, hlocals]
        intro m hm
        rcases List.mem_append.mp hm with hm | hm
        · rw [(hnew m hm).1]
          rfl
        · exact hs m hm
      have hdepth₃ : s₃.draft.scopeDepth = s.draft.scopeDepth := by
        rw [hdraft, he.draft.scopeDepth]
      obtain ⟨W'', new', he', hlocals', hlength', hnew'⟩ := h.2 W' hmove.ready hsettled
        (hdepth₃ ▸ hdepth) hclean
      refine ⟨W'', new' ++ new, ?_, ?_, ?_, fun m hm => ?_⟩
      · simpa using (he.trans hmove.emits).trans he'
      · rw [hlocals', hdraft, hlocals, List.append_assoc]
      · rw [List.length_append, hlength, hlength']
      · rcases List.mem_append.mp hm with hm | hm
        · rw [← hdepth₃]
          exact hnew' m hm
        · exact hnew m hm

/-! ### Final returns -/

/-- What answers without a value is two words, on one line. -/
theorem does_emitReturn (hl : s.Live before) :
    Does before s (emitReturn s) fun _ s' => ∃ last ∈ finalAnswers, ∃ lines : Array UInt32,
      s.Relines 2 lines ∧
      s' = s.recode ((s.draft.chunk.code.push last.encode).push Instr.return_.encode) lines := by
  refine (does_look (Q := fun kind s' => s' = s ∧ (if kind = .initializer then Instr.getLocal 0
    else .null) ∈ finalAnswers) hl ⟨rfl, by split <;> simp [finalAnswers]⟩).bind
    fun kind s' hl' _ h => ?_
  obtain ⟨rfl, hlast⟩ := h
  refine (does_emit hl').bind fun _ s₁ hl₁ _ h₁ => ?_
  obtain ⟨first, hfirst, rfl⟩ := h₁
  refine (does_emit hl₁).imp fun _ s₂ _ _ h₂ => ?_
  obtain ⟨lines, hlines, rfl⟩ := h₂
  exact ⟨_, hlast, lines, hfirst.trans hlines, rfl⟩

/-! ### Finished functions -/

/-- What is kept alive while a finished function is allocated. -/
def State.around (s : State) : List Handle :=
  s.enclosing.reverse.flatMap Draft.handles ++ s.outer

/-- The state in which the draft around has taken the place of the innermost one. -/
def State.popped (s : State) (h' : Heap) : State :=
  match s.enclosing with
  | [] => { s with heap := h' }
  | outer :: enclosing => { s with heap := h', draft := outer, enclosing := enclosing }

/-- The function around becomes the one in the making. -/
theorem State.popped_cons {h' : Heap} {d : Draft} {rest : List Draft}
    (h : s.enclosing = d :: rest) :
    s.popped h' = { s with heap := h', draft := d, enclosing := rest } := by
  rw [State.popped, h]

/-- The handles around are those of the functions around and of the machine. -/
theorem State.mem_around : r ∈ s.around ↔ (∃ d ∈ s.enclosing, r ∈ d.handles) ∨ r ∈ s.outer := by
  simp [State.around]

/-- A function refers to what its draft keeps alive. -/
theorem Draft.mem_prototype {d : Draft} :
    r ∈ (Object.function d.prototype).references ↔ r ∈ d.handles := by
  rw [Object.mem_references, Draft.mem_handles]
  constructor
  · intro h
    cases h with
    | functionName at_ => exact .inl at_
    | functionConstant mem at_ => exact .inr ⟨_, mem, at_⟩
  · rintro (h | ⟨v, hv, h⟩)
    · exact .functionName h
    · exact .functionConstant hv h

/-- What the finished function and the functions around keep alive was alive. -/
theorem State.mem_finished : r ∈ s.around ++ (Object.function s.draft.prototype).references ↔
    r ∈ s.roots := by
  rw [List.mem_append, State.mem_around, Draft.mem_prototype, State.mem_roots, State.drafts]
  simp only [List.mem_cons, exists_eq_or_imp]
  exact or_comm.trans or_assoc.symm

/-- A function was allocated for the innermost draft. -/
structure State.Finished (s : State) (made : Handle × Array Capture) (s' : State) : Prop where
  captures : made.2 = s.draft.captures
  allocated : ∃ h₁ h', s.heap.Alike h₁ ∧ h'.Sound ∧ s' = s.popped h' ∧
    Heap.Allocated h₁ s.around (.function s.draft.prototype) made.1 h'

/-- The functions left are some of those there were. -/
theorem State.drafts_popped {h' : Heap} {d : Draft} (hd : d ∈ (s.popped h').drafts) :
    d ∈ s.drafts := by
  unfold State.popped at hd
  split at hd
  · exact hd
  · next outer enclosing h =>
    rw [State.drafts, h]
    exact List.mem_cons_of_mem _ hd

/-- The heap is the one given. -/
@[simp] theorem State.popped_heap {h' : Heap} : (s.popped h').heap = h' := by
  unfold State.popped
  split <;> rfl

/-- The handles of the machine are the same. -/
@[simp] theorem State.popped_outer {h' : Heap} : (s.popped h').outer = s.outer := by
  unfold State.popped
  split <;> rfl

/-- The errors are the same. -/
@[simp] theorem State.popped_errors {h' : Heap} : (s.popped h').errors = s.errors := by
  unfold State.popped
  split <;> rfl

/-- The tokens are the same. -/
@[simp] theorem State.popped_tokens {h' : Heap} : (s.popped h').tokens = s.tokens := by
  unfold State.popped
  split <;> rfl

/-- The object of a finished function and what is kept with it stay alive. -/
theorem State.Live.popped {h₁ h' : Heap} (hl : s.Live before) (ha : s.heap.Alike h₁)
    (hs : h'.Sound) (halloc : Heap.Allocated h₁ s.around (.function s.draft.prototype) r h')
    (hr : h₁.Retains [] h') : (s.popped h').Live before := by
  have hkept (x : Handle) (hx : s.heap.Reachable s.roots x) : h'.object? x = s.heap.object? x := by
    rw [halloc.kept x, ha.object?]
    rw [Heap.reachable_congr fun y _ => ha.object? y]
    exact hx.mono fun y hy => State.mem_finished.mpr hy
  have hroots (x : Handle) (hx : x ∈ (s.popped h').roots) : x ∈ s.roots := by
    rw [State.mem_roots] at hx ⊢
    rcases hx with ⟨d, hd, hx⟩ | hx
    · exact .inl ⟨d, State.drafts_popped hd, hx⟩
    · exact .inr (by simpa using hx)
  refine ⟨by simpa using hs, ?_, ?_, ?_, fun x o hx => ?_,
    by simpa using (hl.retains.congr ha).trans hr⟩
  · rw [State.popped_heap]
    exact (hl.covers.congr hkept).mono hroots
  · intro d hd x hx
    obtain ⟨text, htext⟩ := hl.named d (State.drafts_popped hd) x hx
    refine ⟨text, ?_⟩
    rw [State.popped_heap, hkept x (.root ?_), htext]
    exact State.mem_roots.mpr (.inl ⟨d, State.drafts_popped hd, Draft.mem_handles.mpr (.inl hx)⟩)
  · intro x hx
    rw [State.popped_outer] at hx
    rw [State.popped_heap, hkept x ((hl.reachable hx).mono fun y hy =>
      State.mem_roots.mpr (.inr hy)), hl.kept x hx]
  · rw [State.popped_heap] at hx
    by_cases hr : x = r
    · rw [hr, halloc.new, Option.some.injEq] at hx
      exact .inr (.inr ⟨_, hx.symm⟩)
    · exact hl.made x o (ha.object? x ▸ halloc.old x o hx hr)

/-- A function that is finished is one that its draft describes. -/
theorem does_finishFunction (hl : s.Live before) :
    Does before s (finishFunction s) s.Finished := by
  have hname : ∃ name, finishedName s.heap s.draft = .ok name := by
    unfold finishedName
    cases h : s.draft.name with
    | none => exact ⟨_, rfl⟩
    | some r =>
      obtain ⟨text, htext⟩ := hl.named s.draft List.mem_cons_self r h
      exact ⟨text.chars, by simp [Heap.string, Heap.object, htext]⟩
  obtain ⟨name, hname⟩ := hname
  obtain ⟨h₁, ha, hfull, hmade⟩ : ∃ h₁, s.heap.Alike h₁ ∧
      (∀ e, (h₁.alloc (.function s.draft.prototype) fun _ => s.around) = .error e →
        finishFunction s = .error (.fault e) { s with heap := Heap.absent }) ∧
      ∀ r h', (h₁.alloc (.function s.draft.prototype) fun _ => s.around) = .ok (r, h') →
        finishFunction s = .ok (r, s.draft.captures) (s.popped h') := by
    refine ⟨s.heap.note .debug fun _ =>
      let code := s.draft.chunk.code.size
      let constants := s.draft.chunk.constants.size
      s!"compiled {name} ({code} instructions, {constants} constants)", Heap.alike_note _ _ _,
      fun e he => ?_, fun r h' hok => ?_⟩
    · unfold finishFunction
      rw [State.around] at he
      simp only [hname, he]
    · unfold finishFunction
      rw [State.around] at hok
      simp only [hname, hok, State.popped]
      cases s.enclosing <;> rfl
  have hcovers : h₁.Covers (s.around ++ (Object.function s.draft.prototype).references) :=
    (hl.covers.congr fun x _ => ha.object? x).mono fun x hx => State.mem_finished.mp hx
  rcases (hl.sound.congr ha).alloc (.function s.draft.prototype) (by simp) hcovers with
    ⟨r, h', hok, halloc, hs⟩ | herr
  · rw [hmade r h' hok]
    have hretains := Heap.retains_alloc (hl.sound.congr ha).arena (hl.sound.congr ha).unmarked hok
    refine .ok (hl.popped ha hs halloc hretains) ⟨by simp, by simp, by simp⟩ ⟨rfl, h₁, h', ha, hs, rfl, halloc⟩
  · rw [hfull _ herr]
    exact rfl

/-- A finished function leads to live objects only. -/
theorem State.Finished.covers {made : Handle × Array Capture} (h : s.Finished made s')
    (hl : s.Live before) : s'.heap.Covers [made.1] := by
  obtain ⟨h₁, h', ha, -, rfl, halloc⟩ := h.allocated
  have hcovers : h₁.Covers (s.around ++ (Object.function s.draft.prototype).references) :=
    (hl.covers.congr fun x _ => ha.object? x).mono fun x hx => State.mem_finished.mp hx
  rw [State.popped_heap]
  exact (halloc.covers hcovers).mono fun x hx => List.mem_cons.mpr (.inl (List.mem_singleton.mp hx))

/-- A finished function takes the place of its constants. -/
theorem State.Finished.planted {made : Handle × Array Capture} (h : s.Finished made s')
    (hl : s.Live before) (hr : s.heap.Planted s.constants) :
    s'.heap.Planted (.ofHandle made.1 :: s.enclosing.flatMap (·.chunk.constants.toList)) := by
  obtain ⟨h₁, h', ha, -, rfl, halloc⟩ := h.allocated
  have hreach (x : Handle) : h₁.Reachable (s.around ++
      (Object.function s.draft.prototype).references) x ↔ s.heap.Reachable s.roots x := by
    rw [Heap.reachable_congr fun y _ => ha.object? y]
    exact ⟨fun hx => hx.mono fun y => State.mem_finished.mp,
      fun hx => hx.mono fun y => State.mem_finished.mpr⟩
  have hk (x : Handle) (hx : s.heap.Reachable s.roots x) : h'.object? x = s.heap.object? x :=
    (halloc.kept x ((hreach x).mpr hx)).trans (ha.object? x)
  have hroots : ∀ v ∈ s.constants, ∀ r, v.toHandle? = some r → s.heap.Reachable s.roots r :=
    fun v hv r hr => .root (State.constants_roots v hv r hr)
  rw [State.popped_heap]
  refine Heap.Planted.tree (f := s.draft.prototype) (hr.congr hroots hk) halloc.new
    (fun n hn => ?_) (fun v hv y hy => (Heap.reachable_congr hk).mpr (hroots v hv y hy))
    fun x hx => halloc.fresh x ((hreach x).mpr ((Heap.reachable_congr hk).mp hx))
  obtain ⟨text, htext⟩ := hl.named s.draft List.mem_cons_self n hn
  refine ⟨text, (hk n (.root (State.mem_roots.mpr (.inl ⟨s.draft, List.mem_cons_self, ?_⟩)))).trans
    htext⟩
  exact Draft.mem_handles.mpr (.inl hn)

/-- A finished function becomes known, and what was alive stays known. -/
theorem State.Finished.grows {made : Handle × Array Capture} (h : s.Finished made s')
    (hr : s.Ready W) (hcode : FunctionCode
      (W.context s.draft.prototype (captureContents s.drafts)) s.draft.prototype) :
    ∃ V : World, V.Fits s'.heap ∧ V made.1 = some (.function (captureContents s.drafts)) ∧
      ∀ x t, s.heap.Reachable s.roots x → W x = some t → V x = some t := by
  obtain ⟨h₁, h', ha, -, rfl, halloc⟩ := h.allocated
  have hd := hr.drafts s.draft List.mem_cons_self
  obtain ⟨V, hfits, hg⟩ := (hr.fits.congr ha.slots).alloc halloc
    (.function hd.name hd.constants hcode)
  refine ⟨V, by simpa using hfits, hg.new, fun x t hx ht => hg.kept x t ?_ ht⟩
  rw [Heap.reachable_congr fun y _ => ha.object? y]
  exact hx.mono fun y hy => State.mem_finished.mpr hy

/-- What the code around may rely on when a function inside it is finished. -/
structure Made (before : Heap) (W W' : World) (s s' : State) (made : Handle × Array Capture) :
    Prop where
  carries : Carries before W W' s s' []
  function : W' made.1 = some (.function
    (made.2.toList.map (captureContent s'.drafts (captureContents s'.drafts))))
  found : ∀ c ∈ made.2, CaptureOk s'.drafts c
  planted : s'.heap.Planted (.ofHandle made.1 :: s'.constants)

/-- The state with the draft of an inner function, inside its scope. -/
def State.begun (s : State) (kind : FunctionKind) (r : Handle) : State :=
  { s with draft := { Draft.start kind (some r) with scopeDepth := 1 }, enclosing := s.drafts }

/-- A function begins with slot zero in front of all code. -/
theorem does_beginFunction {kind : FunctionKind} (hl : s.Live before)
    (hr : s.heap.Covers [r]) (hname : ∃ text, s.heap.object? r = some (.string text)) :
    Does before s (beginFunction kind r s) fun _ s' =>
      s' = { s with draft := Draft.start kind (some r), enclosing := s.drafts } := by
  refine .ok ⟨hl.sound, Heap.covers_iff.mpr fun x hx => ?_, fun d hd x hx => ?_, hl.kept,
    hl.made, hl.retains⟩ ⟨rfl, rfl, Nat.le_refl _⟩ rfl
  · rcases State.mem_roots.mp hx with ⟨d, hd, hx⟩ | hx
    · rcases List.mem_cons.mp hd with rfl | hd
      · rcases Draft.mem_handles.mp hx with hx | ⟨v, hv, -⟩
        · exact Option.some.inj hx ▸ hr
        · simp [Draft.start, Chunk.empty] at hv
      · exact Heap.covers_iff.mp hl.covers x (State.mem_roots.mpr (.inl ⟨d, hd, hx⟩))
    · exact Heap.covers_iff.mp hl.covers x (State.mem_roots.mpr (.inr hx))
  · rcases List.mem_cons.mp hd with rfl | hd
    · exact Option.some.inj hx ▸ hname
    · exact hl.named d hd x hx

/-- An inner function starts in order. -/
theorem State.Ready.begun (kind : FunctionKind) (hr : s.Ready W) (hs : Settled s.draft.locals)
    (ht : W r = some (.text name)) : (s.begun kind r).Ready W where
  fits := hr.fits
  clean := hr.clean
  tokens := hr.tokens
  drafts := by
    refine List.forall_mem_cons.mpr ⟨⟨?_, ?_, ?_, ?_, Chunk.lined_empty, ?_, ?_, ?_, ?_, ?_⟩, hr.drafts⟩
    · exact fun x hx => ⟨name, Option.some.inj hx ▸ ht⟩
    · simp [State.begun, Draft.start, Chunk.empty]
    · intro b i hi
      simp [State.begun, Draft.start] at hi
    · simp [State.begun, Draft.start, Chunk.empty]
    · simp [State.begun, Draft.start, maxLocals]
    · simp [State.begun, Draft.start]
    · simp [State.begun, Draft.start, Settled]
    · simp [State.begun, Draft.slots, Draft.start, slotsOf]
    · intro l hl k hk
      rw [List.mem_singleton.mp hl] at hk
      exact (Option.some.inj hk) ▸ Nat.zero_le 1
  enclosing := List.forall_mem_cons.mpr ⟨hs, hr.enclosing⟩
  captures := ⟨by simp [State.begun, Draft.start], hr.captures⟩
  global := fun h => by simp [State.begun] at h
  super := fun h => by
    obtain ⟨d, hd, hsuper⟩ := hr.super h
    exact ⟨d, List.mem_cons_of_mem _ hd, hsuper⟩
  planted := hr.planted

/-- A function that is finished inside another one. -/
theorem State.Finished.made {made : Handle × Array Capture}
    (h : s'.Finished made s'') (hl : s'.Live before) (hr : s'.Ready W')
    (hr₀ : s.Ready W) (houter : s'.outer = s.outer) (hclasses : s'.classes = s.classes)
    (hds : List.Forall₂ (Outgrown W W') s.drafts s'.enclosing)
    (hkept : ∀ x t, before.Reachable s.outer x → W x = some t → W' x = some t)
    (hcode : FunctionCode (W'.context s'.draft.prototype (captureContents s'.drafts))
      s'.draft.prototype) : ∃ V, Made before W V s s'' made := by
  obtain ⟨V, hfits, hnew, hgrows⟩ := h.grows hr hcode
  have hplanted := h.planted hl hr.planted
  obtain ⟨h₁, h', ha, -, hpopped, halloc⟩ := h.allocated
  cases henclosing : s'.enclosing with
  | nil =>
    rw [henclosing] at hds
    cases hds
  | cons d rest =>
    rw [State.popped_cons henclosing] at hpopped
    subst hpopped
    rw [henclosing] at hds hplanted
    have hdrafts := hr.drafts
    rw [State.drafts, henclosing] at hdrafts
    have halive (e : Draft) (he : e ∈ d :: rest) (x : Handle) (hx : x ∈ e.handles) :
        x ∈ s'.roots := by
      refine State.mem_roots.mpr (.inl ⟨e, ?_, hx⟩)
      rw [State.drafts, henclosing]
      exact List.mem_cons_of_mem _ he
    have hcongr (e : Draft) (he : e ∈ d :: rest) :=
      (hdrafts e (List.mem_cons_of_mem _ he)).congr (V := V)
        fun x hx u hu => hgrows x u (.root (halive e he x hx)) hu
    have hsame (e : Draft) (he : e ∈ d :: rest) : Outgrown W' V e e :=
      ⟨⟨rfl, rfl, rfl, rfl, (hcongr e he).2 ▸ List.prefix_rfl, List.prefix_rfl⟩, rfl, rfl, .refl _⟩
    have hall : List.Forall₂ (Outgrown W V) s.drafts (d :: rest) :=
      forall₂_comp hds (List.forall₂_same.mpr hsame) fun _ _ _ => Outgrown.trans
    cases hall with
    | cons hfirst hrest =>
      have hcaptures := hr.captures
      rw [State.drafts, henclosing] at hcaptures
      have hsettled := hr.enclosing
      rw [henclosing] at hsettled
      refine ⟨V, ⟨⟨⟨hfits, hr.clean, hr.tokens, fun e he => (hcongr e he).1,
        fun e he => hsettled e (List.mem_cons_of_mem _ he), hcaptures.2, ?_, ?_, ?_⟩,
        houter, hfirst.toGrown, ?_, hrest, hclasses, ?_⟩, hfirst.locals⟩, ?_, ?_, hplanted⟩
      · intro hzero
        obtain ⟨hnil, hnames⟩ := hr₀.global (hfirst.scopeDepth ▸ hzero)
        rw [hnil] at hrest
        refine ⟨List.forall₂_nil_left_iff.mp hrest, fun m hm => ?_⟩
        obtain ⟨l, hl, hle⟩ := exists_of_mem_right hfirst.locals hm
        exact hle.name.trans (hnames l hl)
      · intro htrue
        exact hr₀.super_grown hfirst.locals hrest (hclasses ▸ htrue)
      · exact hplanted.sublist (List.sublist_cons_self _ _)
      · rw [hfirst.chunk, List.append_nil]
      · intro x t hx ht
        refine hgrows x t ?_ (hkept x t hx ht)
        exact (hl.reachable (houter ▸ hx)).mono fun y hy => State.mem_roots.mpr (.inr hy)
      · rw [hnew, State.drafts, henclosing, captureContents_cons, h.captures]
        rfl
      · rw [h.captures]
        exact hcaptures.1

/-! ### Bodies -/

/-- Slots of which nothing is known serve as the stack at the entry of a function. -/
theorem entry_fits {A B : List Slot} {arity : UInt8} (hany : ∀ a ∈ A, a.content = .any)
    (hup : SlotsUpgrade A B) (hlength : A.length = arity.toNat + 1) :
    SlotsFit (entrySlots arity) B := by
  unfold entrySlots
  rw [← hlength]
  clear hlength
  induction hup with
  | nil => exact .nil
  | @cons a b _ _ hab _ ih =>
    refine .cons ⟨?_, by simp [Slot.value]⟩ (ih fun x hx => hany x (List.mem_cons_of_mem _ hx))
    rw [← hab.content, hany a List.mem_cons_self]
    exact Content.fits_any _

/-- A draft with its own arity is the same. -/
theorem Draft.with_arity {d : Draft} {n : UInt8} (h : d.arity = n) : { d with arity := n } = d := by
  subst h
  rfl

/-- The parameters of a function, and its arity. -/
theorem does_parameterList (hl : s.Live before) : Does before s ((do
    if !(← check .rightParen) then
      let arity ← parameters 255
      modifyDraft fun d => { d with arity := arity.toUInt8 } : Compiler Unit) s) fun _ s' =>
        ∀ W, s.Ready W → Settled s.draft.locals → 0 < s.draft.scopeDepth → s.draft.arity = 0 →
          s'.errors = #[] → ∃ n t, n ≤ 255 ∧ s.Parametrized before W n t ∧
            s' = { t with draft := { t.draft with arity := n.toUInt8 } } := by
  refine (does_check hl).bind fun none_ s₁ hl₁ _ hm => ?_
  cases none_ with
  | true =>
    refine does_pure hl₁ fun W hr hs hdepth harity _ => ⟨0, s₁, by omega, ⟨W, [], ?_, ?_, rfl, ?_⟩, ?_⟩
    · exact hm.emits hr
    · rw [hm.draft]
      rfl
    · simp
    · rw [Draft.with_arity (hm.draft ▸ harity)]
  | false =>
    refine (does_parameters hl₁).bind fun n t hlt _ h => ?_
    refine does_modifyDraft hlt rfl rfl fun W hr hs hdepth harity hclean => ⟨n, t, h.1, ?_, rfl⟩
    have hmoved : Carries before W W s s₁ [] := State.Moved.carries hm hr
    have hdraft := hm.draft
    obtain ⟨W', new, he, hlocals, hlength, hnew⟩ := h.2 W hmoved.ready (hdraft ▸ hs)
      (hdraft ▸ hdepth) hclean
    refine ⟨W', new, by simpa using hmoved.emits.trans he, ?_, hlength, ?_⟩
    · rw [hlocals, hdraft]
    · rw [← hdraft]
      exact hnew

/-- Declarations up to the end of a block. -/
theorem declares_declarations {inner : Parsers} (hd : Declares before inner.declaration)
    {fuel : Nat} : Declares before (declarations inner fuel) := by
  induction fuel with
  | zero => exact (executes_of_reads fun _ => does_pure_reads).declares
  | succ fuel ih =>
    refine (executes_of_reads fun _ => does_look_reads).declares.bind fun done => ?_
    cases done with
    | true => exact (executes_of_reads fun _ => does_pure_reads).declares
    | false => exact hd.bind fun _ => ih

/-- A block may leave new locals on the stack. -/
theorem declares_block {inner : Parsers} (hd : Declares before inner.declaration) :
    Declares before (block inner) := by
  refine (executes_of_reads fun _ => does_look_reads).declares.bind fun left => ?_
  exact (declares_declarations hd).bind fun _ =>
    (executes_of_reads fun _ => does_expect).declares

/-- The draft of a function whose body is complete. -/
structure Written (before : Heap) (W W' : World) (s s' : State) : Prop where
  ready : s'.Ready W'
  outer : s'.outer = s.outer
  classes : s'.classes = s.classes
  enclosing : List.Forall₂ (Outgrown W W') s.enclosing s'.enclosing
  kept : ∀ x t, before.Reachable s.outer x → W x = some t → W' x = some t
  code : FunctionCode (W'.context s'.draft.prototype (captureContents s'.drafts))
    s'.draft.prototype

/-- The final return of a function. -/
theorem carries_return {last : Instr} {lines : Array UInt32} (hr : s.Ready W)
    (hlines : s.Relines 2 lines) :
    Carries before W W s
      (s.recode ((s.draft.chunk.code.push last.encode).push Instr.return_.encode) lines)
      [last.encode, Instr.return_.encode] := by
  exact ⟨emits_recode hr (by simp) hlines, .refl _⟩

/-- A function whose parameters are declared. -/
structure Entered (before : Heap) (W W' : World) (s s' : State) : Prop where
  ready : s'.Ready W'
  outer : s'.outer = s.outer
  classes : s'.classes = s.classes
  enclosing : List.Forall₂ (Outgrown W W') s.enclosing s'.enclosing
  kept : ∀ x t, before.Reachable s.outer x → W x = some t → W' x = some t
  settled : Settled s'.draft.locals
  code : s'.draft.chunk.code = #[]
  entry : (∀ a ∈ s'.draft.slots, a.content = .any) ∧
    s'.draft.slots.length = s'.draft.arity.toNat + 1

/-- Without the local `super` every slot may hold anything. -/
theorem contents_any {ls : List Local} (h : ∀ l ∈ ls, l.name ≠ "super") :
    ∀ a ∈ slotsOf ls, a.content = .any := by
  intro a ha
  simp only [slotsOf, List.mem_reverse, List.mem_map, List.mem_filter] at ha
  obtain ⟨l, ⟨hl, -⟩, rfl⟩ := ha
  exact if_neg (h l hl)

/-- Parameters are the first locals of a function. -/
theorem State.Parametrized.entered {kind : FunctionKind} {n : Nat} {t : State}
    (h : s'.Parametrized before W n t) (hn : n ≤ 255) (hm : (s.begun kind r).Moved s')
    (hr : (s.begun kind r).Ready W) : ∃ W', Entered before W W' (s.begun kind r)
      { t with draft := { t.draft with arity := n.toUInt8 } } := by
  obtain ⟨W', new, he, hlocals, hlength, hnew⟩ := h
  have hmoved : Carries before W W (s.begun kind r) s' [] := State.Moved.carries hm hr
  have hfront := hmoved.emits.trans he
  have ht := he.ready.drafts t.draft List.mem_cons_self
  have hfirst : s'.draft.locals = [⟨kind.slotZero, Source.Span.none, some 0, false⟩] := by
    rw [hm.draft]
    rfl
  have hsettled : Settled t.draft.locals := by
    rw [hlocals, hfirst]
    intro l hl
    rcases List.mem_append.mp hl with hl | hl
    · rw [(hnew l hl).1]
      rfl
    · rw [List.mem_singleton.mp hl]
      rfl
  have hbyte : n.toUInt8.toNat = n := by
    have : n < 2 ^ 8 := by omega
    exact UInt8.toNat_ofNat_of_lt this
  refine ⟨W', ?_, hfront.outer, hfront.classes, hfront.enclosing, hfront.kept, hsettled, ?_,
    contents_any ?_, ?_⟩
  · exact he.ready.redraft ⟨ht.name, ht.constants, ht.pool, ht.few, ht.lines, ht.slots,
      ht.variables_, ht.settled, ht.inhabited, ht.depth⟩ he.ready.captures.1 he.ready.global
      (fun l hl hname => ⟨l, hl, hname⟩) (he.ready.replanted rfl)
  · have hcode : t.draft.chunk.code.toList = [] := hfront.code
    exact Array.toList_eq_nil_iff.mp hcode
  · intro l hl
    rw [hlocals, hfirst] at hl
    rcases List.mem_append.mp hl with hl | hl
    · exact (hnew l hl).2
    · rw [List.mem_singleton.mp hl]
      cases kind <;> simp [FunctionKind.slotZero]
  · show (slotsOf t.draft.locals).length = n.toUInt8.toNat + 1
    rw [length_slotsOf hsettled, hlocals, hfirst, hbyte, List.length_append, hlength]
    rfl

/-- A body after the parameters, with a final return, is the code of a function. -/
theorem Entered.written {t : State} {body : List UInt32} {last : Instr} {lines : Array UInt32}
    (h : Entered before W W' s s') (hw : Extends before W' W'' s' t body)
    (hlast : last ∈ finalAnswers) (hlines : t.Relines 2 lines) :
    Written before W W'' s
      (t.recode ((t.draft.chunk.code.push last.encode).push Instr.return_.encode) lines) := by
  have hreturns : Carries before W'' W'' t _ [last.encode, Instr.return_.encode] :=
    carries_return hw.emits.ready hlines
  have hback := hw.emits.trans hreturns.emits
  have harity : t.draft.arity = s'.draft.arity := hw.emits.draft.arity
  refine ⟨hreturns.ready, hback.outer.trans h.outer, hback.classes.trans h.classes, ?_, ?_,
    ⟨t.draft.slots.take s'.draft.slots.length, body, t.draft.slots, last, ?_, ?_, ?_, hlast, ?_⟩,
    ?_, ?_⟩
  · exact forall₂_comp h.enclosing hback.enclosing fun _ _ _ => Outgrown.trans
  · exact fun x u hx hu => hback.kept x u (h.outer.symm ▸ hx) (h.kept x u hx hu)
  · refine entry_fits h.entry.1 hw.slots ?_
    show _ = t.draft.arity.toNat + 1
    rw [harity]
    exact h.entry.2
  · exact (hw.emits.ready.drafts t.draft List.mem_cons_self).inhabited
  · exact hw.runs _ (.refl _)
  · have hcode := hback.code
    rwa [h.code, List.nil_append] at hcode
  · simp [World.context, captureContents_cons, State.drafts, Draft.prototype, State.recode]
  · exact (hreturns.ready.drafts _ List.mem_cons_self).lines

/-- The part of a function between its name and its end. -/
def bodyOf (inner : Parsers) : Compiler Unit := do
  expect .leftParen .parametersOpen
  if !(← check .rightParen) then
    let arity ← parameters 255
    modifyDraft fun d => { d with arity := arity.toUInt8 }
  expect .rightParen .parametersClose
  expect .leftBrace .bodyOpen
  block inner
  emitReturn

/-- A function is its parameters and its body. -/
theorem bodyOf_eq (inner : Parsers) :
    bodyOf inner = expect .leftParen .parametersOpen >>= fun _ => (do
      if !(← check .rightParen) then
        let arity ← parameters 255
        modifyDraft fun d => { d with arity := arity.toUInt8 } : Compiler Unit) >>= fun _ => (do
      expect .rightParen .parametersClose
      expect .leftBrace .bodyOpen
      block inner : Compiler Unit) >>= fun _ => emitReturn := by
  unfold bodyOf
  simp only [bind_assoc]
  congr
  funext _
  congr
  funext none_
  cases none_ <;> simp

/-- The body of a function is compiled behind its parameters. -/
theorem does_body {inner : Parsers} {kind : FunctionKind} (hd : Declares before inner.declaration)
    (hl : (s.begun kind r).Live before) : Does before (s.begun kind r) (bodyOf inner (s.begun kind r))
      fun _ s' => ∀ W, (s.begun kind r).Ready W → s'.errors = #[] →
        ∃ W', Written before W W' (s.begun kind r) s' := by
  have hrest : Declares before (do
      expect .rightParen .parametersClose
      expect .leftBrace .bodyOpen
      block inner : Compiler Unit) :=
    (executes_of_reads fun _ => does_expect).declares.bind fun _ =>
      (executes_of_reads fun _ => does_expect).declares.bind fun _ => declares_block hd
  rw [bodyOf_eq]
  refine (does_expect hl).bind fun _ s₁ hl₁ _ hm => ?_
  refine (does_parameterList hl₁).bind fun _ s₂ hl₂ hlater₂ hparams => ?_
  refine (hrest s₂ hl₂).bind fun _ s₃ hl₃ hlater₃ hblock => ?_
  refine (does_emitReturn hl₃).imp fun _ s₄ _ hlater₄ hreturn W hr hclean => ?_
  have hclean₃ := hlater₄.clean hclean
  have hmoved : Carries before W W (s.begun kind r) s₁ [] := State.Moved.carries hm hr
  have hdraft : s₁.draft = { Draft.start kind (some r) with scopeDepth := 1 } := hm.draft
  obtain ⟨n, t, hn, hdeclared, rfl⟩ := hparams W hmoved.ready (by simp [hdraft, Settled, Draft.start])
    (by simp [hdraft]) (by simp [hdraft, Draft.start]) (hlater₃.clean hclean₃)
  obtain ⟨W', hentered⟩ := hdeclared.entered hn hm hr
  obtain ⟨W'', body, hw⟩ := hblock W' hentered.ready hentered.settled hclean₃
  obtain ⟨last, hlast, lines, hlines, rfl⟩ := hreturn
  exact ⟨W'', hentered.written hw hlast hlines⟩

end ScriptMachine.Compile
