import ScriptMachine.Proofs.Compile.Functions

/-!
# Closures

The closure made of a function finds every captured variable among those of the function around. A
local function has its slot before its closure is made, so that it can refer to itself; a method
is added to the class on top of the stack.
-/

namespace ScriptMachine.Compile

variable {W W' W'' : World} {s s' s'' : State} {before : Heap} {name : String} {k : UInt16}
  {inner : Parsers}

/-! ### Closures -/

/-- The words of the captures stand behind one another on one line. -/
theorem foldl_emit (line : UInt32) (cs : List Capture) (d : Draft) :
    cs.foldl (fun d c => d.emit c.encode line) d = { d with chunk := { d.chunk with
      code := d.chunk.code ++ (cs.map Capture.encode).toArray
      lines := d.chunk.lines ++ Array.replicate cs.length line } } := by
  induction cs generalizing d with
  | nil => simp
  | cons c cs ih =>
    have hlines : d.chunk.lines.push line ++ Array.replicate cs.length line =
        d.chunk.lines ++ Array.replicate (c :: cs).length line :=
      Array.ext' (by simp [List.replicate_succ])
    rw [List.foldl_cons, ih, ← hlines]
    simp [Draft.emit, Chunk.push]

/-- The words of a closure are emitted. -/
theorem does_emitClosure {cs : Array Capture} (hl : s.Live before) :
    Does before s (emitClosure k cs s) fun _ s' => ∃ code lines : _,
      code.toList = s.draft.chunk.code.toList ++
        (Instr.closure k).encode :: cs.toList.map Capture.encode ∧
      s.Relines (1 + cs.size) lines ∧ s' = s.recode code lines := by
  refine (does_emit hl).bind fun _ s₁ hl₁ _ h₁ => ?_
  obtain ⟨first, hfirst, rfl⟩ := h₁
  refine (does_look (Q := fun line s₂ => s₂ = s.recode _ _ ∧ line = s.line) hl₁ ⟨rfl, rfl⟩).bind
    fun line s₂ hl₂ _ h₂ => ?_
  obtain ⟨rfl, rfl⟩ := h₂
  have heq := foldl_emit s.line cs.toList (s.recode
    (s.draft.chunk.code.push (Instr.closure k).encode) first).draft
  rw [Array.foldl_toList] at heq
  refine does_modifyDraft hl₂ (by rw [heq]) (by rw [heq]) ⟨_, _, ?_, hfirst.trans rfl, by rw [heq]; rfl⟩
  simp [State.recode]

/-- Code that makes a closure on top of the stack. A local function's slot is the one that the
closure is put into, so the picture may have it already. -/
def Closes (V : View) (code : List UInt32) : Prop :=
  ∀ S x, Slot.aClosure.Fits x → V.slots <+: S ++ [x] →
    Fragment V.context (.plain S) code (.plain (S ++ [x]))

/-- A capture that finds its variable finds it when the closure is made. -/
theorem CaptureOk.captures {c : Capture} {S : List Slot} {U : View}
    (hc : CaptureOk s.drafts c) (hV : (s.view W).Le U) (hS : U.slots <+: S) :
    Captures U.context S c (captureContent s.drafts (captureContents s.drafts) c) := by
  obtain ⟨d, rest, heq, hfound⟩ := hc
  have hd : d = s.draft := (List.cons.inj heq).1.symm
  obtain ⟨isLocal, index⟩ := c
  cases isLocal with
  | true =>
    obtain ⟨a, ha, hcaptured⟩ := hfound
    obtain ⟨b, hb, hup⟩ := hV.slots.slot (hd ▸ ha)
    have hcontent : captureContent s.drafts (captureContents s.drafts) ⟨true, index⟩ =
        b.content := by
      rw [captureContent, if_pos rfl, State.drafts, List.head?_cons, Option.bind_some, ← hd, ha,
        ← hup.content]
      rfl
    rw [hcontent]
    refine .slot ?_
    rw [prefix_getElem? hS hb]
    obtain ⟨content, captured⟩ := b
    have hmarked : captured = true := hup.captured hcaptured
    rw [hmarked]
  | false =>
    have hlt : index.toNat < (captureContents s.drafts).length := by
      rw [State.drafts, captureContents_cons, List.length_map, Array.length_toList, ← hd]
      exact hfound
    refine .variable_ (prefix_getElem? hV.context.captures ?_)
    show (captureContents s.drafts)[index.toNat]? = _
    rw [List.getElem?_eq_getElem hlt, captureContent, if_neg (by simp),
      List.getElem?_eq_getElem hlt]
    rfl

/-- Elements are related to their images if each is. -/
theorem forall₂_map_right {α β : Type} {R : α → β → Prop} {f : α → β} {as : List α}
    (h : ∀ a ∈ as, R a (f a)) : List.Forall₂ R as (as.map f) := by
  induction as with
  | nil => exact .nil
  | cons a as ih =>
    exact .cons (h a List.mem_cons_self) (ih fun b hb => h b (List.mem_cons_of_mem _ hb))

/-- The code that makes a closure of a function made before. -/
theorem Made.closes {made : Handle × Array Capture} {t t' : State} {code : Array UInt32}
    {lines : Array UInt32} (h : Made before W W' s s' made)
    (hpooled : s'.Pooled (.ofHandle made.1) k t)
    (hcode : code.toList = t.draft.chunk.code.toList ++
      (Instr.closure k).encode :: made.2.toList.map Capture.encode)
    (hlines : t.Relines (1 + made.2.size) lines)
    (ht : t' = t.recode code lines) : ∃ w, Compiles before W W' s t' w Closes := by
  obtain ⟨hpool, hconstant⟩ := hpooled.carries before h.carries.ready
    (World.holds_ofHandle h.function) h.planted
  have hemit : Carries before W' W' t t'
      ((Instr.closure k).encode :: made.2.toList.map Capture.encode) := by
    rw [ht]
    exact ⟨emits_recode hpool.ready hcode (by simpa [Nat.add_comm] using hlines), .refl _⟩
  refine ⟨_, (h.carries.trans hpool).trans hemit, fun V hV S x hx hS => ?_⟩
  have hV' : (t.view W').Le V := by
    rw [ht] at hV
    exact hV
  rw [World.typeOf_ofHandle h.function] at hconstant
  refine .closure (prefix_getElem? hV'.context.constants hconstant) hx (forall₂_map_right ?_)
  intro c hc
  exact (h.found c (Array.mem_toList_iff.mp hc)).captures
    ((hpool.view_le h.carries.ready).trans hV') hS

/-- A function is its name, its scope and its body. -/
theorem functionRest_eq (inner : Parsers) (kind : FunctionKind) (name : String) :
    functionRest inner kind name = intern name >>= fun r => beginFunction kind r >>=
      fun _ => beginScope >>= fun _ => bodyOf inner >>= fun _ => finishFunction >>= fun made =>
        makeConstant (.ofHandle made.1) >>= fun k => emitClosure k made.2 := by
  unfold functionRest bodyOf
  simp only [bind_assoc]
  congr
  funext r
  congr
  funext _
  congr
  funext _
  congr
  funext _
  congr
  funext none_
  cases none_ <;> simp

/-- A function after its name makes a closure. -/
theorem writes_functionRest {kind : FunctionKind}
    (hd : Declares before inner.declaration) :
    Writes before AllSettled (functionRest inner kind name) fun _ => Closes := by
  rw [functionRest_eq]
  intro s hl
  refine (does_intern hl).bind fun r s₁ hl₁ _ hi => ?_
  have htext : ∃ text, s₁.heap.object? r = some (.string text) := by
    obtain ⟨h', rfl, hi⟩ := hi
    exact ⟨_, hi.new⟩
  refine (does_beginFunction hl₁ hi.covers htext).bind fun _ s₂ hl₂ _ h₂ => ?_
  subst h₂
  refine (does_beginScope hl₂).bind fun _ s₃ hl₃ _ h₃ => ?_
  have hbegun : s₃ = s₁.begun kind r := h₃
  subst hbegun
  refine (does_body hd hl₃).bind fun _ s₄ hl₄ hlater₄ hbody => ?_
  refine (does_finishFunction hl₄).bind fun made s₅ hl₅ hlater₅ hfinished => ?_
  refine (does_makeConstant hl₅ ?_).bind fun k s₆ hl₆ hlater₆ hpooled => ?_
  · intro x hx
    rw [Value.toHandle?_ofHandle, Option.some.injEq] at hx
    exact hx ▸ hfinished.covers hl₄
  refine (does_emitClosure hl₆).imp fun _ s₇ _ hlater₇ hclosure W hr hs hclean => ?_
  have hclean₅ := hlater₆.clean (hlater₇.clean hclean)
  have hclean₄ := hlater₅.clean hclean₅
  obtain ⟨W₁, hc, ht⟩ := hi.carries hl hr
  have hbegun := hc.ready.begun kind (hc.locals.settled hs) ht
  obtain ⟨W₄, hw⟩ := hbody W₁ hbegun hclean₄
  obtain ⟨W₅, hmade⟩ := hfinished.made hl₄ hw.ready hc.ready hw.outer hw.classes hw.enclosing hw.kept hw.code
  obtain ⟨code, lines, hcode, hlines, rfl⟩ := hclosure
  obtain ⟨w, hcloses⟩ := hmade.closes hpooled hcode hlines rfl
  exact ⟨W₅, w, by simpa using hc.trans hcloses.toCarries, hcloses.runs⟩

/-- A closure is a temporary. -/
theorem Closes.through {V : View} {code : List UInt32} (h : Closes V code) :
    Through [] [.value] V code := by
  intro T
  have hrun := h (V.slots ++ T) .value ⟨Content.fits_any _, by simp [Slot.aClosure]⟩
    (by rw [List.append_assoc]; exact List.prefix_append _ _)
  simpa only [List.append_nil] using hrun

/-! ### Functions -/

/-- A local function. -/
theorem extends_of_closure {l : Local} {w : List UInt32} (hdepth : 0 < s.draft.scopeDepth)
    (hname : l.name ≠ "super") (he : Emits before W W' s s' [])
    (hlocals : s'.draft.locals = l :: s.draft.locals)
    (hw : Compiles before W' W'' s'.initialized s'' w Closes) :
    Extends before W W'' s s''.initialized w := by
  have hdepth' : 0 < s'.draft.scopeDepth := he.draft.scopeDepth.symm ▸ hdepth
  obtain ⟨hinit, hfirst, -⟩ := emits_initialized before he.ready hdepth' hlocals
  have hle := hw.locals
  rw [hfirst] at hle
  obtain ⟨l', rest, hl', hrest, hlocals'⟩ := List.forall₂_cons_left_iff.mp hle
  refine extends_initialized hdepth ((he.trans hinit).trans hw.emits) hlocals' hrest
    fun V S x hVS hS hx hcontext => ?_
  -- the function is in the picture before its closure is on the stack
  have hbefore : (s''.view W'').Le V := by
    refine ⟨hcontext, ?_⟩
    show SlotsUpgrade (slotsOf s''.draft.locals) V.slots
    rw [hlocals', slotsOf_settled (by rw [hl'.depth]; rfl), hVS]
    exact List.rel_append hS (.cons hx .nil)
  have hfits : Slot.aClosure.Fits x := by
    refine ⟨?_, by simp [Slot.aClosure]⟩
    have hany : l'.slot.content = .any := by
      show contentOf l'.name = .any
      rw [hl'.name, contentOf, if_neg hname]
    rw [← hx.content, hany]
    exact Content.fits_any _
  exact hw.runs V hbefore S x hfits (hVS ▸ List.prefix_rfl)

/-- A function declaration. -/
theorem declares_function (hd : Declares before inner.declaration) :
    Declares before (functionDeclaration inner) := by
  intro s hl
  refine (does_declareName hl).bind fun p s₁ hl₁ _ hdeclared => ?_
  obtain ⟨name, k⟩ := p
  refine (does_markInitialized hl₁).bind fun _ s₂ hl₂ hlater₂ h₂ => ?_
  refine (writes_functionRest hd s₂ hl₂).bind fun _ s₃ hl₃ hlater₃ hw => ?_
  refine (does_defineVariable hl₃).imp fun _ t _ hlater ht W hr hs hclean => ?_
  have hclean₃ := hlater.clean hclean
  have hclean₂ := hlater₃.clean hclean₃
  obtain ⟨hname, W', hdecl⟩ := hdeclared W hr hs (hlater₂.clean hclean₂)
  subst h₂
  cases hdecl with
  | global depth carries named =>
    have hzero : s₁.draft.scopeDepth = 0 := carries.emits.draft.scopeDepth.trans depth
    have hsame : s₁.initialized = s₁ := by rw [State.initialized, markInitialized_zero hzero]
    rw [hsame] at hw
    obtain ⟨W'', w, hw⟩ := hw W' carries.ready (carries.locals.settled hs) hclean₃
    exact ⟨W'', Declared.define (.global depth carries named) hname
      ⟨hw.toCarries, fun V hV => (hw.runs V hV).through⟩ ht⟩
  | @local_ l depth emits locals named fresh =>
    have hdepth₁ : 0 < s₁.draft.scopeDepth := by rwa [emits.draft.scopeDepth]
    obtain ⟨hinit, hlocals, -⟩ := emits_initialized before emits.ready hdepth₁ locals
    have hsettled : Settled s₁.initialized.draft.locals := by
      rw [hlocals]
      intro m hm
      rcases List.mem_cons.mp hm with rfl | hm
      · rfl
      · exact hs m hm
    obtain ⟨W'', w, hw⟩ := hw W' hinit.ready hsettled hclean₃
    rcases ht with ⟨-, rfl⟩ | ⟨hzero, -⟩
    · exact ⟨W'', w, extends_of_closure depth (named ▸ hname.1) emits locals hw⟩
    · have := hw.emits.draft.scopeDepth.trans hinit.draft.scopeDepth
      omega

/-! ### Methods -/

/-- A method is added to the class on top of the stack. -/
theorem turns_addMethod : Turns before (Both AllSettled (Named k name)) (emit (.method k))
    [.aClass, .aClosure] [.aClass] := by
  refine turns_emit fun W s hr hk V hV T => .instr (.method (names_mono hk.2 hV.context) ?_)
  simp [hr.slots_ne_nil hV]

/-- A method leaves its class. -/
theorem turns_method (hd : Declares before inner.declaration) :
    Turns before AllSettled (method inner) [.aClass] [.aClass] := by
  refine Writes.after_reads (fun _ => does_expectKeyword) fun _ => ?_
  refine finds_expectName.bind fun name => finds_nameConstant.bind fun k => ?_
  have hadd : Turns before (Both (Both AllSettled (Fact (Spelled name))) (Named k name)) (emit (.method k))
      [.aClass, .aClosure] [.aClass] := turns_addMethod.given fun _ _ h => ⟨h.1.1, h.2⟩
  refine Turns.bind ?_ fun _ => hadd
  refine ((writes_functionRest hd).imp fun _ V w h T => ?_).given fun _ _ h => h.1.1
  have hrun := h (V.slots ++ T ++ [.aClass]) .aClosure (.refl _) ?_
  · simpa only [List.append_assoc, List.cons_append, List.nil_append] using hrun
  · simp only [List.append_assoc]
    exact List.prefix_append _ _

/-- Methods leave their class, by induction on how many may follow. -/
theorem turns_methods (hd : Declares before inner.declaration) {fuel : Nat} :
    Turns before AllSettled (methods inner fuel) [.aClass] [.aClass] := by
  induction fuel with
  | zero => exact turns_of_reads fun _ => does_pure_reads
  | succ fuel ih =>
    refine Writes.after_reads (fun _ => does_look_reads) fun done => ?_
    cases done with
    | true => exact turns_of_reads fun _ => does_pure_reads
    | false => exact (turns_method hd).bind fun _ => ih

end ScriptMachine.Compile
