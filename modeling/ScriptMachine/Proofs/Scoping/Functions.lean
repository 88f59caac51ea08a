import ScriptMachine.Proofs.Compile.Closures
import ScriptMachine.Proofs.Scoping.Declaring

/-!
# Functions in a translation

A function starts with its parameters in scope, and its body finds the names of the functions
around with the captures that it makes. When it is finished, the locals that it captures are marked
in the function around it, whose code then makes the closure.
-/

namespace ScriptMachine

open Compile

namespace Compile

variable {before : Heap} {s s' s₁ : State} {o : Nat} {P : Site → Prop} {β : Type} {name : String}
  {R : Body → Site → β → List UInt32 → Site → Prop} {params : List String}

/-! ### Parameters -/

/-- The place after some parameters, which are the latest locals. -/
structure Site.Takes (g : Site) (params : List String) (g' : Site) : Prop where
  rests : g'.Rests
  depth : g'.depth = g.depth
  arity : g'.arity = g.arity
  classes : g'.classes = g.classes
  scope : g'.scope = (params.map fun name => ⟨name, false⟩).reverse ++ g.scope

/-- Parameters are taken one after the other. -/
theorem Site.Takes.trans {g g' g'' : Site} {more : List String} (h : g.Takes params g')
    (h' : g'.Takes more g'') : g.Takes (params ++ more) g'' where
  rests := h'.rests
  depth := h'.depth.trans h.depth
  arity := h'.arity.trans h.arity
  classes := h'.classes.trans h.classes
  scope := by rw [h'.scope, h.scope]; simp

/-- Inside a scope. -/
def Site.Inside (g : Site) : Prop := g.Rests ∧ 0 < g.depth

/-- Parameters are taken inside of the function. -/
theorem Site.Takes.inside {g g' : Site} (h : g.Takes params g') (hg : g.Inside) : g'.Inside :=
  ⟨h.rests, h.depth ▸ hg.2⟩

/-- A parameter is declared and has its value. -/
theorem makes_parameter : Makes before o Site.Inside (bindName name >>= defineVariable)
    fun _ g _ w h => w = [] ∧ g.Takes [name] h := by
  have hbinding : Makes before o Site.Rests (bindName name >>= fun k => pure () >>= fun _ =>
      defineVariable k) _ :=
    makes_binding (S := fun _ _ _ v => v = []) fun _ => gives_pure fun _ _ => rfl
  simp only [pure_bind] at hbinding
  refine hbinding.imp (fun _ => And.left) fun B g _ w h hg hw => ?_
  obtain ⟨hgrows, v, define, rfl, hbinds, rfl⟩ := hw
  rw [decide_eq_true hg.2] at hbinds
  generalize hscope : h.scope = scope at hbinds
  cases hbinds
  exact ⟨rfl, hgrows.rests hg.1, hgrows.depth, hgrows.arity, hgrows.classes, hscope⟩

/-- Parameters make no word, by induction on them. -/
theorem makes_parameters : Makes before o Site.Inside (translateParameters params)
    fun _ g _ w h => w = [] ∧ g.Takes params h := by
  induction params generalizing o with
  | nil =>
    exact makes_pure fun B g hg => ⟨rfl, hg.1, rfl, rfl, rfl, rfl⟩
  | cons name params ih =>
    cases params with
    | nil =>
      rw [translateParameters]
      exact makes_parameter
    | cons name' params =>
      have heq : translateParameters (name :: name' :: params) =
          (bindName name >>= defineVariable) >>= fun _ => advance >>= fun _ =>
            translateParameters (name' :: params) := by
        rw [translateParameters, bind_assoc]
        simp
      rw [heq]
      refine makes_parameter.then_ (fun _ g _ _ h hg hv => hv.2.inside hg) fun _ v => .advance <|
        ih.imp (fun _ => id) fun B g _ w h _ hw g₀ _ hv => ?_
      obtain ⟨rfl, hw⟩ := hw
      obtain ⟨rfl, hv⟩ := hv
      exact ⟨rfl, hv.trans hw⟩

/-- There are never too many locals. -/
theorem Makes.few {x : Compiler β} (hx : Makes before o P x fun B g b w h =>
    h.locals.length ≤ maxLocals → R B g b w h) : Makes before o P x R := by
  intro s b s' hs ho hp h
  obtain ⟨w, hadds, hw⟩ := hx s b s' hs ho hp h
  exact ⟨w, hadds, fun B hB => hw B hB (hadds.steady.tidy s'.draft List.mem_cons_self).locals⟩

/-- The place where a function begins. -/
def Site.begun (kind : FunctionKind) (classes : List Bool) : Site :=
  ⟨1, [⟨kind.slotZero, Source.Span.none, some 0, false⟩], 0, classes⟩

/-- A function begins inside of a scope. -/
theorem Site.inside_begun (kind : FunctionKind) (classes : List Bool) :
    (Site.begun kind classes).Inside := by
  refine ⟨fun l hl => ?_, Nat.one_pos⟩
  rw [List.mem_singleton.mp hl]
  exact ⟨0, Nat.zero_le 1, rfl⟩

/-- Counting the parameters makes no word. -/
theorem makes_setArity {count : UInt8} : Makes before o P
    (modifyDraft fun d => { d with arity := count }) fun _ g _ w h =>
      w = [] ∧ h = { g with arity := count } :=
  makes_resite (fun g => { g with arity := count })
    (fun s _ h => ⟨s.pos, (EStateM.Result.ok.inj h).2.symm⟩)
    (fun _ _ hfew hsettled => ⟨hfew, hsettled⟩) fun _ _ _ => ⟨rfl, rfl⟩

/-- The place where the body of a function starts: its parameters are in scope. -/
structure Site.Starts (kind : FunctionKind) (classes : List Bool) (params : List String)
    (g : Site) : Prop where
  rests : g.Rests
  depth : g.depth = 1
  arity : g.arity.toNat = params.length
  classes : g.classes = classes
  scope : g.scope = .start kind params

/-- A signature makes no word, and leaves the parameters in scope. -/
theorem makes_signature {kind : FunctionKind} {classes : List Bool} :
    Makes before o (· = Site.begun kind classes) (translateSignature params)
      fun _ _ _ w h => w = [] ∧ h.Starts kind classes params := by
  unfold translateSignature
  by_cases hnone : params ≠ []
  · simp only [if_pos hnone]
    have hparameters : Makes before o (· = Site.begun kind classes) (translateParameters params)
        fun _ g _ w h => w = [] ∧ g.Takes params h ∧ h.locals.length ≤ maxLocals :=
      .few <| makes_parameters.imp (fun g hg => hg ▸ Site.inside_begun kind classes)
        fun _ _ _ _ _ _ h hfew => ⟨h.1, h.2, hfew⟩
    refine .advance <| hparameters.then_ (K := fun _ => True) (fun _ _ _ _ _ _ _ => trivial)
      fun _ v => makes_setArity.then_ (K := fun _ => True) (fun _ _ _ _ _ _ _ => trivial)
        fun _ u => makes_advance fun B g _ f _ hu g₀ hg₀ hv => ?_
    obtain ⟨rfl, htakes, hfew⟩ := hv
    obtain ⟨rfl, rfl⟩ := hu
    subst hg₀
    refine ⟨rfl, htakes.rests, htakes.depth, ?_, htakes.classes, htakes.scope⟩
    show (params.length.toUInt8).toNat = params.length
    have hlength := congrArg List.length htakes.scope
    rw [Site.scope, length_scopeOf htakes.rests.settled, List.length_append, List.length_reverse,
      List.length_map] at hlength
    have hone : (Site.begun kind classes).scope.length = 1 := rfl
    have hlt : params.length < 2 ^ 8 := by
      have : (256 : Nat) = maxLocals := rfl
      omega
    exact UInt8.toNat_ofNat_of_lt hlt
  · simp only [if_neg hnone]
    obtain rfl : params = [] := not_not.mp hnone
    refine .advance <| makes_advance fun B g hg => ?_
    subst hg
    exact ⟨rfl, (Site.inside_begun kind classes).1, rfl, rfl, rfl, rfl⟩

/-! ### Returns -/

/-- The kind of a function is the kind of what it becomes. -/
theorem Makes.kind {x : FunctionKind → Compiler β} (hx : ∀ kind, Makes before o P (x kind)
      fun B g b w h => B.kind = kind → R B g b w h) :
    Makes before o P ((Compile.look fun s => s.draft.kind) >>= x) R := by
  intro s b s' hs ho hp h
  obtain ⟨_, _, hlook, h⟩ := run_bind.mp h
  obtain ⟨rfl, rfl⟩ := run_look.mp hlook
  obtain ⟨w, hadds, hw⟩ := hx _ s b s' hs ho hp h
  exact ⟨w, hadds, fun B hB => hw B hB (hB.kind.trans hadds.kind)⟩

/-- A function ends with the answer of its kind. -/
theorem makes_emitReturn : Makes before o P emitReturn fun B g _ w h =>
    h = g ∧ w = FunctionKind.finalReturn B.kind := by
  refine .kind fun kind => .emit <| makes_emit fun B g _ hkind => ⟨rfl, ?_⟩
  rw [hkind, FunctionKind.finalReturn]

/-! ### Functions -/

/-- What translating the body of a function adds. -/
abbrev Scripts (before : Heap) (body : List Stmt) : Prop :=
  ∀ o, Makes before o Site.Rests (Stmt.listTranslate body) fun B g _ w h =>
    g.Grows h ∧ Stmt.ListCodes B g.scope (decide (0 < g.depth)) body w h.scope

/-- From the first parameter to the last return of a function. -/
theorem makes_functionCode {kind : FunctionKind} {classes : List Bool} {body : List Stmt}
    (hbody : Scripts before body) : Makes before 0 (· = Site.begun kind classes) (do
      translateSignature params
      advance
      Stmt.listTranslate body
      advance
      emitReturn) fun B _ _ w h => h.arity.toNat = params.length ∧ h.classes = classes ∧
        ∃ v scope, Stmt.ListCodes B (.start kind params) true body v scope ∧
          w = v ++ FunctionKind.finalReturn B.kind := by
  refine makes_signature.then_ (K := fun g => g.Starts kind classes params)
    (fun _ _ _ _ _ _ h => h.2) fun _ u => .advance <|
      ((hbody _).weaken fun g h => h.rests).then_ (K := fun _ => True)
        (fun _ _ _ _ _ _ _ => trivial) fun _ v => .advance <|
          makes_emitReturn.imp (fun _ => id) fun B g _ w h _ hw g₁ hstart hv _ _ hu => ?_
  obtain ⟨rfl, rfl⟩ := hw
  obtain ⟨rfl, -⟩ := hu
  obtain ⟨hgrows, hcodes⟩ := hv
  rw [decide_eq_true (hstart.depth ▸ Nat.one_pos), hstart.scope] at hcodes
  exact ⟨hgrows.arity ▸ hstart.arity, hgrows.classes.trans hstart.classes, v, _, hcodes, rfl⟩

/-- The draft of a function begins inside those around it. -/
theorem State.Steady.beginFunction {kind : FunctionKind} {r : Handle} (hs : s.Steady before)
    (hsettled : Settled s.draft.locals) (hr : s.heap.Covers [r])
    (hname : ∃ text, s.heap.object? r = some (.string text))
    (h : beginFunction kind r s = .ok () s') :
    s' = { s with draft := Draft.start kind (some r), enclosing := s.drafts } ∧
      s'.Steady before := by
  obtain ⟨hlive, rfl⟩ := (does_beginFunction hs.live hr hname).run h
  refine ⟨rfl, hlive, List.forall_mem_cons.mpr ⟨⟨Draft.pooled_start _ _, ?_, ?_, ?_⟩, hs.tidy⟩, ?_,
    List.forall_mem_cons.mpr ⟨hsettled, hs.around⟩, ?_⟩
  · simp [Draft.start, maxLocals]
  · simp [Draft.start]
  · simp [Draft.start]
  · simp [Draft.start, Settled]
  · have : Marks [] (s.draft :: s.enclosing) ({ s.draft with
        locals := markLocals [] s.draft.locals, captures := s.draft.captures } :: s.enclosing) :=
      .cons List.prefix_rfl hs.marks
    rw [markLocals_nil] at this
    exact this

/-- What is left of a function inside when it is finished: its object, and the marks of what it
captured. -/
structure State.Encloses (before : Heap) (s s₁ : State) (made : Handle × Array Capture)
    (s' : State) : Prop where
  captures : made.2 = s₁.draft.captures
  adds : s.Adds before s' []
  site : s'.site = ⟨s.draft.scopeDepth, markLocals made.2.toList s.draft.locals, s.draft.arity,
    s₁.classes⟩
  enclosing : s₁.enclosing = s'.drafts
  object : s'.heap.object? made.1 = some (.function s₁.draft.prototype)
  covers : s'.heap.Covers [made.1]
  outer : s'.outer = s₁.outer
  kept : ∀ x, s₁.heap.Reachable s₁.roots x → s'.heap.object? x = s₁.heap.object? x

/-- Without a function around nothing is marked. -/
theorem Marks.nil_inv {captures : List Capture} {ds : List Draft} (h : Marks captures [] ds) :
    ds = [] := by
  cases h
  rfl

/-- Of the innermost function only captures are new. -/
theorem Marks.cons_inv {captures : List Capture} {d : Draft} {ds ds' : List Draft}
    (h : Marks captures (d :: ds) ds') : ∃ own rest,
      ds' = { d with locals := markLocals captures d.locals, captures := own } :: rest ∧
        d.captures.toList <+: own.toList ∧ Marks own.toList ds rest := by
  cases h with
  | cons more rest => exact ⟨_, _, rfl, more, rest⟩

/-- A function that is finished has the code that its body made. -/
theorem State.Steady.finishFunction {kind : FunctionKind} {r : Handle} {w : List UInt32}
    {made : Handle × Array Capture} (hsettled : Settled s.draft.locals)
    (hadds : State.Adds before
      { s with draft := Draft.start kind (some r), enclosing := s.drafts } s₁ w)
    (h : finishFunction s₁ = .ok made s') : s.Encloses before s₁ made s' := by
  obtain ⟨hlive, hfinished⟩ := (does_finishFunction hadds.steady.live).run h
  have hcovers := hfinished.covers hadds.steady.live
  obtain ⟨hcaptures, h₁, h', ha, -, hpopped, halloc⟩ := hfinished
  obtain ⟨own, rest, henclosing, hown, hrest⟩ := hadds.enclosing.cons_inv
  rw [State.popped_cons henclosing] at hpopped
  subst hpopped
  have hkept (x : Handle) (hx : s₁.heap.Reachable s₁.roots x) :
      h'.object? x = s₁.heap.object? x := by
    rw [halloc.kept x, ha.object?]
    rw [Heap.reachable_congr fun y _ => ha.object? y]
    exact hx.mono fun y hy => State.mem_finished.mpr hy
  have hroots (y : Handle) (hy : y ∈ s.roots) : y ∈ State.roots
      { s with draft := Draft.start kind (some r), enclosing := s.drafts } := by
    rw [State.mem_roots] at hy ⊢
    rcases hy with ⟨d, hd, hy⟩ | hy
    · exact .inl ⟨d, List.mem_cons_of_mem _ hd, hy⟩
    · exact .inr hy
  have htidy := hadds.steady.tidy
  rw [State.drafts, henclosing] at htidy
  have haround := hadds.steady.around
  rw [henclosing] at haround
  refine ⟨hcaptures, ⟨⟨hlive, (List.forall_mem_cons.mp htidy).2, ?_,
    (List.forall_mem_cons.mp haround).2, hrest.again⟩, hadds.outer, rfl, rfl,
    (List.append_nil _).symm, List.prefix_rfl, hown, hrest, fun x hx => ?_⟩, ?_, henclosing,
    halloc.new, hcovers, rfl, hkept⟩
  · intro l hl
    exact (localsLe_markLocals _ _).settled hsettled l (List.mem_of_mem_tail hl)
  · have hbegun := hx.mono hroots
    exact (hkept x (hadds.reachable hbegun)).trans (hadds.kept x hbegun)
  · rw [hcaptures]
    rfl

/-- What one state keeps alive, another one does whose roots lead there. -/
theorem reachable_through {h h' : Heap} {roots roots' : List Handle} {x : Handle}
    (hx : h.Reachable roots x) (hroots : ∀ r ∈ roots, h'.Reachable roots' r)
    (hsame : ∀ x, h.Reachable roots x → h'.object? x = h.object? x) :
    h'.Reachable roots' x := by
  induction hx with
  | root mem => exact hroots _ mem
  | step from_ object stores ih => exact ih.step ((hsame _ from_).trans object) stores

/-- A body that completes the function around tells what completes the function inside. -/
theorem State.Encloses.completes {B : Body} {made : Handle × Array Capture} {k : UInt16}
    {kind : FunctionKind} (h : s.Encloses before s₁ made s')
    (hkind : s₁.draft.kind = kind) {s₂ : State} (hadds : s'.Adds before s₂ [])
    (hk : s₂.draft.chunk.constants.toList[k.toNat]? = some (.ofHandle made.1))
    (hheap : s₂.heap = s'.heap) (hB : B.Completes s₂) :
    Body.Completes ⟨B.heap, kind, s₁.draft.chunk.constants.toList, made.2.toList,
      ⟨s.site.scope, B.captures⟩ :: B.outer⟩ s₁ where
  kind := hkind.symm
  constants := List.prefix_rfl
  captures := h.captures ▸ List.prefix_rfl
  outer := by
    have hB' := hadds.completes hB
    rw [h.enclosing, State.drafts, levelsOf, List.map_cons]
    refine .cons ⟨?_, hB'.captures⟩ hB'.outer
    have hlocals : s'.draft.locals = markLocals made.2.toList s.draft.locals :=
      congrArg Site.locals h.site
    rw [hlocals]
    exact (localsLe_markLocals _ _).scope_names.symm
  heap := by
    intro x hx
    have hroots (y : Handle) (hy : y ∈ s₁.roots) : s₂.heap.Reachable s₂.roots y := by
      rw [← State.mem_finished, List.mem_append] at hy
      rcases hy with hy | hy
      · refine .root (hadds.roots ?_)
        rw [State.mem_around, h.enclosing] at hy
        rw [State.mem_roots, h.outer]
        exact hy
      · refine .step (.root (State.constant_mem_roots hk)) ?_ ((Object.mem_references ..).mp hy)
        rw [hheap]
        exact h.object
    have hsame (y : Handle) (hy : s₁.heap.Reachable s₁.roots y) :
        s₂.heap.object? y = s₁.heap.object? y := by rw [hheap, h.kept y hy]
    rw [hB.heap x (reachable_through hx hroots hsame), hsame x hx]

/-- Some words make the closure of a function that was finished as a draft. -/
structure Encloses (B : Body) (params : List String) (d : Draft) (ws : List UInt32) : Prop where
  tidy : d.Tidy
  arity : d.arity.toNat = params.length
  closure : ∃ (k : UInt16) (r : Handle), B.constants[k.toNat]? = some (.ofHandle r) ∧
    B.heap.object? r = some (.function d.prototype) ∧
      ws = (Instr.closure k).encode :: d.captures.toList.map Capture.encode

/-- A function inside is finished as a draft whose code is what its parts add, and its closure is
made. -/
theorem makes_enclosed {kind : FunctionKind} {body : Compiler Unit}
    {S : Body → List UInt32 → Prop}
    (hbody : ∀ classes, Makes before 0 (· = Site.begun kind classes) (do
      translateSignature params
      advance
      body
      advance
      emitReturn) fun B _ _ w h =>
        h.arity.toNat = params.length ∧ h.classes = classes ∧ S B w) :
    Makes before o (fun g => Settled g.locals) (translateFunction kind name params body)
      fun B g _ w h => ∃ d : Draft, h = g.marked d.captures.toList ∧ Encloses B params d w ∧
        S ⟨B.heap, kind, d.chunk.constants.toList, d.captures.toList,
          ⟨g.scope, B.captures⟩ :: B.outer⟩ d.chunk.code.toList := by
  have hsplit : translateFunction kind name params body =
      intern name >>= fun r => beginFunction kind r >>= fun _ => beginScope >>= fun _ => (do
        translateSignature params
        advance
        body
        advance
        emitReturn) >>= fun _ => finishFunction >>= fun made =>
          makeConstant (.ofHandle made.1) >>= fun k => emitClosure k made.2 := by
    simp [translateFunction]
  rw [hsplit]
  intro s _ s' hs ho hsettled h
  obtain ⟨r, s₁, h₁, h⟩ := run_bind.mp h
  obtain ⟨_, s₂, h₂, h⟩ := run_bind.mp h
  obtain ⟨_, s₃, h₃, h⟩ := run_bind.mp h
  obtain ⟨_, s₄, h₄, h⟩ := run_bind.mp h
  obtain ⟨made, s₅, h₅, h⟩ := run_bind.mp h
  obtain ⟨k, s₆, h₆, h₇⟩ := run_bind.mp h
  obtain ⟨hadds, hsite, hcovers, text, htext, -⟩ := hs.intern h₁
  have hlocals : s₁.draft.locals = s.draft.locals := congrArg Site.locals hsite
  have hsettled₁ : Settled s₁.draft.locals := hlocals ▸ hsettled
  obtain ⟨rfl, hbegun⟩ := hadds.steady.beginFunction hsettled₁ hcovers ⟨text, htext⟩ h₂
  obtain ⟨u, hscope, hu⟩ := makes_beginScope (P := fun _ => True) _ _ s₃ hbegun rfl trivial h₃
  obtain ⟨rfl, hplace⟩ := hu _ s₃.body_completes
  obtain ⟨w, hcode, hw⟩ := hbody _ s₃ _ s₄ hscope.steady hscope.size hplace h₄
  have henclosed := State.Steady.finishFunction hsettled₁ (hscope.trans hcode) h₅
  obtain ⟨hpool, hk, hsite₆, hheap, -⟩ := henclosed.adds.steady.makeConstant (fun x hx => by
    rw [Value.toHandle?_ofHandle, Option.some.injEq] at hx
    exact hx ▸ henclosed.covers) h₆
  obtain ⟨-, code, lines, hwords, -, rfl⟩ := (does_emitClosure hpool.steady.live).run h₇
  have hclosure : s₆.Adds before (s₆.recode code lines) _ := (State.Adds.refl hpool.steady).recode
    lines hwords
  obtain ⟨harity, hsame, -⟩ := hw _ s₄.body_completes
  have hclasses : s₄.classes = s₁.classes := hsame
  have hplace₆ : s₆.site = s.site.marked made.2.toList := by
    rw [hsite₆, henclosed.site, hclasses, ← hsite]
    rfl
  refine ⟨_, ((hadds.trans henclosed.adds).trans hpool).trans hclosure, fun B hB =>
    ⟨s₄.draft, henclosed.captures ▸ hplace₆, ⟨?_, harity, k, made.1, ?_, ?_, ?_⟩, ?_⟩⟩
  · exact hcode.steady.tidy s₄.draft List.mem_cons_self
  · exact prefix_getElem? (hclosure.completes hB).constants hk
  · rw [(hclosure.completes hB).heap _ (.root (State.constant_mem_roots hk)), hheap]
    exact henclosed.object
  · rw [henclosed.captures]
    rfl
  · have hB₆ : B.Completes s₆ := hclosure.completes hB
    have hkind : s₄.draft.kind = kind := (hscope.trans hcode).kind
    obtain ⟨-, -, hS⟩ := hw _ (henclosed.completes hkind hpool hk hheap hB₆)
    have hscope₁ : s₁.site.scope = s.site.scope := congrArg Site.scope hsite
    have hall : s₄.draft.chunk.code.toList = w := (hscope.trans hcode).code
    rw [hscope₁, henclosed.captures] at hS
    rwa [hall]

/-- Translating a function adds the code that makes its closure. -/
theorem makes_function {kind : FunctionKind} {body : List Stmt} (hbody : Scripts before body) :
    Makes before o (fun g => Settled g.locals)
      (translateFunction kind name params (Stmt.listTranslate body)) fun B g _ w h =>
        ∃ captures, h = g.marked captures ∧
          Function.Codes B g.scope kind ⟨name, params, body⟩ w h.scope := by
  refine (makes_enclosed (S := fun B w => ∃ v scope,
    Stmt.ListCodes B (.start kind params) true body v scope ∧
      w = v ++ FunctionKind.finalReturn B.kind) fun _ => makes_functionCode hbody).imp
        (fun _ => id) fun B g _ w h hsettled hw => ?_
  obtain ⟨d, rfl, ⟨-, harity, k, r, hconstant, hobject, rfl⟩, v, scope, hcodes, hcode⟩ := hw
  refine ⟨_, rfl, ?_⟩
  have hmarked : (g.marked d.captures.toList).scope = g.scope.mark d.captures.toList :=
    scopeOf_markLocals hsettled
  rw [hmarked]
  exact .mk (f := d.prototype) hconstant hobject harity rfl hcodes hcode

end Compile

end ScriptMachine
