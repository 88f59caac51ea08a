import ScriptMachine.Proofs.Compile.Closures

/-!
# Class declarations

A class is known to be one from its definition until its methods are added, although the source may
assign anything to its name afterwards. While a class with a superclass is declared, the
superclass is a local that the methods capture.
-/

namespace ScriptMachine.Compile

variable {W W' W'' : World} {s s' s'' t : State} {before : Heap} {name : String} {k : UInt16}
  {inner : Parsers} {c : List Bool}

/-! ### Reading the class -/

/-- The code that reads a variable, and where the variable is. -/
theorem does_get {nested : Precedence → Compiler Unit} (hl : s.Live before) :
    Does before s (namedVariable nested name false s) fun _ s' => ∀ W, s.Ready W →
      s'.errors = #[] → ∃ W' access, Carries before W W' s s' [access.get.encode] ∧
        Found name access W' s' := by
  rw [namedVariable_get]
  refine (finds_resolve (K := Always) s hl).bind fun access s₁ hl₁ _ hfound => ?_
  refine (does_emit hl₁).imp fun _ s₂ _ hlater he W hr hclean => ?_
  obtain ⟨W', hc, hf⟩ := hfound W hr trivial (hlater.clean hclean)
  have hemit : Carries before W' W' s₁ s₂ [access.get.encode] := he.carries hc.ready
  exact ⟨W', access, hc.trans hemit, Stable.carry hemit hc.ready hf⟩

/-- The stack after a class was defined, which is pictured as `V`: a local class is on top, and of a
global one it is known that it is a class. -/
inductive ClassKnown (name : String) (s : State) (V : View) : Shape → Prop
  | local_ {l : Local} {rest : List Local} {S : List Slot} {x : Slot}
      (locals : s.draft.locals = l :: rest) (named : l.name = name)
      (settled : Settled (l :: rest)) (slots : V.slots = S ++ [x])
      (below : S.length = rest.length) (any : x.content = .any) :
      ClassKnown name s V (.plain (S ++ [.aClass]))
  | global (outermost : s.enclosing = []) (noLocals : ∀ l ∈ s.draft.locals, l.name = "") :
      ClassKnown name s V ⟨V.slots, some name⟩

/-- What is known of the class may be forgotten. -/
theorem ClassKnown.fits {V : View} {A : Shape} (h : ClassKnown name s V A) :
    SlotsFit A.slots V.slots := by
  cases h with
  | local_ _ _ _ slots _ any =>
    rw [slots]
    refine .append (.refl _) (.cons ⟨?_, by simp [Slot.aClass]⟩ .nil)
    rw [any]
    exact Content.fits_any _
  | global => exact .refl _

/-- Reading the name of the class pushes the class. -/
theorem ClassKnown.read {V : View} {A : Shape} {U : View} {access : Access} {front old : List Local}
    {T : List Slot} (h : ClassKnown name s V A) (hname : Spelled name)
    (hlocals : t.draft.locals = front ++ old) (hold : LocalsLe s.draft.locals old)
    (hfront : ∀ l ∈ front, l.name ≠ name)
    (henclosing : List.Forall₂ (Outgrown W W') s.enclosing t.enclosing)
    (hfound : Found name access W' t) (hU : (t.view W').context.Le U.context) :
    Fragment U.context ⟨A.slots ++ T, A.known⟩ [access.get.encode]
      ⟨A.slots ++ T ++ [.aClass], A.known⟩ := by
  have hskip : Local.find? name t.draft.locals = Local.find? name old := by
    rw [hlocals]
    clear hlocals
    induction front with
    | nil => rfl
    | cons l front ih =>
      rw [List.cons_append, Local.find?, if_neg (hfront l List.mem_cons_self),
        ih fun m hm => hfront m (List.mem_cons_of_mem _ hm)]
  rw [hold.find?] at hskip
  cases h with
  | @local_ l rest S x locals named settled slots below any =>
    have hhere : Local.find? name t.draft.locals = some (rest.length, true) := by
      rw [hskip, locals, Local.find?, if_pos named, settled l List.mem_cons_self]
    cases access with
    | local_ slot =>
      have hslot : slot.toNat = rest.length := by
        rw [Found, hhere, Option.some.injEq, Prod.mk.injEq] at hfound
        exact hfound.1.symm
      refine .instr (.getLocal (a := .aClass) ?_)
      rw [UInt8.toNat_toUInt16, hslot, ← below, List.append_assoc,
        List.getElem?_append_right (Nat.le_refl _), Nat.sub_self]
      rfl
    | upvalue index =>
      have habsent : Local.find? name t.draft.locals = none := hfound.2.1
      rw [hhere] at habsent
      cases habsent
    | global k =>
      obtain ⟨front', m, rest', hm, hmname, -⟩ := find?_eq_some hhere
      exact absurd hmname (hfound.2 _ List.mem_cons_self m (hm ▸ by simp))
  | global outermost noLocals =>
    have hnone : Local.find? name s.draft.locals = none := by
      cases hcase : Local.find? name s.draft.locals with
      | none => rfl
      | some found =>
        obtain ⟨slot, ready⟩ := found
        obtain ⟨front', m, rest', hm, hmname, -⟩ := find?_eq_some hcase
        exact absurd (hmname.symm.trans (noLocals m (hm ▸ by simp))) hname.2
    cases access with
    | local_ slot =>
      rw [Found, hskip, hnone] at hfound
      cases hfound
    | upvalue index =>
      rw [outermost] at henclosing
      exact absurd (List.forall₂_nil_left_iff.mp henclosing) hfound.1
    | global k => exact .instr (.getKnown (names_mono hfound.1 hU))

/-! ### Defining the class -/

/-- The definition of a class: its name is declared and stands for the class. -/
def classHead : Compiler String := do
  let name ← expectName .className
  let constant ← nameConstant name
  declareVariable name
  emit (.class_ constant)
  defineVariable constant
  return name

/-- A class was defined: the code leads to what is known of it. -/
structure ClassDefined (before : Heap) (W W' : World) (s : State) (name : String) (s' : State)
    (code : List UInt32) : Prop where
  spelled : Spelled name
  emits : Emits before W W' s s' code
  locals : Deeper s.draft.scopeDepth s.draft.locals s'.draft.locals
  settled : Settled s'.draft.locals
  runs : ∀ V, (s'.view W').Le V → ∃ A, ClassKnown name s' V A ∧
    Fragment V.context (.plain (V.slots.take s.draft.slots.length)) code A

/-- The head of a class pushes the class and keeps it in its variable. -/
theorem does_classHead (hl : s.Live before) : Does before s (classHead s) fun name s' => ∀ W,
    s.Ready W → Settled s.draft.locals → s'.errors = #[] →
      ∃ W' code, ClassDefined before W W' s name s' code := by
  refine (does_expectName hl).bind fun name s₁ hl₁ _ hread => ?_
  refine (finds_nameConstant (K := Always) s₁ hl₁).bind fun k s₂ hl₂ hlater₂ hk => ?_
  refine (does_declareVariable hl₂).bind fun _ s₃ hl₃ hlater₃ hdeclared => ?_
  refine (does_emit hl₃).bind fun _ s₄ hl₄ hlater₄ hclass => ?_
  refine (does_defineVariable hl₄).bind fun _ s₅ hl₅ hlater₅ hdefined => ?_
  refine does_pure hl₅ fun W hr hs hclean => ?_
  have hname := hread.2 W hr
  have hmoved : Carries before W W s s₁ [] := State.Moved.carries hread.1 hr
  obtain ⟨W', hc, hnamed⟩ := hk W hmoved.ready trivial
    (hlater₃.clean (hlater₄.clean (hlater₅.clean hclean)))
  have hstart := hmoved.trans hc
  have hs₂ := hstart.locals.settled hs
  rcases hdeclared with ⟨hzero, rfl⟩ | ⟨hdepth, hroom, span, rfl⟩
  · -- a global
    have hzero₄ : s₄.draft.scopeDepth = 0 := by
      obtain ⟨lines, -, rfl⟩ := hclass
      exact hzero
    rcases hdefined with ⟨hmore, -⟩ | ⟨-, hdefine⟩
    · omega
    have hclasses : Carries before W' W' s₃ s₄ _ := hclass.carries hc.ready
    have hdefines : Carries before W' W' s₄ _ _ := hdefine.carries hclasses.ready
    have hall := (hstart.trans hclasses).trans hdefines
    have hzero₅ := hall.emits.draft.scopeDepth.trans
      (hstart.emits.draft.scopeDepth.symm.trans hzero)
    obtain ⟨houtermost, hnone⟩ := hall.ready.global hzero₅
    refine ⟨W', _, hname, hall.emits, .of_le hall.locals, hall.locals.settled hs,
      fun V hV => ⟨_, .global houtermost hnone, ?_⟩⟩
    have hV₃ : (s₃.view W').Le V := by
      obtain ⟨lines, -, rfl⟩ := hclass
      obtain ⟨lines', -, rfl⟩ := hdefine
      exact hV
    have hat := names_mono hnamed hV₃.context
    have hlength : V.slots.length ≤ s.draft.slots.length := by
      rw [← hV.slots.length_eq]
      exact Nat.le_of_eq hall.locals.slots.length_eq.symm
    rw [List.take_of_length_le hlength]
    exact (Fragment.instr (.class_ hat)).append
      (.instr (.defineClass hat (hc.ready.slots_ne_nil hV₃)))
  · -- a local
    have hdepth₀ : 0 < s.draft.scopeDepth := by rwa [← hstart.emits.draft.scopeDepth]
    have hdeclares : Emits before W' W' s₂ (s₂.declared name span) [] :=
      emits_declared hc.ready hs₂ hdepth hroom
    have hclasses : Carries before W' W' _ s₄ _ := hclass.carries hdeclares.ready
    have hlocals : s₄.draft.locals = ⟨name, span, none, false⟩ :: s₂.draft.locals := by
      obtain ⟨lines, -, rfl⟩ := hclass
      rfl
    have hinit := initializes hdepth₀ ((hstart.emits.trans hdeclares).trans hclasses.emits) hlocals
      hstart.locals
    have hdepth₄ : 0 < s₄.draft.scopeDepth := by
      obtain ⟨lines, -, rfl⟩ := hclass
      exact hdepth
    rcases hdefined with ⟨-, rfl⟩ | ⟨hzero, -⟩
    · refine ⟨W', _, hname, hinit.emits, ⟨[_], _, hinit.last, hstart.locals, ?_⟩, ?_, fun V hV => ?_⟩
      · intro m hm
        rw [List.mem_singleton.mp hm]
      · rw [hinit.last]
        exact List.forall_mem_cons.mpr ⟨rfl, hs₂⟩
      · obtain ⟨S, x, hVS, hS, hx, hcontext, htake⟩ := hinit.split V hV
        have hcontext₂ : (s₂.view W').context.Le V.context := by
          obtain ⟨lines, -, rfl⟩ := hclass
          exact hcontext
        refine ⟨_, .local_ hinit.last rfl (List.forall_mem_cons.mpr ⟨rfl, hs₂⟩) hVS ?_ ?_, ?_⟩
        · rw [← hS.length_eq, length_slotsOf hs₂]
        · rw [← hx.content]
          exact if_neg hname.1
        · rw [htake]
          exact .instr (.class_ (names_mono hnamed hcontext₂))
    · omega

/-! ### Superclasses -/

/-- Other classes around. -/
theorem State.Ready.reclass (hr : s.Ready W) (h : true ∈ c → true ∈ s.classes) :
    ({ s with classes := c } : State).Ready W :=
  ⟨hr.fits, hr.clean, hr.tokens, hr.drafts, hr.enclosing, hr.captures, hr.global,
    fun hc => hr.super (h hc), hr.planted⟩

/-- Whether a class is around makes no difference to the constants. -/
theorem State.Live.reclass (hl : s.Live before) :
    ({ s with classes := c } : State).Live before :=
  hl.change (.refl _) rfl fun d hd => ⟨d, hd, rfl, fun _ => id⟩

/-- A class around is noted without code. -/
theorem does_modifyClasses {f : List Bool → List Bool} (hl : s.Live before) :
    Does before s ((modify fun s => { s with classes := f s.classes } : Compiler Unit) s)
      fun _ s' => s' = { s with classes := f s.classes } :=
  .ok hl.reclass ⟨rfl, rfl, Nat.le_refl _⟩ rfl

/-- The classes around do not matter to what a step emits. -/
theorem Emits.reclass {w : List UInt32} (h : Emits before W W' s s' w)
    (hr : ({ s' with classes := c } : State).Ready W') :
    Emits before W W' { s with classes := c } { s' with classes := c } w :=
  ⟨hr, h.outer, h.draft, h.code, h.enclosing, rfl, h.kept⟩

/-- A superclass was read into a local of a new scope, and the class inherits from it. -/
structure Inherits (before : Heap) (W W₁ W₂ : World) (s u v : State) (name sup : String)
    (access access' : Access) (l : Local) (rest : List Local) : Prop where
  first : Carries before W W₁ s u [access.get.encode]
  found : Found sup access W₁ u
  spelled : Spelled sup
  second : Emits before W₁ W₂ u.inner v [access'.get.encode, Instr.inherit.encode]
  found' : Found name access' W₂ v
  locals : v.draft.locals = l :: rest
  kept : LocalsLe u.draft.locals rest
  super : l.name = "super" ∧ l.depth = some (u.draft.scopeDepth + 1)

/-- Methods may refer to the superclass. -/
theorem Inherits.ready {W₁ W₂ : World} {u v : State} {sup : String} {access access' : Access}
    {l : Local} {rest : List Local}
    (h : Inherits before W W₁ W₂ s u v name sup access access' l rest) :
    ({ v with classes := c } : State).Ready W₂ := by
  have hr := h.second.ready
  refine ⟨hr.fits, hr.clean, hr.tokens, hr.drafts, hr.enclosing, hr.captures, hr.global,
    fun _ => ?_, hr.planted⟩
  exact ⟨v.draft, List.mem_cons_self, l, h.locals ▸ List.mem_cons_self, h.super.1⟩

/-- A superclass is pushed, kept as the local `super`, and inherited from. -/
theorem does_superclass (hl : s.Live before) : Does before s (superclass inner name s) fun _ s' =>
    ∀ W, s.Ready W → Settled s.draft.locals → s'.errors = #[] →
      ∃ W₁ W₂ u v sup access access' l rest,
        Inherits before W W₁ W₂ s u v name sup access access' l rest ∧
          s' = { v with classes := true :: v.classes.tail } := by
  refine (does_expectName hl).bind fun sup s₁ hl₁ _ hread => ?_
  refine (does_get hl₁).bind fun _ s₂ hl₂ hlater₂ hget => ?_
  by_cases hself : sup = name
  · simp only [if_pos hself]
    exact (does_failBefore (Q := fun _ _ => False) hl₂).bind fun _ _ _ _ h => h.elim
  simp only [if_neg hself]
  refine (does_beginScope hl₂).bind fun _ s₃ hl₃ _ h₃ => ?_
  subst h₃
  refine (does_addLocal hl₃).bind fun _ s₄ hl₄ hlater₄ hadded => ?_
  obtain ⟨hroom, rfl⟩ := hadded
  refine (does_defineVariable hl₄).bind fun _ s₅ hl₅ hlater₅ hdefined => ?_
  refine (does_get hl₅).bind fun _ s₆ hl₆ hlater₆ hget' => ?_
  refine (does_emit hl₆).bind fun _ s₇ hl₇ hlater₇ hinherit => ?_
  refine (does_modifyClasses (f := fun cs => true :: cs.tail) hl₇).imp fun _ s₈ _ hlater₈ hclasses W hr hs hclean => ?_
  have hclean₆ := hlater₇.clean (hlater₈.clean hclean)
  have hclean₂ := (hlater₄.trans (hlater₅.trans hlater₆)).clean hclean₆
  have hmoved : Carries before W W s s₁ [] := State.Moved.carries hread.1 hr
  obtain ⟨W₁, access, hc, hfound⟩ := hget W hmoved.ready hclean₂
  have hfirst := hmoved.trans hc
  have hs₂ := hfirst.locals.settled hs
  have hadd : Emits before _ _ _ (State.declared _ "super" Source.Span.none) [] :=
    emits_declared hfirst.ready.inner hs₂ (Nat.succ_pos _) hroom
  rcases hdefined with ⟨hdepth, rfl⟩ | ⟨hzero, -⟩
  · obtain ⟨hinit, hlast, -⟩ := emits_initialized before hadd.ready hdepth rfl
    obtain ⟨W₂, access', hc', hfound'⟩ := hget' W₁ hinit.ready hclean₆
    have hemit : Carries before W₂ W₂ s₆ s₇ _ := hinherit.carries hc'.ready
    have hlocals := (hc'.trans hemit).locals
    rw [hlast] at hlocals
    obtain ⟨l, rest, hl, hrest, hlocals'⟩ := List.forall₂_cons_left_iff.mp hlocals
    refine ⟨W₁, W₂, s₂, s₇, sup, access, access', l, rest, ⟨hfirst, hfound, hread.2 W hr, ?_,
      Stable.carry hemit hc'.ready hfound', hlocals', hrest, hl.name, hl.depth⟩, hclasses⟩
    exact (hadd.trans hinit).trans (hc'.trans hemit).emits
  · cases hzero

/-! ### Whole declarations -/

/-- Whether a class is around makes no difference to the code. -/
theorem Carries.reclass {w : List UInt32} (h : Carries before W W' s s' w)
    (hr : ({ s' with classes := c } : State).Ready W') :
    Carries before W W' { s with classes := c } { s' with classes := c } w :=
  ⟨h.emits.reclass hr, h.locals⟩

/-- The methods of a class, and its end. -/
def classBody (inner : Parsers) : Compiler Unit := do
  expect .leftBrace .classOpen
  let left ← look State.remaining
  methods inner left
  expect .rightBrace .classClose
  emit .pop

/-- A class on top of the stack may be dropped. -/
theorem turns_dropClass {K : World → State → Prop} :
    Turns before K (emit .pop) [.aClass] [] := by
  refine turns_emit fun W s hr hk V hV T => ?_
  have hne : V.slots ++ T ≠ [] := by simp [hr.slots_ne_nil hV]
  have hfits : Shape.Fits (.plain (V.slots ++ T ++ [.aClass]))
      (.plain (withValues (V.slots ++ T) 1)) :=
    Shape.fits_plain (.append (.refl _) (.cons ⟨Content.fits_any _, by simp [Slot.aClass]⟩ .nil))
  exact Fragment.append (.nil hfits)
    (.instr (Effect.plain (g := none) (Plain.pop (Γ := V.context)) hne))

/-- The body of a class takes the class from the stack. -/
theorem turns_classBody (hd : Declares before inner.declaration) :
    Turns before AllSettled (classBody inner) [.aClass] [] := by
  refine turns_expect.bind fun _ => ?_
  refine Writes.after_reads (fun _ => does_look_reads) fun left => ?_
  exact (turns_methods hd).bind fun _ => turns_expect.bind fun _ => turns_dropClass

/-- The rest of the declaration leaves the stack to the class and what is below it. -/
theorem ClassDefined.extends {code w : List UInt32} (hdef : ClassDefined before W W' s name s' code)
    (hc : Carries before W' W'' s' s'' w) (hw : ∀ V, (s''.view W'').Le V → ∀ A,
      ClassKnown name s' V A → Fragment V.context A w (.plain V.slots)) :
    Extends before W W'' s s'' (code ++ w) := by
  refine ⟨hdef.emits.trans hc.emits, hdef.locals.trans (.of_le hc.locals), fun V hV => ?_⟩
  obtain ⟨A, hA, hrun⟩ := hdef.runs V ((hc.view_le hdef.emits.ready).trans hV)
  exact hrun.append (hw V hV A hA)

/-- From the class on top of what is known to the class on top of the pictured stack. -/
theorem ClassKnown.top {V : View} {A : Shape} {T : List Slot} {B : List Slot}
    (h : ClassKnown name s V A) (hT : SlotsFit T B) :
    Shape.Fits ⟨A.slots ++ T ++ [.aClass], A.known⟩ (.plain (V.slots ++ B ++ [.aClass])) :=
  Shape.fits_plain ((h.fits.append hT).append (.refl _))

/-- A class without a superclass. -/
theorem ClassDefined.alone {code w : List UInt32} {W₂ W₃ : World} {u v : State} {access : Access}
    (hdef : ClassDefined before W W' s name s' code)
    (hget : Carries before W' W₂ { s' with classes := false :: s'.classes } u [access.get.encode])
    (hfound : Found name access W₂ u)
    (hbody : Compiles before W₂ W₃ u v w (Through [.aClass] [])) :
    ∃ w', Extends before W W₃ s { v with classes := v.classes.tail } w' := by
  have hall := hget.trans hbody.toCarries
  have hclasses : v.classes = false :: s'.classes := hall.emits.classes
  have hready := hall.ready.reclass (c := s'.classes) fun h => hclasses ▸ List.mem_cons_of_mem _ h
  have hc : Carries before W' W₃ s' { v with classes := v.classes.tail }
      ([access.get.encode] ++ w) := by
    have := hall.reclass hready
    rwa [hclasses]
  refine ⟨_, hdef.extends hc fun V hV A hA => ?_⟩
  have hu : (u.view W₂).Le V := (hbody.view_le hget.ready).trans hV
  have hnofront : ∀ l ∈ ([] : List Local), l.name ≠ name := by simp
  have hread := hA.read (T := []) hdef.spelled rfl hget.locals hnofront hget.emits.enclosing hfound
    hu.context
  have hrun : Whole [.aClass] [] V w := (hbody.runs V hV).whole
  rw [Whole, List.append_nil] at hrun
  rw [List.append_nil] at hread
  have htop := hA.top (.refl [])
  simp only [List.append_nil] at htop
  exact hread.append ((Fragment.append (.nil htop) hrun))

/-- The class inherits from its superclass, which stays below it. -/
theorem Inherits.run {W₁ W₂ W₃ : World} {u v x : State} {sup : String}
    {access access' access'' : Access} {l : Local} {rest : List Local} {V : View} {A : Shape}
    {y : Slot} (h : Inherits before W' W₁ W₂ t u v name sup access access' l rest)
    (hname : Spelled name) (hA : ClassKnown name s V A)
    (hstart : LocalsLe s.draft.locals t.draft.locals)
    (hds : List.Forall₂ (Outgrown W W') s.enclosing t.enclosing)
    (hget : Carries before W₂ W₃ { v with classes := c } x [access''.get.encode])
    (hfound : Found name access'' W₃ x) (hu : (u.view W₁).Le V)
    (hx : (x.view W₃).context.Le V.context) (hv : (v.view W₂).context.Le V.context)
    (hy : l.slot.Upgrade y) : Fragment V.context A
      [access.get.encode, access'.get.encode, Instr.inherit.encode, access''.get.encode]
      (.plain (V.slots ++ [y] ++ [.aClass])) := by
  have hne : A.slots ≠ [] := by
    have hlength := hA.fits.length_eq
    intro hnil
    rw [hnil, List.length_nil, eq_comm, List.length_eq_zero_iff] at hlength
    exact h.first.ready.slots_ne_nil hu hlength
  have hrest : LocalsLe s.draft.locals rest := hstart.trans (h.first.locals.trans h.kept)
  have hfront : ∀ m ∈ [l], m.name ≠ name := by
    intro m hm
    rw [List.mem_singleton.mp hm, h.super.1]
    exact hname.1.symm
  have hds' : List.Forall₂ (Outgrown W W₂) s.enclosing v.enclosing :=
    forall₂_comp hds (forall₂_comp h.first.emits.enclosing h.second.enclosing
      fun _ _ _ => Outgrown.trans) fun _ _ _ => Outgrown.trans
  -- the superclass
  have hfits : SlotsFit A.slots (V.slots ++ []) := by
    rw [List.append_nil]
    exact hA.fits
  obtain ⟨d, -, hsup⟩ := get_fragment (T := []) (g := A.known) h.first.ready h.found
    (fun hs => absurd hs h.spelled.1) hu hfits
  have hvalue : Shape.Fits ⟨A.slots ++ [⟨d, false⟩], A.known⟩ ⟨A.slots ++ [.value], A.known⟩ :=
    ⟨.append (.refl _) (.cons ⟨Content.fits_any _, by simp⟩ .nil), .inr rfl⟩
  -- the class, which inherits from it
  have hclass := hA.read (T := [.value]) (U := V) hname h.locals hrest hfront hds' h.found' hv
  rw [List.append_assoc] at hclass
  have hinherit := Fragment.instr (Γ := V.context) (Effect.inherit (g := A.known) hne)
  -- the class again, for its methods
  obtain ⟨l', rest', hl', hrest', hlocals'⟩ := List.forall₂_cons_left_iff.mp
    (show LocalsLe (l :: rest) x.draft.locals from h.locals ▸ hget.locals)
  have hagain := hA.read (T := [.aClass]) (U := V) hname hlocals'
    (hrest.trans hrest') (fun m hm => by
      rw [List.mem_singleton.mp hm, hl'.name]
      exact hfront l (List.mem_singleton.mpr rfl))
    (forall₂_comp hds' hget.emits.enclosing fun _ _ _ => Outgrown.trans) hfound hx
  have hsuper : SlotsFit [.aClass] [y] := by
    refine .cons ⟨?_, by simp [Slot.aClass]⟩ .nil
    rw [← hy.content]
    show Content.Fits .class_ (contentOf l.name)
    rw [h.super.1]
    exact .refl _
  have hrun := (hsup.append (.nil hvalue)).append (hclass.append (hinherit.append
    (hagain.append (.nil (hA.top hsuper)))))
  simpa using hrun

/-- A class with a superclass. -/
theorem ClassDefined.below {code w : List UInt32} {W₁ W₂ W₃ W₄ : World} {u v x y z : State}
    {sup : String} {access access' access'' : Access} {l : Local} {rest : List Local}
    (hdef : ClassDefined before W W' s name s' code)
    (hmoved : State.Moved { s' with classes := false :: s'.classes } t)
    (hinherits : Inherits before W' W₁ W₂ t u v name sup access access' l rest)
    (hget : Carries before W₂ W₃ { v with classes := true :: v.classes.tail } x
      [access''.get.encode])
    (hfound : Found name access'' W₃ x)
    (hbody : Compiles before W₃ W₄ x y w (Through [.aClass] []))
    (hend : State.Ended { y with classes := y.classes.tail } () z) :
    ∃ w', Extends before W W₄ s z w' := by
  have hstart : Carries before W' W' { s' with classes := false :: s'.classes } t [] :=
    hmoved.carries (hdef.emits.ready.reclass fun h => by simpa using h)
  have hfirst := hstart.trans hinherits.first
  have hu : u.classes = false :: s'.classes := hfirst.emits.classes
  have hv : v.classes = false :: s'.classes := hinherits.second.classes.trans hu
  have hmethods := hget.trans hbody.toCarries
  have hy : y.classes = true :: s'.classes := by
    have := hmethods.emits.classes
    rwa [hv] at this
  rw [hy] at hend
  have hreadyu := hfirst.ready.reclass (c := s'.classes) fun h => hu ▸ List.mem_cons_of_mem _ h
  have hreadyv := hinherits.second.ready.reclass (c := s'.classes) fun h =>
    hv ▸ List.mem_cons_of_mem _ h
  have hreadyy := hmethods.ready.reclass (c := s'.classes) fun h => hy ▸ List.mem_cons_of_mem _ h
  have hinside := (hinherits.second.reclass hreadyv).trans (hmethods.emits.reclass hreadyy)
  obtain ⟨l', rest', hl', hrest', hlocals'⟩ := List.forall₂_cons_left_iff.mp
    (show LocalsLe (l :: rest) y.draft.locals from hinherits.locals ▸ hmethods.locals)
  have hsettled : Settled u.draft.locals := hfirst.locals.settled hdef.settled
  obtain ⟨w', hc, hleave⟩ := Emits.leave (s := { u with classes := s'.classes })
    hreadyu hsettled hinside hlocals' (hinherits.kept.trans hrest') (by
      intro m hm
      rw [List.mem_singleton.mp hm, hl'.depth]
      exact hinherits.super.2) hend
  have hall := (hfirst.reclass hreadyu).trans hc
  refine ⟨_, hdef.extends hall fun V hV A hA => ?_⟩
  obtain ⟨hle, hrunleave⟩ := hleave V hV
  have hone : slotsOf [l'] = [l'.slot] := slotsOf_settled (by
    rw [hl'.depth, hinherits.super.2]
    rfl)
  rw [hone] at hle hrunleave
  have hviewu : (u.view W₁).Le V := (hc.view_le hreadyu).trans hV
  have hviewx : (x.view W₃).Le ⟨V.context, V.slots ++ [l'.slot]⟩ :=
    (hbody.view_le hget.ready).trans hle
  have hcontextv : (v.view W₂).context.Le V.context :=
    (hget.emits.context_le hinherits.ready).trans hviewx.context
  have hinherit := hinherits.run hdef.spelled hA hstart.locals hstart.emits.enclosing hget hfound
    hviewu hviewx.context hcontextv hl'.slot
  have hrunbody := (hbody.runs _ hle).whole
  rw [Whole, List.append_nil] at hrunbody
  have hrun := hinherit.append (hrunbody.append hrunleave)
  simpa using hrun

/-- A class declaration. -/
theorem declares_class (hd : Declares before inner.declaration) :
    Declares before (classDeclaration inner) := by
  have hsplit : classDeclaration inner = classHead >>= fun name => (do
      modify fun s => { s with classes := false :: s.classes }
      if ← accept .colon then superclass inner name
      namedVariable inner.expression name false
      classBody inner
      let hasSuperclass ← look fun s => s.classes.head?.getD false
      modify fun s => { s with classes := s.classes.tail }
      if hasSuperclass then endScope : Compiler Unit) := by
    unfold classDeclaration classHead classBody
    simp only [bind_assoc, pure_bind]
  rw [hsplit]
  intro s hl
  refine (does_classHead hl).bind fun name s₁ hl₁ _ hhead => ?_
  refine (does_modifyClasses (f := fun cs => false :: cs) hl₁).bind fun _ s₂ hl₂ hlater₂ h₂ => ?_
  refine (does_accept hl₂).bind fun inherits s₃ hl₃ hlater₃ hm => ?_
  subst h₂
  cases inherits with
  | false =>
    refine (does_get hl₃).bind fun _ s₄ hl₄ hlater₄ hget => ?_
    refine (turns_classBody hd s₄ hl₄).bind fun _ s₅ hl₅ hlater₅ hbody => ?_
    refine (does_look (Q := fun has s' => has = s₅.classes.head?.getD false ∧ s' = s₅) hl₅
      ⟨rfl, rfl⟩).bind fun has s₆ hl₆ _ h₆ => ?_
    obtain ⟨rfl, rfl⟩ := h₆
    refine (does_modifyClasses (f := List.tail) hl₆).bind fun _ s₇ hl₇ hlater₇ h₇ => ?_
    subst h₇
    have hfacts (W : World) (hr : s.Ready W) (hs : Settled s.draft.locals)
        (hclean : s₆.errors = #[]) : s₆.classes = false :: s₁.classes ∧
          ∃ W' w, Extends before W W' s { s₆ with classes := s₆.classes.tail } w := by
      have hclean₄ := hlater₅.clean hclean
      obtain ⟨W₁, code, hdef⟩ := hhead W hr hs
        (hlater₂.clean (hlater₃.clean (hlater₄.clean hclean₄)))
      have hready := hdef.emits.ready.reclass (c := false :: s₁.classes) fun h => by simpa using h
      have hmoved : Carries before W₁ W₁ _ s₃ [] := hm.carries hready
      obtain ⟨W₂, access, hc, hfound⟩ := hget W₁ hmoved.ready hclean₄
      have hreads := hmoved.trans hc
      obtain ⟨W₃, w, hw⟩ := hbody W₂ hreads.ready (hreads.locals.settled hdef.settled) hclean
      refine ⟨(hreads.trans hw.toCarries).emits.classes, W₃, ?_⟩
      exact hdef.alone hreads hfound hw
    by_cases hhas : s₆.classes.head?.getD false = true
    · rw [if_pos hhas]
      refine (does_endScope hl₇).imp fun _ s₈ _ hlater₈ _ W hr hs hclean => ?_
      rw [(hfacts W hr hs (hlater₈.clean hclean)).1] at hhas
      cases hhas
    · rw [if_neg hhas]
      exact does_pure hl₇ fun W hr hs hclean => (hfacts W hr hs hclean).2
  | true =>
    refine (does_superclass hl₃).bind fun _ s₄ hl₄ hlater₄ hsuper => ?_
    refine (does_get hl₄).bind fun _ s₅ hl₅ hlater₅ hget => ?_
    refine (turns_classBody hd s₅ hl₅).bind fun _ s₆ hl₆ hlater₆ hbody => ?_
    refine (does_look (Q := fun has s' => has = s₆.classes.head?.getD false ∧ s' = s₆) hl₆
      ⟨rfl, rfl⟩).bind fun has s₇ hl₇ _ h₇ => ?_
    obtain ⟨rfl, rfl⟩ := h₇
    refine (does_modifyClasses (f := List.tail) hl₇).bind fun _ s₈ hl₈ hlater₈ h₈ => ?_
    subst h₈
    have hfacts (W : World) (hr : s.Ready W) (hs : Settled s.draft.locals)
        (hclean : s₇.errors = #[]) : s₇.classes.head?.getD false = true ∧ ∀ z : State,
          State.Ended { s₇ with classes := s₇.classes.tail } () z →
            ∃ W' w, Extends before W W' s z w := by
      have hclean₅ := hlater₆.clean hclean
      have hclean₄ := hlater₅.clean hclean₅
      have hclean₃ := hlater₄.clean hclean₄
      obtain ⟨W', code, hdef⟩ := hhead W hr hs (hlater₂.clean (hlater₃.clean hclean₃))
      have hready := hdef.emits.ready.reclass (c := false :: s₁.classes) fun h => by simpa using h
      have hmoved : Carries before W' W' _ s₃ [] := hm.carries hready
      obtain ⟨W₁, W₂, u, v, sup, access, access', l, rest, hinherits, rfl⟩ := hsuper W' hmoved.ready
        (hmoved.locals.settled hdef.settled) hclean₄
      obtain ⟨W₃, access'', hc, hfound⟩ := hget W₂ hinherits.ready hclean₅
      have hsettled : Settled v.draft.locals := by
        rw [hinherits.locals]
        refine List.forall_mem_cons.mpr ⟨by rw [hinherits.super.2]; rfl, ?_⟩
        exact hinherits.kept.settled
          ((hmoved.trans hinherits.first).locals.settled hdef.settled)
      obtain ⟨W₄, w, hw⟩ := hbody W₃ hc.ready (hc.locals.settled hsettled) hclean
      refine ⟨?_, fun z hz => ⟨W₄, hdef.below hm hinherits hc hfound hw hz⟩⟩
      rw [(hc.trans hw.toCarries).emits.classes]
      rfl
    by_cases hhas : s₇.classes.head?.getD false = true
    · rw [if_pos hhas]
      exact (does_endScope hl₈).imp fun _ s₉ _ hlater₉ hend W hr hs hclean =>
        (hfacts W hr hs (hlater₉.clean hclean)).2 s₉ hend
    · rw [if_neg hhas]
      exact does_pure hl₈ fun W hr hs hclean => absurd (hfacts W hr hs hclean).1 hhas

end ScriptMachine.Compile
