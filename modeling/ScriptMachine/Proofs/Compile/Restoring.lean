import ScriptMachine.Proofs.Compile.Calls
import ScriptMachine.Proofs.Compile.Scenes

/-!
# Restoring scenes

Whatever a form puts on top of the scene it starts in, it takes off again when it succeeds, and
when it fails the scene it started in is still below. So a declaration that failed is followed by
the scene before it, and one that succeeded by that scene with the local it declares, if any. What
is nested is only ever called in scenes of this kind, which bounds the number of functions by the
levels of nesting.
-/

namespace ScriptMachine.Compile

variable {α β : Type} {s s' : State} {base c c' : Scene} {tokens : Array Lexeme} {spare : Nat}

/-! ### Results -/

/-- Two runs do the same: a success has `Q`, and a problem leaves the scene `base` below. -/
def Restores (base : Scene) (r r' : EStateM.Result Stop State α) (Q : α → State → Prop) : Prop :=
  r' = r ∧ match r with
    | .ok a s' => Q a s'
    | .error (.problem _) s' => base.Over s'.scene
    | .error (.fault _) _ => True

section Rules

variable {r r' : EStateM.Result Stop State α} {Q R : α → State → Prop}

/-- A success may be said less of. -/
theorem Restores.imp (h : Restores base r r' Q) (himp : ∀ a s', Q a s' → R a s') :
    Restores base r r' R := by
  refine ⟨h.1, ?_⟩
  match r, h.2 with
  | .ok a s', hq => exact himp a s' hq
  | .error (.problem _) s', hover => exact hover
  | .error (.fault _) s', _ => trivial

/-- What lies over a scene lies over those below it. -/
theorem Restores.rebase (h : Restores c r r' Q) (hover : base.Over c) : Restores base r r' Q := by
  refine ⟨h.1, ?_⟩
  match r, h.2 with
  | .ok a s', hq => exact hq
  | .error (.problem _) s', h => exact hover.trans h
  | .error (.fault _) s', _ => trivial

/-- The scene that is left below by one step is left below by both. -/
theorem Restores.bind {x y : Compiler α} {f g : α → Compiler β} {R : β → State → Prop}
    (hx : Restores base (x s) (y s) Q)
    (hf : ∀ a s', Q a s' → Restores base (f a s') (g a s') R) :
    Restores base ((x >>= f) s) ((y >>= g) s) R := by
  show Restores base (EStateM.bind x f s) (EStateM.bind y g s) R
  unfold EStateM.bind
  obtain ⟨heq, hpost⟩ := hx
  rw [heq]
  match hr : x s with
  | .ok a s' =>
    rw [hr] at hpost
    exact hf a s' hpost
  | .error (.problem _) s' =>
    rw [hr] at hpost
    exact ⟨rfl, hpost⟩
  | .error (.fault _) s' => exact ⟨rfl, trivial⟩

/-- A success restores what it is known to. -/
theorem Restores.ok {a : α} (h : Q a s) : Restores base (.ok a s) (.ok a s) Q := ⟨rfl, h⟩

end Rules

/-! ### Scenes in which forms are read -/

/-- A scene in which a form is read: no local is deeper than the scope, names are global in the
script outside of all blocks only, the forms around are no more than allowed, besides the script
there are `spare` functions less than forms at least, and the tokens are the given ones. -/
structure Scene.Fit (tokens : Array Lexeme) (spare : Nat) (c : Scene) : Prop where
  depths : ∀ b ∈ c.current.locals, ∀ k, b.depth = some k → k ≤ c.current.scopeDepth
  outermost : c.current.scopeDepth = 0 → c.around = [] ∧ c.current.kind = .script
  levels : c.functions.length + spare ≤ c.nesting + 1
  bound : c.nesting ≤ maxNesting
  tokens : c.tokens = tokens

/-- A scene with more levels to spare has less to spare. -/
theorem Scene.Fit.mono (h : c.Fit tokens (spare + 1)) : c.Fit tokens spare :=
  ⟨h.depths, h.outermost, Nat.le_trans (by omega) h.levels, h.bound, h.tokens⟩

/-- A form within stands one level deeper, where one more function can be begun. -/
theorem Scene.Fit.deeper (h : c.Fit tokens spare) (hlt : c.nesting < maxNesting) :
    c.deeper.Fit tokens (spare + 1) :=
  ⟨h.depths, h.outermost, Nat.succ_le_succ h.levels, hlt, h.tokens⟩

/-- There are no more functions than levels, and the script. -/
theorem Scene.Fit.few (h : c.Fit tokens spare) : c.functions.length ≤ maxNesting + 1 := by
  have hlevels := h.levels
  have hbound := h.bound
  omega

/-- New locals of the current scope. -/
def Scene.Grows (c c' : Scene) : Prop :=
  ∃ new, c' = c.gain new ∧ ∀ b ∈ new, b.depth = some c.current.scopeDepth

/-- Every scene grows to itself by no local. -/
theorem Scene.Grows.refl (c : Scene) : c.Grows c := ⟨[], rfl, by simp⟩

/-- Growing twice is growing. -/
theorem Scene.Grows.trans {c'' : Scene} (h : c.Grows c') (h' : c'.Grows c'') : c.Grows c'' := by
  obtain ⟨new, rfl, hnew⟩ := h
  obtain ⟨more, rfl, hmore⟩ := h'
  refine ⟨more ++ new, c.gain_gain new more, fun b hb => ?_⟩
  rcases List.mem_append.mp hb with hb | hb
  · exact hmore b hb
  · exact hnew b hb

/-- A scene that grew has the one before below. -/
theorem Scene.Grows.over (h : c.Grows c') : c.Over c' := by
  obtain ⟨new, rfl, -⟩ := h
  exact (Over.refl c).gain new

/-- New locals that are no deeper than the scope fit. -/
theorem Scene.Fit.gain (h : c.Fit tokens spare) {new : List Local.Facts}
    (hnew : ∀ b ∈ new, ∀ k, b.depth = some k → k ≤ c.current.scopeDepth) :
    (c.gain new).Fit tokens spare := by
  refine ⟨fun b hb => ?_, h.outermost, h.levels, h.bound, h.tokens⟩
  rcases List.mem_append.mp hb with hb | hb
  · exact hnew b hb
  · exact h.depths b hb

/-- A fit scene grows to a fit one. -/
theorem Scene.Fit.grows (h : c.Fit tokens spare) (hg : c.Grows c') : c'.Fit tokens spare := by
  obtain ⟨new, rfl, hnew⟩ := hg
  refine h.gain fun b hb k hk => ?_
  rw [hnew b hb, Option.some.injEq] at hk
  exact Nat.le_of_eq hk.symm

/-- A scope within a fit scene fits. -/
theorem Scene.Fit.inside (h : c.Fit tokens spare) : c.inside.Fit tokens spare :=
  ⟨fun b hb k hk => Nat.le_succ_of_le (h.depths b hb k hk),
    fun hzero => absurd hzero (Nat.succ_ne_zero _), h.levels, h.bound, h.tokens⟩

/-- Whether a class is around makes no difference to the fit. -/
theorem Scene.Fit.reclass (h : c.Fit tokens spare) (classes : List Bool) :
    { c with classes := classes }.Fit tokens spare := 
  ⟨h.depths, h.outermost, h.levels, h.bound, h.tokens⟩

/-- A function takes a level. -/
theorem Scene.Fit.enter (h : c.Fit tokens (spare + 1)) (kind : FunctionKind) (r : Handle) :
    (c.enter kind r).inside.Fit tokens spare := by
  refine ⟨fun b hb k hk => ?_, fun hzero => absurd hzero (Nat.succ_ne_zero _), ?_, h.bound, h.tokens⟩
  · obtain rfl := List.mem_singleton.mp hb
    cases hk
    exact Nat.zero_le _
  · have hlevels := h.levels
    show (c.functions.length + 1) + spare ≤ c.nesting + 1
    omega

/-! ### Forms that leave the scene as it is -/

/-- Two steps that do the same in scenes with `P`, and leave the scene as it is when they
succeed. -/
def Unmoved (P : Scene → Prop) (α : Type) (x y : Compiler α) : Prop :=
  ∀ s, P s.scene → Restores s.scene (x s) (y s) fun _ s' => s'.scene = s.scene

/-- What leaves scenes with less to spare leaves those with more. -/
theorem Unmoved.mono {x y : Compiler α} (h : Unmoved (Scene.Fit tokens spare) α x y) :
    Unmoved (Scene.Fit tokens (spare + 1)) α x y := fun s hfit => h s hfit.mono

/-- A step that never changes the scene. -/
theorem unmoved_of_same {P : Scene → Prop} {x : Compiler α}
    (hok : ∀ s a s', x s = .ok a s' → s'.scene = s.scene)
    (hproblem : ∀ s e s', x s = .error (.problem e) s' → s'.scene = s.scene) :
    Unmoved P α x x := by
  intro s _
  refine ⟨rfl, ?_⟩
  match hr : x s with
  | .ok a s' => exact hok s a s' hr
  | .error (.problem e) s' => exact .of_eq (hproblem s e s' hr)
  | .error (.fault _) s' => trivial

/-- A change of the code alone leaves the scene. -/
theorem scene_recode {f : Draft → Draft} (hf : ∀ d : Draft, d.Recoded (f d)) (s : State) :
    ({ s with draft := f s.draft } : State).scene = s.scene := by
  rw [State.scene, State.scene, Draft.sketch_eq (hf s.draft)]

/-- A capture leaves the scene, whether it is found or not. -/
theorem scene_captureVariable (s : State) (name : String) :
    (∀ a s', captureVariable name s = .ok a s' → s'.scene = s.scene) ∧
      ∀ e s', captureVariable name s = .error e s' → s'.scene = s.scene := by
  obtain ⟨hinner, haround⟩ := Draft.sketch_resolveCapture name s.draft s.enclosing
  have hscene : ({ s with
      draft := (Draft.resolveCapture name s.draft s.enclosing).2.1
      enclosing := (Draft.resolveCapture name s.draft s.enclosing).2.2 } : State).scene =
      s.scene := by
    rw [State.scene, State.scene, hinner, haround]
  constructor
  all_goals
    intro a s' h
    unfold captureVariable at h
    dsimp only at h
    split at h
    all_goals
      cases h
      try exact hscene

instance stride_unmoved (P : Scene → Prop) : Stride (Unmoved P) where
  pure _ _ _ := .ok rfl
  bind hx hf s hs := (hx s hs).bind fun a s' hs' =>
    ((hf a s' (hs'.symm ▸ hs)).imp fun _ _ h => h.trans hs').rebase (.of_eq hs')
  look _ _ _ := .ok rfl
  failHere _ _ s _ := ⟨rfl, .refl _⟩
  failBefore _ _ s _ := ⟨rfl, .refl _⟩
  take f hit _ s _ := by
    rw [take_eq]
    exact .ok (by split <;> rfl)
  recode f hf s _ := .ok (scene_recode hf s)
  intern chars := unmoved_of_same
    (fun s a s' h => by
      unfold intern at h
      dsimp only at h
      split at h
      · cases h
        rfl
      · cases h)
    fun s e s' h => by
      unfold intern at h
      dsimp only at h
      split at h <;> cases h
  captureVariable name := unmoved_of_same (fun s a s' => (scene_captureVariable s name).1 a s')
    fun s e s' => (scene_captureVariable s name).2 (.problem e) s'

/-- A step that leaves the scene `c` as it is, before others. -/
theorem restores_then {P : Scene → Prop} {x y : Compiler α} [h : Walks (Unmoved P) x y]
    {f g : α → Compiler β} {R : β → State → Prop} (hs : s.scene = c) (hc : P c)
    (hover : base.Over c) (hf : ∀ a s', s'.scene = c → Restores base (f a s') (g a s') R) :
    Restores base ((x >>= f) s) ((y >>= g) s) R :=
  ((h.walks s (hs.symm ▸ hc)).rebase (hs.symm ▸ hover)).bind fun a s' h => hf a s' (h.trans hs)

/-- A step made of steps that leave the scene leaves it. -/
theorem restores_of_walks {P : Scene → Prop} {x y : Compiler α} [h : Walks (Unmoved P) x y]
    (hs : P s.scene) (hover : base.Over s.scene) :
    Restores base (x s) (y s) fun _ s' => s'.scene = s.scene := (h.walks s hs).rebase hover

/-- Any scene. -/
abbrev Scene.Any : Scene → Prop := fun _ => True

/-- A step that leaves every scene as it is. -/
theorem restores_of_walksOn {x : Compiler α} [WalksOn (Unmoved Scene.Any) x]
    (hover : base.Over s.scene) :
    Restores base (x s) (x s) fun _ s' => s'.scene = s.scene :=
  restores_of_walks (P := Scene.Any) trivial hover

/-! ### Scopes and names -/

/-- A scope that begins is within the scene. -/
theorem restores_beginScope :
    Restores base (beginScope s) (beginScope s) fun _ s' => s'.scene = s.scene.inside := .ok rfl

/-- A scope that ends leaves the scene around it. -/
theorem restores_endScope (hover : base.Over s.scene) :
    Restores base (endScope s) (endScope s) fun _ s' => s'.scene = s.scene.leave := by
  refine Restores.bind (Q := fun _ s₁ => s₁ = { s with
    draft := { s.draft with scopeDepth := s.draft.scopeDepth - 1 } }) (.ok rfl) fun _ s₁ h₁ => ?_
  subst h₁
  refine Restores.bind (Q := fun left s₂ => s₂ = { s with
      draft := { s.draft with scopeDepth := s.draft.scopeDepth - 1 } } ∧
    left = Local.leave (s.draft.scopeDepth - 1) s.draft.locals) (.ok ⟨rfl, rfl⟩)
    fun left s₂ h₂ => ?_
  obtain ⟨hs₂, hleft⟩ := h₂
  obtain ⟨code, kept⟩ := left
  have hscene : s₂.scene = { s.scene with current := { s.scene.current with
      scopeDepth := s.draft.scopeDepth - 1 } } := by rw [hs₂]; rfl
  have hkept : kept.map Local.facts = (s.draft.locals.map Local.facts).dropWhile
      fun b => b.depth.any (s.draft.scopeDepth - 1 < ·) := by
    rw [← Local.facts_leave, ← hleft]
  have hcode : Restores base (emitAll code s₂) (emitAll code s₂) fun _ s₃ => s₃.scene = s₂.scene :=
    restores_of_walksOn (hscene ▸ hover.rescope _)
  refine hcode.bind fun _ s₃ h₃ => .ok ?_
  calc State.scene _ = { s₃.scene with current := { s₃.scene.current with
        locals := kept.map Local.facts } } := rfl
    _ = s.scene.leave := by
      rw [h₃, hscene, hkept]
      rfl

/-- A local without a value is put on top. -/
theorem restores_addLocal {name : String} {span : Source.Span} (hover : base.Over s.scene) :
    Restores base (addLocal name span s) (addLocal name span s) fun _ s' =>
      s'.scene = s.scene.gain [⟨name, span, none⟩] := by
  rw [addLocal_eq]
  split
  · exact ⟨rfl, hover⟩
  · exact .ok rfl

/-- A declared name is a new local without its value, or an error. -/
theorem restores_declareVariable {name : String} (hover : base.Over s.scene) :
    Restores base (declareVariable name s) (declareVariable name s) fun _ s' =>
      s'.scene = s.scene.declare ⟨name, s.previousSpan, none⟩ := by
  rw [declareVariable_eq, Scene.declare]
  split
  · next hinside =>
    rw [if_pos (show 0 < s.scene.current.scopeDepth from hinside)]
    split
    · exact ⟨rfl, hover⟩
    · exact restores_addLocal hover
  · next houtside =>
    rw [if_neg (show ¬ 0 < s.scene.current.scopeDepth from houtside)]
    exact .ok rfl

/-- The state in which the name that is next in `s` is declared, at a depth if it has its value. -/
def State.Introduces (s : State) (depth : Option Nat) (name : String) (s' : State) : Prop :=
  ∃ span line, s.lexeme? = some ⟨.name name, span, line⟩ ∧
    s'.scene = s.scene.declare ⟨name, span, depth⟩

/-- A name is read, something is done that moves nothing, and the name is declared. -/
theorem restores_declared {what : Expectation} {x : String → Compiler α} {f : String → α → β}
    (hx : ∀ name, Keeping (x name)) [hunmoved : ∀ name, WalksOn (Unmoved Scene.Any) (x name)]
    (hover : base.Over s.scene) : Restores base
      ((do
        let name ← expectName what
        let a ← x name
        declareVariable name
        return f name a : Compiler β) s)
      ((do
        let name ← expectName what
        let a ← x name
        declareVariable name
        return f name a : Compiler β) s)
      fun b s' => ∃ name a, b = f name a ∧ s.Introduces none name s' := by
  refine Restores.bind (Q := fun name s₁ => ∃ span line,
    s.lexeme? = some ⟨.name name, span, line⟩ ∧ s₁ = { s with pos := s.pos + 1 }) ?_
    fun name s₁ h₁ => ?_
  · rcases expectName_cases what s with ⟨name, span, line, ht, hdone⟩ | hstop
    · rw [hdone]
      exact .ok ⟨span, line, ht, rfl⟩
    · rw [hstop]
      exact ⟨rfl, hover⟩
  obtain ⟨span, line, ht, rfl⟩ := h₁
  -- what is done in between leaves the name the token read last
  have hkept : Restores base (x name { s with pos := s.pos + 1 })
      (x name { s with pos := s.pos + 1 })
      fun _ s₂ => s₂.scene = s.scene ∧ s₂.previousSpan = span := by
    refine ⟨rfl, ?_⟩
    obtain ⟨-, hscene⟩ : Restores base (x name { s with pos := s.pos + 1 })
        (x name { s with pos := s.pos + 1 }) fun _ s₂ => s₂.scene = s.scene :=
      restores_of_walksOn hover
    match hr : x name { s with pos := s.pos + 1 } with
    | .ok a s₂ =>
      rw [hr] at hscene
      have hstays := (hx name).ok _ _ _ hr
      refine ⟨hscene, ?_⟩
      have hlast : s₂.tokens[s₂.pos - 1]? = some ⟨.name name, span, line⟩ := by
        rw [hstays.tokens, hstays.pos]
        exact ht
      have hpos : s₂.pos ≠ 0 := by simp [hstays.pos]
      rw [State.previousSpan, State.previous?, if_neg hpos, hlast]
    | .error (.problem e) s₂ =>
      rw [hr] at hscene
      exact hscene
    | .error (.fault _) s₂ => trivial
  refine hkept.bind fun a s₂ h₂ => ?_
  refine (restores_declareVariable (h₂.1 ▸ hover)).bind fun _ s₃ h₃ => ?_
  refine .ok ⟨name, a, rfl, span, line, ht, ?_⟩
  rw [h₃, h₂.1, h₂.2]

/-- The name declared is the one read. -/
theorem restores_declaredName {what : Expectation} (hover : base.Over s.scene) :
    Restores base (declaredName what s) (declaredName what s) (s.Introduces none) :=
  (restores_declared (x := fun _ => pure ()) (f := fun name _ => name)
    (fun _ => keeping_pure ()) hover).imp fun name s' h => by
      obtain ⟨_, _, rfl, h⟩ := h
      exact h

/-- The name of a class is declared as one read. -/
theorem restores_declaredClass (hover : base.Over s.scene) :
    Restores base (declaredClass s) (declaredClass s) fun head => s.Introduces none head.1 :=
  (restores_declared (f := fun name constant => (name, constant)) keeping_nameConstant hover).imp
    fun head s' h => by
      obtain ⟨_, _, rfl, h⟩ := h
      exact h

/-- A name that is read and declared has its place. -/
theorem restores_declareName {what : Expectation} (hover : base.Over s.scene) :
    Restores base (declareName what s) (declareName what s)
      fun head => s.Introduces none head.1 := by
  rw [declareName_eq]
  refine (restores_declaredName hover).bind fun name s₁ h₁ => ?_
  have hover₁ : base.Over s₁.scene := by
    obtain ⟨span, line, -, hscene⟩ := h₁
    exact hscene ▸ hover.declare _
  refine Restores.bind (Q := fun _ s₂ => s₂ = s₁) (.ok rfl) fun depth s₂ h₂ => ?_
  subst h₂
  split
  · exact .ok h₁
  · refine (restores_of_walksOn (x := nameConstant name) hover₁).bind fun constant s₃ h₃ => .ok ?_
    obtain ⟨span, line, ht, hscene⟩ := h₁
    exact ⟨span, line, ht, h₃.trans hscene⟩

/-- The local declared last gets its value. -/
theorem restores_defineVariable {global : UInt16} (hover : base.Over s.scene) :
    Restores base (defineVariable global s) (defineVariable global s) fun _ s' =>
      s'.scene = s.initialized.scene := by
  refine Restores.bind (Q := fun depth s₁ => depth = s.draft.scopeDepth ∧ s₁ = s) (.ok ⟨rfl, rfl⟩)
    fun depth s₁ h₁ => ?_
  obtain ⟨rfl, rfl⟩ := h₁
  split
  · exact .ok rfl
  · next houtside =>
    refine (restores_of_walksOn (x := emit _) hover).imp fun _ s' h => ?_
    rw [h, State.initialized, markInitialized_zero (by omega)]

/-- A name that was introduced gets its value in the scope it was introduced in. -/
theorem State.Introduces.initialized {s₁ s₂ : State} {name : String} {depth : Option Nat}
    (h : s.Introduces depth name s₁) (hsame : s₂.scene = s₁.scene)
    (hdone : s'.scene = s₂.initialized.scene) :
    s.Introduces (some s.draft.scopeDepth) name s' := by
  obtain ⟨span, line, ht, hscene⟩ := h
  exact ⟨span, line, ht, hdone.trans (State.scene_initialized (hsame.trans hscene))⟩

/-- A state with a name introduced has the scene before below. -/
theorem State.Introduces.over {name : String} {depth : Option Nat} (h : s.Introduces depth name s')
    (hover : base.Over s.scene) : base.Over s'.scene := by
  obtain ⟨span, line, -, hscene⟩ := h
  exact hscene ▸ hover.declare _

/-- A name with its value is a local of the current scope, or none. -/
theorem State.Introduces.grows {name : String}
    (h : s.Introduces (some s.draft.scopeDepth) name s') : s.scene.Grows s'.scene := by
  obtain ⟨span, line, -, hscene⟩ := h
  rw [hscene, Scene.declare]
  split
  · exact ⟨_, rfl, fun b hb => by rw [List.mem_singleton.mp hb]; rfl⟩
  · exact .refl _

/-- A name without a value does not matter to what can be read. -/
theorem State.Introduces.fit {name : String} (h : s.Introduces none name s')
    (hfit : s.scene.Fit tokens spare) : s'.scene.Fit tokens spare := by
  obtain ⟨span, line, -, hscene⟩ := h
  rw [hscene, Scene.declare]
  split
  · refine hfit.gain fun b hb k hk => ?_
    rw [List.mem_singleton.mp hb] at hk
    cases hk
  · exact hfit

/-! ### Forms that add locals -/

/-- Two steps that do the same in fit scenes, and do no more to the scene than to add locals of the
current scope. -/
def Gains (tokens : Array Lexeme) (spare : Nat) (x y : Compiler α) : Prop :=
  ∀ s, s.scene.Fit tokens spare → Restores s.scene (x s) (y s) fun _ s' => s.scene.Grows s'.scene

/-- What adds locals in scenes with less to spare does so in those with more. -/
theorem Gains.mono {x y : Compiler α} (h : Gains tokens spare x y) : Gains tokens (spare + 1) x y :=
  fun s hfit => h s hfit.mono

/-- What leaves the scene adds no local. -/
theorem gains_of_walks {x y : Compiler α} [h : Walks (Unmoved (Scene.Fit tokens spare)) x y] :
    Gains tokens spare x y :=
  fun s hfit => (h.walks s hfit).imp fun _ _ h => h ▸ .refl _

/-- Steps that add locals do so one after the other. -/
theorem Gains.bind {x y : Compiler α} {f g : α → Compiler β} (hx : Gains tokens spare x y)
    (hf : ∀ a, Gains tokens spare (f a) (g a)) : Gains tokens spare (x >>= f) (y >>= g) :=
  fun s hfit => (hx s hfit).bind fun a s₁ h₁ =>
    ((hf a s₁ (hfit.grows h₁)).imp fun _ _ h => h₁.trans h).rebase h₁.over

/-- Parameters are locals of the function's scope, by induction on how many may follow. -/
theorem gains_parameters (n : Nat) : Gains tokens spare (parameters n) (parameters n) := by
  induction n with
  | zero => exact fun s _ => ⟨rfl, .refl _⟩
  | succ n ih =>
    have hone : Gains tokens spare (do
        let head ← declareName .parameterName
        defineVariable head.2) (do
        let head ← declareName .parameterName
        defineVariable head.2) := fun s hfit =>
      (restores_declareName (.refl _)).bind fun head s₁ h₁ =>
        (restores_defineVariable (h₁.over (.refl _))).imp
          fun _ s₂ h₂ => (h₁.initialized rfl h₂).grows
    have hrest : Gains tokens spare (do
        if ← accept .comma then return (← parameters n) + 1 else return 1) (do
        if ← accept .comma then return (← parameters n) + 1 else return 1) :=
      gains_of_walks.bind fun more => by
        cases more with
        | false => exact gains_of_walks (x := pure 1) (y := pure 1)
        | true => exact ih.bind fun _ => gains_of_walks
    have hsplit : parameters (n + 1) = (do
        let head ← declareName .parameterName
        defineVariable head.2) >>= fun _ => (do
        if ← accept .comma then return (← parameters n) + 1 else return 1) := by
      rw [parameters]
      simp only [bind_assoc]
    rw [hsplit]
    exact hone.bind fun _ => hrest

/-- Two parsers for what is nested that do the same in fit scenes: statements and expressions leave
the scene as it is, declarations may add a local. -/
class Watches (tokens : Array Lexeme) (spare : Nat) (inner inner' : Parsers) : Prop
    extends inner.Strides (Unmoved (Scene.Fit tokens spare)) inner' where
  declaration : Gains tokens spare inner.declaration inner'.declaration

/-- With spare for one more level the parsers for what is nested do what they should too. -/
instance {inner inner' : Parsers} [h : Watches tokens spare inner inner'] :
    inner.Strides (Unmoved (Scene.Fit tokens (spare + 1))) inner' where
  statement := ⟨h.statement.walks.mono⟩
  expression p := ⟨(h.expression p).walks.mono⟩

/-- A form one level deeper restores what it restores, and the level. -/
theorem restores_nested {x y : Compiler α} {Q : α → State → Prop}
    (h : s.nesting < maxNesting → Restores s.deeper.scene (x s.deeper) (y s.deeper) Q) :
    Restores s.scene (nested x s) (nested y s) fun a s' => ∃ s₁, Q a s₁ ∧ s' = s₁.shallower := by
  rcases Nat.lt_or_ge s.nesting maxNesting with hlt | hfull
  · obtain ⟨heq, hpost⟩ := h hlt
    match hr : x s.deeper with
    | .ok a s₁ =>
      rw [hr] at heq hpost
      rw [nested_ok hlt hr, nested_ok hlt heq]
      exact .ok ⟨s₁, hpost, rfl⟩
    | .error (.problem e) s₁ =>
      rw [hr] at heq hpost
      rw [nested_error hlt hr, nested_error hlt heq]
      exact ⟨rfl, Scene.Over.shallower hpost⟩
    | .error (.fault f) s₁ =>
      rw [hr] at heq
      rw [nested_error hlt hr, nested_error hlt heq]
      exact ⟨rfl, trivial⟩
  · rw [nested_full hfull, nested_full hfull]
    exact ⟨rfl, .refl _⟩

/-- What leaves the scene as it is one level deeper leaves it on the level around. -/
theorem Unmoved.nested {x y : Compiler α} (h : Unmoved (Scene.Fit tokens (spare + 1)) α x y) :
    Unmoved (Scene.Fit tokens spare) α (nested x) (nested y) := fun s hfit =>
  (restores_nested fun hlt => h s.deeper (hfit.deeper hlt)).imp fun _ s' hs' => by
    obtain ⟨s₁, hscene, rfl⟩ := hs'
    calc s₁.shallower.scene = { s₁.scene with nesting := s₁.scene.nesting - 1 } := rfl
      _ = s.scene := by
        rw [hscene]
        rfl

section Blocks

variable {inner inner' : Parsers} [hinner : Watches tokens spare inner inner']

/-- Declarations add their locals, by induction on how many may follow. -/
theorem gains_declarations (fuel : Nat) :
    Gains tokens spare (declarations inner fuel) (declarations inner' fuel) := by
  induction fuel with
  | zero => exact gains_of_walks (x := pure ()) (y := pure ())
  | succ fuel ih =>
    refine gains_of_walks.bind fun done => ?_
    cases done with
    | true => exact gains_of_walks (x := pure ()) (y := pure ())
    | false => exact hinner.declaration.bind fun _ => ih

/-- What is declared in a block is a local of its scope. -/
theorem gains_block : Gains tokens spare (block inner) (block inner') :=
  gains_of_walks.bind fun left => (gains_declarations left).bind fun _ => gains_of_walks

/-- What is declared in the body of a function is a local of its scope. -/
theorem gains_bodyOf : Gains tokens spare (bodyOf inner) (bodyOf inner') := by
  have hparameters : Gains tokens spare (do
      if !(← check .rightParen) then
        let arity ← parameters 255
        modifyDraft fun d => { d with arity := arity.toUInt8 } : Compiler Unit) (do
      if !(← check .rightParen) then
        let arity ← parameters 255
        modifyDraft fun d => { d with arity := arity.toUInt8 } : Compiler Unit) := by
    refine gains_of_walks.bind fun none_ => ?_
    cases none_ with
    | true => exact gains_of_walks (x := pure ()) (y := pure ())
    | false =>
      refine (gains_parameters 255).bind fun arity => ?_
      have harity : WalksOn (Unmoved (Scene.Fit tokens spare))
          (modifyDraft fun d => { d with arity := arity.toUInt8 }) :=
        walksOn_modifyDraft fun _ => ⟨rfl, rfl, rfl, rfl⟩
      exact gains_of_walks
  rw [bodyOf_eq, bodyOf_eq]
  exact gains_of_walks.bind fun _ => hparameters.bind fun _ =>
    Gains.bind (gains_of_walks.bind fun _ => gains_of_walks.bind fun _ => gains_block) fun _ =>
      gains_of_walks

/-- The locals of a scope are gone behind it. -/
theorem restores_scope {x y : Compiler Unit} (hx : Gains tokens spare x y)
    (hfit : s.scene.Fit tokens spare) :
    Restores s.scene ((do beginScope; x; endScope : Compiler Unit) s)
      ((do beginScope; y; endScope : Compiler Unit) s) fun _ s' => s'.scene = s.scene := by
  refine restores_beginScope.bind fun _ s₁ h₁ => ?_
  have hover : s.scene.Over s₁.scene := h₁ ▸ (Scene.Over.refl s.scene).inside
  refine ((hx s₁ (h₁ ▸ hfit.inside)).rebase hover).bind fun _ s₂ h₂ => ?_
  refine (restores_endScope (hover.trans h₂.over)).imp fun _ s₃ h₃ => ?_
  obtain ⟨new, hnew, hdepth⟩ := h₂
  rw [h₃, hnew, h₁]
  refine Scene.leave_gain (fun b hb => ?_) hfit.depths
  rw [hdepth b hb, h₁]
  rfl

end Blocks

/-! ### Functions -/

/-- A finished function leaves the scene around it. -/
theorem restores_finishFunction : Restores base (finishFunction s) (finishFunction s) fun _ s' =>
    s'.scene = s.scene.popped := by
  refine ⟨rfl, ?_⟩
  match hr : finishFunction s with
  | .ok made s' =>
    unfold finishFunction at hr
    dsimp only at hr
    repeat' split at hr
    · cases hr
    · cases hr
    · next henclosing =>
      cases hr
      have hnil : s.enclosing = [] := henclosing
      simp only [State.scene, Scene.popped, hnil, List.map_nil]
    · next henclosing =>
      cases hr
      have hcons : s.enclosing = _ :: _ := henclosing
      simp only [State.scene, Scene.popped, hcons, List.map_cons]
  | .error (.problem e) s' =>
    unfold finishFunction at hr
    dsimp only at hr
    repeat' split at hr
    all_goals cases hr
  | .error (.fault _) s' => trivial

section Functions

variable {watch : Moment → Compiler Unit} {inner inner' : Parsers}
  [Watches tokens spare inner inner']

/-- A function is a matter of its own: the scene behind it is the one before. A watch has to do
nothing where there are no more functions than levels. -/
theorem unmoved_watchedFunction {kind : FunctionKind} {name : String}
    (hwatch : ∀ s : State, s.depth ≤ maxNesting + 1 → watch .function s = .ok () s) :
    Unmoved (Scene.Fit tokens (spare + 1)) Unit (watchedFunction unwatched inner kind name)
      (watchedFunction watch inner' kind name) := by
  intro s hfit
  refine (restores_of_walksOn (x := intern name) (.refl _)).bind fun r s₁ h₁ => ?_
  refine Restores.bind (Q := fun _ s₂ => s₂.scene = s.scene.enter kind r) (.ok ?_) fun _ s₂ h₂ => ?_
  · rw [← h₁]
    rfl
  have hentered := hfit.enter kind r
  have hlevels : s₂.depth ≤ maxNesting + 1 := by
    have hlength : s₂.scene.functions.length = s₂.depth := by
      simp [Scene.functions, State.scene, State.depth]
    rw [← hlength, h₂]
    exact hentered.few
  refine Restores.bind (Q := fun _ s₃ => s₃ = s₂) ⟨hwatch s₂ hlevels, rfl⟩ fun _ s₃ h₃ => ?_
  subst h₃
  refine restores_beginScope.bind fun _ s₄ h₄ => ?_
  rw [h₂] at h₄
  have hover : s.scene.Over s₄.scene := h₄ ▸ ((Scene.Over.refl s.scene).enter kind r).inside
  refine ((gains_bodyOf s₄ (h₄ ▸ hentered)).rebase hover).bind fun _ s₅ h₅ => ?_
  refine restores_finishFunction.bind fun made s₆ h₆ => ?_
  have hback : s₆.scene = s.scene := by
    obtain ⟨new, hnew, -⟩ := h₅
    rw [h₆, hnew, h₄]
    rfl
  refine (restores_of_walksOn (x := makeConstant _) (.of_eq hback)).bind fun constant s₇ h₇ => ?_
  refine (restores_of_walksOn (x := emitClosure _ _) (.of_eq (h₇.trans hback))).imp
    fun _ s₈ h₈ => ?_
  exact h₈.trans (h₇.trans hback)

end Functions

/-! ### Declarations -/

section Declarations

variable {inner inner' : Parsers} [inner.Strides (Unmoved (Scene.Fit tokens spare)) inner']
  {rest rest' : FunctionKind → String → Compiler Unit}
  [hrest : ∀ kind name, Walks (Unmoved (Scene.Fit tokens spare)) (rest kind name) (rest' kind name)]

omit [inner.Strides (Unmoved (Scene.Fit tokens spare)) inner'] in
/-- A function has its name before its body is read. -/
theorem restores_functionDeclaration (hfit : s.scene.Fit tokens spare) :
    Restores s.scene (functionDeclarationOver rest s) (functionDeclarationOver rest' s)
      fun _ s' => ∃ name, s.Introduces (some s.draft.scopeDepth) name s' := by
  refine (restores_declareName (.refl _)).bind fun head s₁ h₁ => ?_
  refine Restores.bind (Q := fun _ s₂ => s₂ = s₁.initialized) (.ok rfl) fun _ s₂ h₂ => ?_
  have hnamed : s.Introduces (some s.draft.scopeDepth) head.1 s₂ := h₁.initialized rfl (h₂ ▸ rfl)
  refine restores_then rfl (hfit.grows hnamed.grows) hnamed.grows.over fun _ s₃ h₃ => ?_
  refine (restores_defineVariable (h₃ ▸ hnamed.grows.over)).imp fun _ s' h => ?_
  exact ⟨head.1, hnamed.initialized h₃ h⟩

omit hrest in
/-- A variable has its name after its value is read. -/
theorem restores_letDeclaration (hfit : s.scene.Fit tokens spare) :
    Restores s.scene (letDeclaration inner s) (letDeclaration inner' s)
      fun _ s' => ∃ name, s.Introduces (some s.draft.scopeDepth) name s' := by
  refine (restores_declareName (.refl _)).bind fun head s₁ h₁ => ?_
  have hfit₁ := h₁.fit hfit
  have hover := h₁.over (.refl _)
  have hend (t : State) (ht : t.scene = s₁.scene) : Restores s.scene
      ((expect .semicolon .declarationEnd >>= fun _ => defineVariable head.2) t)
      ((expect .semicolon .declarationEnd >>= fun _ => defineVariable head.2) t)
      fun _ s' => ∃ name, s.Introduces (some s.draft.scopeDepth) name s' := by
    refine restores_then ht hfit₁ hover fun _ s₂ h₂ => ?_
    refine (restores_defineVariable (h₂ ▸ hover)).imp fun _ s' h => ?_
    exact ⟨head.1, h₁.initialized h₂ h⟩
  refine restores_then rfl hfit₁ hover fun hit s₂ h₂ => ?_
  dsimp only
  split
  · exact restores_then h₂ hfit₁ hover fun _ t ht => hend t ht
  · exact restores_then h₂ hfit₁ hover fun _ t ht => hend t ht

end Declarations

/-! ### Classes -/

/-- The scene in a class, with the local `super` in a scope of its own if there is a superclass. -/
def Scene.inClass (hasSuperclass : Bool) (c : Scene) : Scene :=
  if hasSuperclass then
    { c.inside.gain [⟨"super", Source.Span.none, some (c.current.scopeDepth + 1)⟩] with
      classes := true :: c.classes }
  else { c with classes := false :: c.classes }

/-- The scene in a class fits. -/
theorem Scene.Fit.inClass (h : c.Fit tokens spare) (hasSuperclass : Bool) :
    (c.inClass hasSuperclass).Fit tokens spare := by
  cases hasSuperclass with
  | true =>
    refine Fit.reclass (h.inside.gain fun b hb k hk => ?_) _
    rw [List.mem_singleton.mp hb, Option.some.injEq] at hk
    exact Nat.le_of_eq hk.symm
  | false => exact h.reclass _

/-- The scene in a class has the one around below. -/
theorem Scene.Over.inClass (h : base.Over c) (hasSuperclass : Bool) :
    base.Over (c.inClass hasSuperclass) := by
  cases hasSuperclass with
  | true => exact (h.inside.gain _).reclass (h.classes.trans (List.suffix_cons _ _))
  | false => exact h.reclass (h.classes.trans (List.suffix_cons _ _))

/-- In a class the innermost entry says whether it has a superclass. -/
theorem Scene.classes_inClass (hasSuperclass : Bool) (c : Scene) :
    (c.inClass hasSuperclass).classes = hasSuperclass :: c.classes := by
  cases hasSuperclass <;> rfl

section Classes

variable {inner inner' : Parsers} [inner.Strides (Unmoved (Scene.Fit tokens spare)) inner']
  {rest rest' : FunctionKind → String → Compiler Unit}
  [hrest : ∀ kind name, Walks (Unmoved (Scene.Fit tokens spare)) (rest kind name) (rest' kind name)]

omit [inner.Strides (Unmoved (Scene.Fit tokens spare)) inner'] in
instance : Walks (Unmoved (Scene.Fit tokens spare)) (methodOver rest) (methodOver rest') := by
  unfold methodOver
  infer_instance

omit [inner.Strides (Unmoved (Scene.Fit tokens spare)) inner'] in
instance {fuel : Nat} :
    Walks (Unmoved (Scene.Fit tokens spare)) (methodsOver rest fuel) (methodsOver rest' fuel) := by
  induction fuel with
  | zero => exact inferInstanceAs (WalksOn (Unmoved (Scene.Fit tokens spare)) (pure ()))
  | succ fuel ih =>
    unfold methodsOver
    infer_instance

omit hrest in
/-- The superclass of a class is read in the scene of a class without one. -/
theorem restores_superclass {className : String} (hfit : c.Fit tokens spare) (hover : base.Over c)
    (hs : s.scene = c.inClass false) :
    Restores base (superclass inner className s) (superclass inner' className s)
      fun _ s' => s'.scene = c.inClass true := by
  have hfit₀ := hfit.inClass false
  have hover₀ := hover.inClass false
  refine restores_then hs hfit₀ hover₀ fun name s₁ h₁ => ?_
  refine restores_then h₁ hfit₀ hover₀ fun _ s₂ h₂ => ?_
  dsimp only
  split
  · exact ⟨rfl, show base.Over s₂.scene from h₂ ▸ hover₀⟩
  refine restores_beginScope.bind fun _ s₃ h₃ => ?_
  rw [h₂] at h₃
  refine (restores_addLocal (h₃ ▸ hover₀.inside)).bind fun _ s₄ h₄ => ?_
  have hdeclared : s₄.scene = s₃.scene.declare ⟨"super", Source.Span.none, none⟩ := by
    rw [h₄, Scene.declare, if_pos]
    rw [h₃]
    exact Nat.succ_pos _
  have hover₄ : base.Over s₄.scene := h₄ ▸ (h₃ ▸ hover₀.inside).gain _
  refine (restores_defineVariable hover₄).bind fun _ s₅ h₅ => ?_
  have hinside : s₅.scene = { c.inClass true with classes := false :: c.classes } := by
    rw [h₅, State.scene_initialized hdeclared, Scene.declare, if_pos (h₃ ▸ Nat.succ_pos _), h₃]
    rfl
  have hfit₅ : Scene.Fit tokens spare { c.inClass true with classes := false :: c.classes } :=
    (hfit.inClass true).reclass _
  have hover₅ : base.Over { c.inClass true with classes := false :: c.classes } :=
    (hover.inClass true).reclass (hover.classes.trans (List.suffix_cons _ _))
  refine restores_then hinside hfit₅ hover₅ fun _ s₆ h₆ => ?_
  refine restores_then h₆ hfit₅ hover₅ fun _ s₇ h₇ => .ok ?_
  calc State.scene _ = { s₇.scene with classes := true :: s₇.scene.classes.tail } := rfl
    _ = c.inClass true := by
      rw [h₇]
      rfl

/-- The members of a class are read in its scene, which is gone behind it. -/
theorem restores_classMembers {className : String} {hasSuperclass : Bool} (hfit : c.Fit tokens spare)
    (hover : base.Over c) (hs : s.scene = c.inClass hasSuperclass) :
    Restores base (classMembersOver inner rest className s)
      (classMembersOver inner' rest' className s) fun _ s' => s'.scene = c := by
  have hfit₀ := hfit.inClass hasSuperclass
  have hover₀ := hover.inClass hasSuperclass
  refine restores_then hs hfit₀ hover₀ fun _ s₁ h₁ => ?_
  refine restores_then h₁ hfit₀ hover₀ fun _ s₂ h₂ => ?_
  refine restores_then h₂ hfit₀ hover₀ fun left s₃ h₃ => ?_
  refine restores_then h₃ hfit₀ hover₀ fun _ s₄ h₄ => ?_
  refine restores_then h₄ hfit₀ hover₀ fun _ s₅ h₅ => ?_
  refine restores_then h₅ hfit₀ hover₀ fun _ s₆ h₆ => ?_
  refine Restores.bind (Q := fun found s₇ => found = hasSuperclass ∧ s₇ = s₆) (.ok ⟨?_, rfl⟩)
    fun found s₇ h₇ => ?_
  · have hclasses : s₆.classes = hasSuperclass :: c.classes :=
      (congrArg Scene.classes h₆).trans (c.classes_inClass hasSuperclass)
    show s₆.classes.head?.getD false = hasSuperclass
    rw [hclasses]
    rfl
  obtain ⟨rfl, rfl⟩ := h₇
  refine Restores.bind (Q := fun _ s₈ => s₈.scene = { c.inClass found with classes := c.classes })
    (.ok ?_) fun _ s₈ h₈ => ?_
  · calc State.scene _ = { s₇.scene with classes := s₇.scene.classes.tail } := rfl
      _ = { c.inClass found with classes := c.classes } := by
        rw [h₆, Scene.classes_inClass]
        rfl
  cases found with
  | true =>
    have hover₈ : base.Over s₈.scene := h₈ ▸ (hover.inClass true).reclass hover.classes
    refine (restores_endScope hover₈).imp fun _ s' h => ?_
    rw [h, h₈]
    exact Scene.leave_gain (fun b hb => by rw [List.mem_singleton.mp hb]) hfit.depths
  | false => exact .ok h₈

/-- A class has its name before its superclass and its methods are read. -/
theorem restores_classAfterName {s₁ : State} {name : String} {constant : UInt16}
    (hfit : s.scene.Fit tokens spare) (h : s.Introduces none name s₁) :
    Restores s.scene (classAfterNameOver inner rest name constant s₁)
      (classAfterNameOver inner' rest' name constant s₁)
      (fun _ s' => s.Introduces (some s.draft.scopeDepth) name s') := by
  refine restores_then rfl (h.fit hfit) (h.over (.refl _)) fun _ s₂ h₂ => ?_
  refine (restores_defineVariable (h₂ ▸ h.over (.refl _))).bind fun _ s₃ h₃ => ?_
  have hnamed := h.initialized h₂ h₃
  have hfit₃ := hfit.grows hnamed.grows
  have hover₃ := hnamed.grows.over
  have hend (t : State) (ht : t.scene = s₃.scene) :
      s.Introduces (some s.draft.scopeDepth) name t := by
    obtain ⟨span, line, hnext, hscene⟩ := hnamed
    exact ⟨span, line, hnext, ht.trans hscene⟩
  refine Restores.bind (Q := fun _ s₄ => s₄.scene = s₃.scene.inClass false) (.ok rfl)
    fun _ s₄ h₄ => ?_
  refine restores_then h₄ (hfit₃.inClass false) (hover₃.inClass false) fun hit s₅ h₅ => ?_
  dsimp only
  split
  · refine (restores_superclass hfit₃ hover₃ h₅).bind fun _ s₆ h₆ => ?_
    exact (restores_classMembers hfit₃ hover₃ h₆).imp fun _ s' h' => hend s' h'
  · exact (restores_classMembers hfit₃ hover₃ h₅).imp fun _ s' h' => hend s' h'

end Classes

/-! ### Statements -/

section Statements

variable {inner inner' : Parsers} [hinner : Watches tokens spare inner inner']

instance : Walks (Unmoved (Scene.Fit tokens (spare + 1))) (blockStatement inner)
    (blockStatement inner') := ⟨fun _ hfit => restores_scope gains_block.mono hfit⟩

/-- The first clause of a counting loop may declare a variable of the loop. -/
theorem gains_forStart : Gains tokens (spare + 1) (forStart inner) (forStart inner') := by
  refine gains_of_walks.bind fun empty => ?_
  cases empty with
  | true => exact gains_of_walks (x := pure ()) (y := pure ())
  | false =>
    refine gains_of_walks.bind fun declares => ?_
    cases declares with
    | true =>
      exact fun s hfit => (restores_letDeclaration hfit).imp fun _ _ h => h.choose_spec.grows
    | false =>
      exact gains_of_walks (x := expressionStatement inner) (y := expressionStatement inner')

instance : Walks (Unmoved (Scene.Fit tokens (spare + 1))) (countingLoop inner)
    (countingLoop inner') := by
  unfold countingLoop
  repeat with_reducible refine @Walks.bind _ _ _ _ _ _ _ _ inferInstance fun _ => ?_
  split <;> infer_instance

instance : Walks (Unmoved (Scene.Fit tokens (spare + 1))) (forStatement inner)
    (forStatement inner') := by
  rw [forStatement_eq, forStatement_eq]
  exact ⟨fun _ hfit => restores_scope (gains_of_walks.bind fun _ => gains_forStart.bind fun _ =>
    gains_of_walks) hfit⟩

instance : Walks (Unmoved (Scene.Fit tokens (spare + 1))) (statementBody inner)
    (statementBody inner') := by
  have htake : WalksOn (Unmoved (Scene.Fit tokens (spare + 1)))
      (take statementStart Option.isSome) := ⟨Stride.take _ _ rfl⟩
  rw [statementBody_eq, statementBody_eq]
  refine @Walks.bind _ _ _ _ _ _ _ _ htake fun start => ?_
  unfold statementRest
  split <;> infer_instance

end Statements

/-! ### Bodies of declarations -/

/-- The tokens that start a declaration of a name. -/
def startsDeclaration : Token → Bool
  | .keyword .class_ | .keyword .def_ | .keyword .let_ => true
  | _ => false

/-- The scene behind a declaration that succeeded: where one of a name starts in a block or a
function, the name after its word is a new local with its value, elsewhere there is none. -/
def State.Declared (s : State) (c : Scene) : Prop :=
  if s.peek?.any startsDeclaration ∧ 0 < s.draft.scopeDepth then
    ∃ name span line, s.tokens[s.pos + 1]? = some ⟨.name name, span, line⟩ ∧
      c = s.scene.gain [⟨name, span, some s.draft.scopeDepth⟩]
  else c = s.scene

/-- A declaration that succeeded has added at most a local of the scope. -/
theorem State.Declared.grows (h : s.Declared c) : s.scene.Grows c := by
  unfold Declared at h
  split at h
  · obtain ⟨name, span, line, -, rfl⟩ := h
    exact ⟨_, rfl, fun b hb => by rw [List.mem_singleton.mp hb]; rfl⟩
  · exact h ▸ .refl _

/-- What was declared one level deeper is declared when the level is left. -/
theorem State.Declared.shallower (h : s.deeper.Declared s'.scene) :
    s.Declared s'.shallower.scene := by
  have hscene : s'.shallower.scene = { s'.scene with nesting := s'.scene.nesting - 1 } := rfl
  unfold Declared at h ⊢
  split at h
  · next hinside =>
    obtain ⟨name, span, line, hnext, hgain⟩ := h
    rw [if_pos (show s.peek?.any startsDeclaration ∧ 0 < s.draft.scopeDepth from hinside)]
    refine ⟨name, span, line, hnext, ?_⟩
    rw [hscene, hgain]
    rfl
  · next hnone =>
    rw [if_neg (show ¬ (s.peek?.any startsDeclaration ∧ 0 < s.draft.scopeDepth) from hnone),
      hscene, h]
    rfl

/-- The word that starts the declaration is gone past, and then the name is read. -/
theorem State.Introduces.declared {name : String} (hstart : s.peek?.any startsDeclaration = true)
    (h : State.Introduces { s with pos := s.pos + 1 } (some s.draft.scopeDepth) name s') :
    s.Declared s'.scene := by
  obtain ⟨span, line, hnext, hscene⟩ := h
  have hdeclare : s'.scene = s.scene.declare ⟨name, span, some s.draft.scopeDepth⟩ := hscene
  unfold Declared
  split
  · next h => exact ⟨name, span, line, hnext, hdeclare.trans (if_pos h.2)⟩
  · next h => exact hdeclare.trans (if_neg fun hinside => h ⟨hstart, hinside⟩)

/-- A reserved word is gone past or was not next. -/
theorem restores_acceptKeyword {keyword : Keyword} : Restores base (acceptKeyword keyword s)
    (acceptKeyword keyword s) fun hit s' =>
      (hit = true ∧ s.peek? = some (.keyword keyword) ∧ s' = { s with pos := s.pos + 1 }) ∨
      (hit = false ∧ s.peek? ≠ some (.keyword keyword) ∧ s' = s) := by
  have htake : acceptKeyword keyword s = take (fun t => t.any (·.isKeyword keyword)) id s := rfl
  rw [htake, take_eq]
  refine .ok ?_
  cases hhit : s.peek?.any (·.isKeyword keyword) with
  | true => exact .inl ⟨rfl, peek?_any_isKeyword.mp hhit, rfl⟩
  | false =>
    refine .inr ⟨rfl, fun hnext => ?_, rfl⟩
    rw [peek?_any_isKeyword.mpr hnext] at hhit
    cases hhit

/-- A declaration that succeeds adds the local it declares, if any. -/
theorem restores_declarationBody {watch : Moment → Compiler Unit} {inner inner' : Parsers}
    [Watches tokens spare inner inner']
    (hwatch : ∀ s : State, s.depth ≤ maxNesting + 1 → watch .function s = .ok () s)
    (hfit : s.scene.Fit tokens (spare + 1)) :
    Restores s.scene (declarationBodyOver inner (watchedFunction unwatched inner) s)
      (declarationBodyOver inner' (watchedFunction watch inner') s)
      fun _ s' => s.Declared s'.scene := by
  have hfunction (kind : FunctionKind) (name : String) : Walks
      (Unmoved (Scene.Fit tokens (spare + 1))) (watchedFunction unwatched inner kind name)
      (watchedFunction watch inner' kind name) := ⟨unmoved_watchedFunction hwatch⟩
  have hword {keyword : Keyword} (hnext : s.peek? = some (.keyword keyword))
      (hstarts : startsDeclaration (.keyword keyword) = true) :
      s.peek?.any startsDeclaration = true := by
    rw [hnext]
    exact hstarts
  refine restores_acceptKeyword.bind fun isClass s₁ h₁ => ?_
  rcases h₁ with ⟨rfl, hnext, rfl⟩ | ⟨rfl, hclass, rfl⟩
  · refine (restores_declaredClass (.refl _)).bind fun head s₂ h₂ => ?_
    exact (restores_classAfterName (s := { s with pos := s.pos + 1 }) hfit h₂).imp
      fun _ s' h => h.declared (hword hnext rfl)
  refine restores_acceptKeyword.bind fun isFunction s₂ h₂ => ?_
  rcases h₂ with ⟨rfl, hnext, rfl⟩ | ⟨rfl, hfunction, rfl⟩
  · exact (restores_functionDeclaration (s := { s₁ with pos := s₁.pos + 1 }) hfit).imp
      fun _ s' h => h.choose_spec.declared (hword hnext rfl)
  refine restores_acceptKeyword.bind fun isVariable s₃ h₃ => ?_
  rcases h₃ with ⟨rfl, hnext, rfl⟩ | ⟨rfl, hvariable, rfl⟩
  · exact (restores_letDeclaration (s := { s₂ with pos := s₂.pos + 1 }) hfit).imp
      fun _ s' h => h.choose_spec.declared (hword hnext rfl)
  have hstarts : s₃.peek?.any startsDeclaration = false := by
    cases hnext : s₃.peek? with
    | none => rfl
    | some t =>
      rw [hnext] at hclass hfunction hvariable
      cases t with
      | keyword k => cases k <;> first | rfl | contradiction
      | _ => rfl
  have hsame : s₃.Declared s₃.scene := by
    rw [State.Declared, hstarts, if_neg (by simp)]
  refine (restores_of_walks (x := inner.statement) (y := inner'.statement) hfit (.refl _)).imp
    fun _ s' h => ?_
  rw [h]
  exact hsame

end ScriptMachine.Compile
