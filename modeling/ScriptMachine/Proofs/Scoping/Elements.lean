import ScriptMachine.Proofs.Scoping.Emitting
import ScriptMachine.Proofs.Scoping.Programs
import ScriptMachine.Proofs.Syntax.Unique

/-!
# Where the expressions of a program are in its code

The code of a function holds the translations of the expressions of its body, one behind the other
in the order of the source, with what the statements add between them. The closures of the
functions inside stand among them, and each of those functions holds the expressions of its own
body. Taking the constants of an expression is all that its translation does to the constants of
the function, and the names that are visible where an expression stands can be read off the tree.
-/

namespace ScriptMachine

open Compile

/-! ### Elements -/

/-- What the code of a function is about, each with the names of the locals that are visible where
it stands, the latest one first: an expression, or a function inside. -/
inductive Element
  | expression (visible : List String) (e : Expr)
  | function (visible : List String) (kind : FunctionKind) (f : Function)

/-- The names that are visible after a declaration, inside a scope or outside of all. -/
def declaring (inside : Bool) (name : String) (visible : List String) : List String :=
  if inside then name :: visible else visible

/-- The names that are visible in a class: its methods find the superclass by name. -/
def Stmt.classVisible (visible : List String) : Option String → List String
  | none => visible
  | some _ => "super" :: visible

/-- The names that are visible where the body of a function starts. -/
def Function.visible (kind : FunctionKind) (params : List String) : List String :=
  params.reverse ++ [kind.slotZero]

/-- The expression that may stand somewhere. -/
def Expr.optionElements (visible : List String) : Option Expr → List Element
  | none => []
  | some e => [.expression visible e]

/-- The names that are visible behind a statement. -/
def Stmt.visible (inside : Bool) (visible : List String) : Stmt → List String
  | .let_ name _ | .class_ name _ _ => declaring inside name visible
  | .def_ f => declaring inside f.name visible
  | _ => visible

mutual

/-- What a statement is made of, in the order of the source. -/
@[simp] def Stmt.elements (inside : Bool) (visible : List String) : Stmt → List Element
  | .let_ _ init => Expr.optionElements visible init
  | .def_ f => [.function (declaring inside f.name visible) .function f]
  | .class_ name parent methods => methods.map fun f =>
    .function (Stmt.classVisible (declaring inside name visible) parent) (methodKind f.name) f
  | .print e | .expression e => [.expression visible e]
  | .return_ e => Expr.optionElements visible e
  | .if_ test body none => .expression visible test :: body.elements inside visible
  | .if_ test body (some otherwise) =>
    .expression visible test :: (body.elements inside visible ++ otherwise.elements inside visible)
  | .while_ test body => .expression visible test :: body.elements inside visible
  | .doWhile body test => body.elements inside visible ++ [.expression visible test]
  | .for_ none test step body =>
    Expr.optionElements visible test ++ (Expr.optionElements visible step ++
      body.elements true visible)
  | .for_ (some init) test step body =>
    init.elements true visible ++ (Expr.optionElements (init.visible true visible) test ++
      (Expr.optionElements (init.visible true visible) step ++
        body.elements true (init.visible true visible)))
  | .block body => Stmt.listElements true visible body

/-- What statements are made of, in the order of the source. -/
@[simp] def Stmt.listElements (inside : Bool) (visible : List String) : List Stmt → List Element
  | [] => []
  | s :: ss => s.elements inside visible ++ Stmt.listElements inside (s.visible inside visible) ss

end

/-- The names of the visible locals, the latest one first. -/
def Scope.names (scope : Scope) : List String := scope.map Binding.name

/-- Some words of a body hold elements in their order: each expression by the translation of its
tree, each function by the closure of an object that holds the elements of its own body. The
constants of the body that were there before the first are `pool`, those after the last `pool'`;
an expression adds the ones that it takes. -/
inductive Body.Holds : Body → List Element → List UInt32 → List Constant → List Constant → Prop
  | other {B : Body} {ws : List UInt32} {pool pool' : List Constant} (grows : pool <+: pool') :
      B.Holds [] ws pool pool'
  | expression {B : Body} {scope : Scope} {e : Expr} {place : String → Access}
      {pool : List Constant} (found : ∀ name ∈ e.strip.names, B.Finds scope name (place name)) :
      B.Holds [.expression scope.names e]
        ((e.strip.postorder ⟨place, B.index⟩).map Instr.encode) pool
        ((e.strip.uses place).foldl takeConstant pool)
  | function {B : Body} {scope : Scope} {kind : FunctionKind} {name : String}
      {params : List String} {body : List Stmt} {k : UInt16} {r : Handle} {f : Prototype}
      {captures : List Capture} {pool pool' : List Constant}
      (constant : B.constants[k.toNat]? = some (.ofHandle r))
      (object : B.heap.object? r = some (.function f)) (arity : f.arity.toNat = params.length)
      (inside : Body.Holds ⟨B.heap, kind, f.chunk.constants.toList, captures,
          ⟨scope, B.captures⟩ :: B.outer⟩ (Stmt.listElements true (Function.visible kind params) body)
        f.chunk.code.toList [] (f.chunk.constants.toList.map B.heap.constantOf))
      (grows : pool <+: pool') :
      B.Holds [.function scope.names kind ⟨name, params, body⟩]
        ((Instr.closure k).encode :: captures.map Capture.encode) pool pool'
  | append {B : Body} {ps qs : List Element} {v w : List UInt32}
      {pool pool₁ pool' : List Constant} (first : B.Holds ps v pool pool₁)
      (rest : B.Holds qs w pool₁ pool') : B.Holds (ps ++ qs) (v ++ w) pool pool'

/-- The function `r` and those inside hold the elements of a script. -/
def Heap.Holds (h : Heap) (body : List Stmt) (r : Handle) : Prop :=
  ∃ f : Prototype, h.object? r = some (.function f) ∧
    Body.Holds ⟨h, .script, f.chunk.constants.toList, [], []⟩
      (Stmt.listElements false (Function.visible .script []) body) f.chunk.code.toList []
      (f.chunk.constants.toList.map h.constantOf)

namespace Body.Holds

variable {B : Body} {ps : List Element} {v w : List UInt32} {pool pool₁ pool' : List Constant}

/-- What holds no elements may stand in front. -/
theorem behind (h : B.Holds ps w pool₁ pool') (hpool : pool <+: pool₁) :
    B.Holds ps (v ++ w) pool pool' := .append (.other hpool) h

/-- What holds no elements may stand behind. -/
theorem before_ (h : B.Holds ps v pool pool₁) (hpool : pool₁ <+: pool') :
    B.Holds ps (v ++ w) pool pool' := by
  have hrest : B.Holds [] w pool₁ pool' := .other hpool
  have := append h hrest
  rwa [List.append_nil] at this

/-- Constants are only added. -/
theorem grows (h : B.Holds ps w pool pool') : pool <+: pool' := by
  have htake (pool : List Constant) (c : Constant) : pool <+: takeConstant pool c := by
    unfold takeConstant
    split
    · exact List.prefix_rfl
    · exact List.prefix_append _ _
  have hall (cs pool : List Constant) : pool <+: cs.foldl takeConstant pool := by
    induction cs generalizing pool with
    | nil => exact List.prefix_rfl
    | cons c cs ih => exact (htake pool c).trans (ih _)
  induction h with
  | other grows | function _ _ _ _ grows => exact grows
  | expression => exact hall _ _
  | append _ _ ih ih' => exact ih.trans ih'

/-- The translation of an expression stands among the words, and the constants that it takes are
added where it stands. -/
theorem exists_expression {visible : List String} {e : Expr} (h : B.Holds ps w pool pool')
    (he : .expression visible e ∈ ps) : ∃ (u v : List UInt32) (scope : Scope)
      (place : String → Access) (pool₁ : List Constant), scope.names = visible ∧
        (∀ name ∈ e.strip.names, B.Finds scope name (place name)) ∧
        w = u ++ (e.strip.postorder ⟨place, B.index⟩).map Instr.encode ++ v ∧
        pool <+: pool₁ ∧ (e.strip.uses place).foldl takeConstant pool₁ <+: pool' := by
  induction h with
  | other => cases he
  | function => cases List.mem_singleton.mp he
  | @expression B scope e' place pool found =>
    cases List.mem_singleton.mp he
    exact ⟨[], [], scope, place, pool, rfl, found, by simp, List.prefix_rfl, List.prefix_rfl⟩
  | @append _ _ _ t _ _ _ _ first rest ih ih' =>
    rcases List.mem_append.mp he with he | he
    · obtain ⟨u, v, scope, place, pool₁, hnames, hfound, rfl, hpool, hpool'⟩ := ih he
      exact ⟨u, _, scope, place, pool₁, hnames, hfound, List.append_assoc _ _ _, hpool,
        hpool'.trans rest.grows⟩
    · obtain ⟨u, v, scope, place, pool₁, hnames, hfound, rfl, hpool, hpool'⟩ := ih' he
      exact ⟨t ++ u, v, scope, place, pool₁, hnames, hfound, by simp, first.grows.trans hpool,
        hpool'⟩

/-- The object of a function inside holds what its body is made of. -/
theorem exists_function {visible : List String} {kind : FunctionKind} {name : String}
    {params : List String} {body : List Stmt} (h : B.Holds ps w pool pool')
    (hf : .function visible kind ⟨name, params, body⟩ ∈ ps) : ∃ (r : Handle) (f : Prototype)
      (captures : List Capture) (scope : Scope), scope.names = visible ∧
        B.heap.object? r = some (.function f) ∧ f.arity.toNat = params.length ∧
        Body.Holds ⟨B.heap, kind, f.chunk.constants.toList, captures,
            ⟨scope, B.captures⟩ :: B.outer⟩ (Stmt.listElements true (Function.visible kind params) body)
          f.chunk.code.toList [] (f.chunk.constants.toList.map B.heap.constantOf) := by
  induction h with
  | other => cases hf
  | expression => cases List.mem_singleton.mp hf
  | @function B scope _ _ _ _ k r f captures _ _ constant object arity inside grows =>
    cases List.mem_singleton.mp hf
    exact ⟨r, f, captures, scope, rfl, object, arity, inside⟩
  | append _ _ ih ih' => exact (List.mem_append.mp hf).elim ih ih'

end Body.Holds

/-! ### Visible names -/

section Names

variable {B : Body} {scope scope' : Scope} {ws : List UInt32} {name : String} {inside : Bool}

/-- Marks leave the names alone. -/
@[simp] theorem Scope.names_mark (captures : List Capture) (scope : Scope) :
    (scope.mark captures).names = scope.names := by
  induction scope with
  | nil => rfl
  | cons b rest ih =>
    rw [names] at ih
    simp [names, Scope.mark, ih]

/-- The body of a function starts with its parameters visible. -/
theorem Scope.names_start (kind : FunctionKind) (params : List String) :
    (Scope.start kind params).names = Function.visible kind params := by
  simp [names, Scope.start, Function.visible, Function.comp_def]

/-- A declared name is visible inside a scope. -/
theorem Binds.names (h : Binds B scope name inside ws scope') :
    scope'.names = declaring inside name scope.names := by
  cases h <;> rfl

/-- The superclass is visible by name in a class that has one. -/
theorem ParentCodes.names {parent : Option String}
    (h : ParentCodes B scope name parent ws scope') :
    scope'.names = Stmt.classVisible scope.names parent := by
  cases h <;> rfl

/-- A function inside makes no name visible by itself. -/
theorem Function.Codes.names {kind : FunctionKind} {f : Function}
    (h : f.Codes B scope kind ws scope') : scope'.names = scope.names := by
  cases h
  exact Scope.names_mark _ _

/-- Methods make no names visible. -/
theorem Function.ListCodes.names {methods : List Function}
    (h : Function.ListCodes B scope methods ws scope') : scope'.names = scope.names := by
  induction methods generalizing scope ws with
  | nil =>
    cases h
    rfl
  | cons f methods ih =>
    cases h with
    | cons names first rest => exact (ih rest).trans first.names

/-- Behind a class only its own name is new. -/
theorem Scope.names_keep {scope scope' : Scope} {new : List String}
    (h : scope'.names = new ++ scope.names) : (scope'.keep scope.length).names = scope.names := by
  have hlength : scope'.length = new.length + scope.length := by
    simpa [Scope.names] using congrArg List.length h
  rw [Scope.keep, hlength, Nat.add_sub_cancel, names, List.map_drop]
  exact (congrArg (List.drop new.length) h).trans List.drop_left

/-- The names visible around a class are visible in it. -/
theorem Stmt.classVisible_eq (visible : List String) (parent : Option String) :
    ∃ new, Stmt.classVisible visible parent = new ++ visible := by
  cases parent with
  | none => exact ⟨[], rfl⟩
  | some => exact ⟨["super"], rfl⟩

end Names

namespace Compile

/-- Inside a scope or outside of all, with some names visible. -/
structure Site.Stands (inside : Bool) (visible : List String) (g : Site) : Prop where
  rests : g.Rests
  inside : decide (0 < g.depth) = inside
  names : g.scope.names = visible

/-- Where no local is new, the same names are visible. -/
theorem Site.Stays.names {g h : Site} (hgh : g.Stays h) : h.scope.names = g.scope.names :=
  hgh.locals.scope_names

variable {before : Heap} {inside : Bool} {visible : List String}

/-- What is visible behind a statement. -/
theorem Site.Stands.behind {B : Body} {g h : Site} {t : Stmt} {w : List UInt32}
    (hg : g.Stands inside visible) (hgrows : g.Grows h) (hstays : t.declares = false → g.Stays h)
    (hcodes : t.Codes B g.scope (decide (0 < g.depth)) w h.scope) :
    h.Stands inside (t.visible inside visible) := by
  refine ⟨hgrows.rests hg.rests, by rw [hgrows.depth, hg.inside], ?_⟩
  obtain ⟨hrests, rfl, rfl⟩ := hg
  have hsame : t.declares = false → h.scope.names = g.scope.names := fun ht => (hstays ht).names
  generalize h.scope = scope' at hcodes hsame ⊢
  cases t with
  | let_ name init =>
    cases hcodes with
    | declare binds | define value binds => exact binds.names
  | def_ f =>
    cases hcodes with
    | def_ binds function => exact function.names.trans binds.names
  | class_ name parent methods =>
    cases hcodes with
    | class_ names binds above found codes =>
      obtain ⟨new, hnew⟩ := Stmt.classVisible_eq (declaring (decide (0 < g.depth)) name
        g.scope.names) parent
      have hall := codes.names.trans above.names
      rw [binds.names, hnew, ← binds.names] at hall
      exact (Scope.names_keep hall).trans binds.names
  | _ => exact hsame rfl

end Compile

/-! ### Steps -/

namespace Compile

variable {before : Heap} {α β : Type} {P K L : Site → Prop} {x : Compiler α} {f : α → Compiler β}
  {ps qs : List Element} {inside : Bool} {visible : List String} {name : String}

/-- A step that starts where `P` holds of the place and goes on adds words that hold elements. Then
`K` holds of the place. -/
def Puts (before : Heap) (P : Site → Prop) (x : Compiler α) (ps : List Element)
    (K : Site → Prop) : Prop :=
  ∀ s a s', s.Steady before → P s.site → x s = .ok a s' → K s'.site ∧ ∃ w, s.Adds before s' w ∧
    ∀ B : Body, B.Completes s' → B.Orderly → B.Holds ps w s.body.pool s'.body.pool

/-- Constants are only added. -/
theorem State.Adds.pool {s s' : State} {w : List UInt32} (h : s.Adds before s' w) :
    s.body.pool <+: s'.body.pool := (h.completes s'.body_completes).pool

/-- Less may be said, where more holds. -/
theorem Puts.imp {P' K' : Site → Prop} (h : Puts before P' x ps K') (hP : ∀ g, P g → P' g)
    (hK : ∀ g, K' g → K g) : Puts before P x ps K := by
  intro s a s' hs hp hx
  obtain ⟨hk, hputs⟩ := h s a s' hs (hP _ hp) hx
  exact ⟨hK _ hk, hputs⟩

/-- What a step puts may depend on the place where it starts. -/
theorem Puts.at_ (h : ∀ g, P g → Puts before (· = g) x ps K) : Puts before P x ps K :=
  fun s a s' hs hp hx => h s.site hp s a s' hs rfl hx

/-- Words that hold no elements. -/
theorem Makes.puts {Q : Body → Site → α → List UInt32 → Site → Prop}
    (hx : ∀ o, Makes before o P x Q) (hK : ∀ B g a w h, P g → Q B g a w h → K h) :
    Puts before P x [] K := by
  intro s a s' hs hp h
  obtain ⟨w, hadds, hw⟩ := hx _ s a s' hs rfl hp h
  exact ⟨hK _ _ _ _ _ hp (hw _ s'.body_completes), w, hadds, fun _ _ _ => .other hadds.pool⟩

/-- Words that hold no elements, of a step that leaves the place as it is. -/
theorem Gives.puts {S : Body → Scope → α → List UInt32 → Prop} (hx : ∀ o, Gives before o x S) :
    Puts before P x [] P :=
  Makes.puts (fun o => (hx o).makes) fun _ _ _ _ _ hp hg => hg.1 ▸ hp

/-- What is known of the place behind a step. -/
theorem Puts.knowing {Q : Body → Site → α → List UInt32 → Site → Prop} (h : Puts before P x ps K)
    (hx : ∀ o, Makes before o P x Q) (hL : ∀ B g a w h, P g → Q B g a w h → K h → L h) :
    Puts before P x ps L := by
  intro s a s' hs hp hrun
  obtain ⟨hk, hputs⟩ := h s a s' hs hp hrun
  obtain ⟨w, -, hw⟩ := hx _ s a s' hs rfl hp hrun
  exact ⟨hL _ _ _ _ _ hp (hw _ s'.body_completes) hk, hputs⟩

/-- One step after another. -/
theorem Puts.then_ (hx : Puts before P x ps K) (hf : ∀ a, Puts before K (f a) qs L) :
    Puts before P (x >>= f) (ps ++ qs) L := by
  intro s b s' hs hp h
  obtain ⟨a, s₁, hx₁, hf₁⟩ := run_bind.mp h
  obtain ⟨hk, v, hadds, hv⟩ := hx s a s₁ hs hp hx₁
  obtain ⟨hl, w, hadds', hw⟩ := hf a s₁ b s' hadds.steady hk hf₁
  exact ⟨hl, v ++ w, hadds.trans hadds', fun B hB ho =>
    .append (hv B (hadds'.completes hB) ho) (hw B hB ho)⟩

/-- A step after one that holds no elements. -/
theorem Puts.after (hx : Puts before P x [] K) (hf : ∀ a, Puts before K (f a) ps L) :
    Puts before P (x >>= f) ps L := hx.then_ hf

/-- A step before one that holds no elements. -/
theorem Puts.before_ (hx : Puts before P x ps K) (hf : ∀ a, Puts before K (f a) [] L) :
    Puts before P (x >>= f) ps L := by
  have := hx.then_ hf
  rwa [List.append_nil] at this

/-- The state is looked at. -/
theorem Puts.look {k : State → α} (hf : ∀ a, Puts before P (f a) ps K) :
    Puts before P (Compile.look k >>= f) ps K := by
  intro s b s' hs hp h
  obtain ⟨_, _, hlook, h⟩ := run_bind.mp h
  obtain ⟨rfl, rfl⟩ := run_look.mp hlook
  exact hf _ s b s' hs hp h

/-- Words that hold no elements, added where the place stays as it is. -/
theorem Makes.still {Q : Body → Site → α → List UInt32 → Site → Prop}
    (hx : ∀ o, Makes before o P x Q) (hQ : ∀ B g a w h, Q B g a w h → h = g) :
    Puts before P x [] P :=
  Makes.puts hx fun _ _ _ _ _ hp hw => hQ _ _ _ _ _ hw ▸ hp

/-- An answer adds no words. -/
theorem puts_pure {a : α} : Puts before P (pure a) [] P :=
  Makes.still (Q := fun _ g _ _ h => h = g) (fun _ => makes_pure fun _ _ _ => rfl)
    fun _ _ _ _ _ => id

/-- Going past a token adds no words. -/
theorem puts_advance : Puts before P advance [] P :=
  Makes.still (Q := fun _ g _ _ h => h = g) (fun _ => makes_advance fun _ _ _ => rfl)
    fun _ _ _ _ _ => id

/-- A word by itself holds no elements. -/
theorem puts_emit {i : Instr} : Puts before P (emit i) [] P :=
  Makes.still (Q := fun _ g _ _ h => h = g) (fun _ => makes_emit fun _ _ _ => rfl)
    fun _ _ _ _ _ => id

/-- A jump back holds no elements. -/
theorem puts_emitLoop {start : Nat} : Puts before P (emitLoop start) [] P :=
  Makes.still (Q := fun _ g _ _ h => h = g)
    (fun _ => makes_emitLoop.imp (fun _ => id) fun _ _ _ _ _ _ hw => hw.1) fun _ _ _ _ _ => id

/-- The final return of a function holds no elements. -/
theorem puts_emitReturn : Puts before P emitReturn [] P :=
  Makes.still (fun _ => makes_emitReturn) fun _ _ _ _ _ => And.left

/-- A step after a token was gone past. -/
theorem Puts.advance {y : Compiler β} (hy : Puts before P y ps K) :
    Puts before P (Compile.advance >>= fun _ => y) ps K := puts_advance.after fun _ => hy

/-- A step after a word was added. -/
theorem Puts.emit {i : Instr} {y : Compiler β} (hy : Puts before P y ps K) :
    Puts before P (Compile.emit i >>= fun _ => y) ps K := puts_emit.after fun _ => hy

/-- A jump over what a step puts. -/
theorem puts_over {jump : UInt16 → Instr} (hj : Forward jump) (hx : Puts before P x ps K) :
    Puts before P (do
      let at_ ← emitJump jump
      let a ← x
      patchJump at_
      return a) ps K := by
  intro s a s' hs hp h
  obtain ⟨at_, s₁, h₁, h⟩ := run_bind.mp h
  obtain ⟨a', s₂, h₂, h⟩ := run_bind.mp h
  obtain ⟨_, s₃, h₃, h⟩ := run_bind.mp h
  obtain ⟨rfl, rfl⟩ := run_pure.mp h
  obtain ⟨rfl, hjump, hsite⟩ := hs.emitJump h₁
  obtain ⟨hk, v, hadds, hv⟩ := hx s₁ a' s₂ hjump.steady (hsite ▸ hp) h₂
  obtain ⟨-, hpatch⟩ := (does_patchJump hadds.steady.live).run h₃
  obtain ⟨hsite', hback⟩ := hpatch.keeps
  obtain ⟨d, -, hall⟩ := (hjump.trans hadds).patch (v := []) hj rfl hpatch
  have hpool : s₃.body.pool = s₂.body.pool := by
    obtain ⟨-, rfl⟩ := hpatch
    rfl
  refine ⟨hsite' ▸ hk, _, hall, fun B hB ho => ?_⟩
  rw [hpool]
  exact (hv B (hback B hB) ho).behind (v := [(jump d).encode]) hjump.pool

/-- Code that is skipped if the value on top of the stack is false. -/
theorem puts_skipping {y : Compiler Unit} (hy : Puts before P y ps K) :
    Puts before P (skipping y) ps K := by
  have heq : skipping y = do
      let at_ ← emitJump .jumpIfFalse
      let a ← y
      patchJump at_
      return a := by
    simp [skipping]
  rw [heq]
  exact puts_over .jumpIfFalse hy

/-- Code that is run if the value on top of the stack is true, and code that is run otherwise. -/
theorem puts_branching {y z : Compiler Unit} (hy : Puts before P y ps K)
    (hz : Puts before K z qs L) : Puts before P (branching y z) (ps ++ qs) L := by
  intro s a s' hs hp h
  obtain ⟨otherwise, s₁, h₁, h⟩ := run_bind.mp h
  obtain ⟨_, s₂, h₂, h⟩ := run_bind.mp h
  obtain ⟨stop, s₃, h₃, h⟩ := run_bind.mp h
  obtain ⟨_, s₄, h₄, h⟩ := run_bind.mp h
  obtain ⟨_, s₅, h₅, h₆⟩ := run_bind.mp h
  obtain ⟨rfl, hskip, hsite₁⟩ := hs.emitJump h₁
  obtain ⟨hk, v, hyes, hv⟩ := hy s₁ _ s₂ hskip.steady (hsite₁ ▸ hp) h₂
  obtain ⟨rfl, hjump, hsite₃⟩ := hyes.steady.emitJump h₃
  obtain ⟨-, hpatch⟩ := (does_patchJump hjump.steady.live).run h₄
  obtain ⟨hsite₄, hback₄⟩ := hpatch.keeps
  obtain ⟨d, -, hfirst⟩ := ((hskip.trans hyes).trans hjump).patch (v := []) .jumpIfFalse rfl hpatch
  obtain ⟨hl, u, hno, hu⟩ := hz s₄ _ s₅ hfirst.steady
    (by rw [hsite₄, hsite₃]; exact hk) h₅
  obtain ⟨-, hpatch'⟩ := (does_patchJump hno.steady.live).run h₆
  obtain ⟨hsite₆, hback₆⟩ := hpatch'.keeps
  have hwords : s.Adds before s₅ ((Instr.jumpIfFalse d).encode :: v ++
      (Instr.jump 0xFFFF).encode :: u) := by simpa using hfirst.trans hno
  obtain ⟨d', -, hall⟩ := hwords.patch .jump (by
    rw [(hskip.trans hyes).size]
    simp) hpatch'
  have hpool₄ : s₄.body.pool = s₃.body.pool := by
    obtain ⟨-, rfl⟩ := hpatch
    rfl
  have hpool₆ : s'.body.pool = s₅.body.pool := by
    obtain ⟨-, rfl⟩ := hpatch'
    rfl
  refine ⟨hsite₆ ▸ hl, _, hall, fun B hB ho => ?_⟩
  have hB₄ := hno.completes (hback₆ B hB)
  have hno' := (hu B (hback₆ B hB) ho).behind (v := [(Instr.jump d').encode])
    (hpool₄ ▸ hjump.pool)
  rw [hpool₆]
  exact .append ((hv B (hjump.completes (hback₄ B hB₄)) ho).behind
    (v := [(Instr.jumpIfFalse d).encode]) hskip.pool) hno'

end Compile

/-- Translating an expression puts it. -/
theorem Expr.puts {before : Heap} {P : Site → Prop} {visible : List String} (e : Expr)
    (hP : ∀ g, P g → g.scope.names = visible) :
    Puts before P e.translate [.expression visible e] P := by
  intro s _ s' hs hp h
  obtain ⟨w, hadds, hw⟩ := e.codifies s () s' hs rfl trivial h
  obtain ⟨hsite, -⟩ := hw _ s'.body_completes
  refine ⟨hsite ▸ hp, w, hadds, fun B hB ho => ?_⟩
  obtain ⟨-, hcodes⟩ := hw B hB
  obtain ⟨place, hplace⟩ := ho.exists_place s.site.scope
  have hpool : s'.body.pool = (e.uses place).foldl takeConstant s.body.pool :=
    (e.takes s () s' hs h).2 B place hB hplace
  rw [hpool, hcodes.eq_postorder (ho.serves hplace), ← hP _ hp, ← e.postorder_strip, ← e.uses_strip]
  refine .expression fun name hname => ?_
  rw [e.names_strip] at hname
  obtain ⟨a, ha⟩ := hcodes.finds hname
  exact hplace name a ha ▸ ha


namespace Compile

variable {before : Heap} {P K : Site → Prop} {inside : Bool} {visible : List String}
  {name : String} {α : Type} {x : Compiler α} {ps : List Element} {params : List String}

/-- Nothing is known of the place behind a step. -/
theorem Puts.any (h : Puts before P x ps K) : Puts before P x ps fun _ => True :=
  h.imp (fun _ => id) fun _ _ => trivial

/-! ### Functions -/

/-- The words of a function that is finished hold what its body is made of. -/
theorem Puts.makes (h : Puts before P x ps K) {o : Nat} :
    Makes before o P x fun B _ _ w _ => B.Orderly → B.Holds ps w [] B.pool := by
  intro s a s' hs _ hp hx
  obtain ⟨-, w, hadds, hw⟩ := h s a s' hs hp hx
  refine ⟨w, hadds, fun B hB ho => ?_⟩
  have := ((hw B hB ho).before_ (w := []) hB.pool).behind (v := []) List.nil_prefix
  rwa [List.nil_append, List.append_nil] at this

/-- Two descriptions of what a step makes. -/
theorem Makes.and {o : Nat} {Q R : Body → Site → α → List UInt32 → Site → Prop}
    (hq : Makes before o P x Q) (hr : Makes before o P x R) :
    Makes before o P x fun B g a w h => Q B g a w h ∧ R B g a w h := by
  intro s a s' hs ho hp hx
  obtain ⟨v, hadds, hv⟩ := hq s a s' hs ho hp hx
  obtain ⟨w, hadds', hw⟩ := hr s a s' hs ho hp hx
  obtain rfl : v = w := List.append_cancel_left (hadds.code.symm.trans hadds'.code)
  exact ⟨v, hadds, fun B hB => ⟨hv B hB, hw B hB⟩⟩

/-- What statements put. -/
abbrev PutsAll (before : Heap) (body : List Stmt) : Prop :=
  ∀ inside visible, Puts before (Site.Stands inside visible) (Stmt.listTranslate body)
    (Stmt.listElements inside visible body) fun _ => True

/-- Where the body of a function starts, its parameters are visible. -/
theorem Site.Starts.stands {kind : FunctionKind} {classes : List Bool} {g : Site}
    (h : g.Starts kind classes params) : g.Stands true (Function.visible kind params) :=
  ⟨h.rests, by rw [h.depth]; rfl, by rw [h.scope, Scope.names_start]⟩

/-- From the first parameter to the last return of a function, its body is put. -/
theorem puts_functionCode {kind : FunctionKind} {classes : List Bool} {body : List Stmt}
    (hbody : PutsAll before body) : Puts before (· = Site.begun kind classes) (do
      translateSignature params
      advance
      Stmt.listTranslate body
      advance
      emitReturn) (Stmt.listElements true (Function.visible kind params) body) fun _ => True :=
  (Makes.puts (fun _ => makes_signature) fun _ _ _ _ _ _ hw => hw.2.stands).after fun _ =>
    .advance <| (hbody _ _).before_ fun _ => .advance puts_emitReturn

/-- Translating a function puts it. -/
theorem puts_function {kind : FunctionKind} {body : List Stmt} (hscripts : Scripts before body)
    (hbody : PutsAll before body) : Puts before (fun g => g.Rests ∧ g.scope.names = visible)
      (translateFunction kind name params (Stmt.listTranslate body))
      [.function visible kind ⟨name, params, body⟩]
      fun g => g.Rests ∧ g.scope.names = visible := by
  intro s a s' hs ⟨hrests, hnames⟩ h
  have hcode (classes : List Bool) : Makes before 0 (· = Site.begun kind classes) (do
      translateSignature params
      advance
      Stmt.listTranslate body
      advance
      emitReturn) fun B _ _ w h => h.arity.toNat = params.length ∧ h.classes = classes ∧
        (B.Orderly → B.Holds (Stmt.listElements true (Function.visible kind params) body) w []
          B.pool) :=
    ((makes_functionCode hscripts).and (puts_functionCode hbody).makes).imp (fun _ => id)
      fun _ _ _ _ _ _ hw => ⟨hw.1.1, hw.1.2.1, hw.2⟩
  obtain ⟨w, hadds, hw⟩ := makes_enclosed (S := fun B w => B.Orderly →
    B.Holds (Stmt.listElements true (Function.visible kind params) body) w [] B.pool) hcode
      s a s' hs rfl hrests.settled h
  obtain ⟨d, hsite, -⟩ := hw s'.body s'.body_completes
  have hstays : s.site.Stays s'.site := hsite ▸ s.site.stays_marked d.captures.toList
  refine ⟨⟨hstays.grows.rests hrests, hstays.names.trans hnames⟩, w, hadds, fun B hB ho => ?_⟩
  obtain ⟨d, -, ⟨htidy, harity, k, r, hconstant, hobject, rfl⟩, hall⟩ := hw B hB
  have horderly : Body.Orderly ⟨B.heap, kind, d.chunk.constants.toList, d.captures.toList,
      ⟨s.site.scope, B.captures⟩ :: B.outer⟩ :=
    ⟨ho.sound, htidy.pooled.nodup, htidy.pooled.few, htidy.distinct,
      List.forall_mem_cons.mpr ⟨ho.captures, ho.outer⟩⟩
  rw [← hnames]
  exact .function (f := d.prototype) hconstant hobject harity (hall horderly) hadds.pool

/-- Translating methods puts them. -/
theorem puts_methods {methods : List Function}
    (hmethods : ∀ f ∈ methods, Scripts before f.body ∧ PutsAll before f.body) :
    Puts before (fun g => g.Rests ∧ g.scope.names = visible) (Function.listTranslate methods)
      (methods.map fun f => .function visible (methodKind f.name) f)
      fun g => g.Rests ∧ g.scope.names = visible := by
  induction methods with
  | nil => exact puts_pure
  | cons f methods ih =>
    obtain ⟨name, params, body⟩ := f
    obtain ⟨⟨hscripts, hbody⟩, hrest⟩ := List.forall_mem_cons.mp hmethods
    rw [Function.listTranslate]
    exact .advance <| .advance <| (Gives.puts fun _ => gives_nameConstant).after fun _ =>
      (puts_function hscripts hbody).then_ fun _ => .emit <| ih hrest

/-! ### Statements -/

/-- What translating a statement puts. -/
abbrev PutsOne (before : Heap) (t : Stmt) : Prop :=
  ∀ inside visible, Puts before (Site.Stands inside visible) t.translate
    (t.elements inside visible) fun _ => True

/-- What is visible behind a statement that was put. -/
theorem PutsOne.stands {t : Stmt} (h : PutsOne before t) (hacts : Acts before t) :
    Puts before (Site.Stands inside visible) t.translate (t.elements inside visible)
      (Site.Stands inside (t.visible inside visible)) :=
  (h inside visible).knowing (fun o => (hacts o).weaken fun _ hg => hg.rests)
    fun _ _ _ _ _ hg hw _ => hg.behind hw.1 hw.2.1 hw.2.2

/-- Statements in their order. -/
theorem putsAll {body : List Stmt} (hbody : ∀ t ∈ body, Acts before t ∧ PutsOne before t) :
    PutsAll before body := by
  induction body with
  | nil => exact fun _ _ => puts_pure.any
  | cons t body ih =>
    intro inside visible
    obtain ⟨⟨hacts, hfirst⟩, hrest⟩ := List.forall_mem_cons.mp hbody
    rw [Stmt.listTranslate]
    exact (hfirst.stands hacts).then_ fun _ => ih hrest _ _

/-- What is between the beginning and the end of a scope. -/
theorem puts_scoped {y : Compiler Unit}
    (hgrows : ∀ o, Makes before o Site.Rests y fun _ g _ _ h => g.Grows h)
    (hy : Puts before (Site.Stands true visible) y ps fun _ => True) :
    Puts before (Site.Stands inside visible) (do
      beginScope
      y
      endScope) ps fun _ => True := by
  refine .at_ fun f hf => ?_
  have hbegin : Puts before (· = f) beginScope [] (· = { f with depth := f.depth + 1 }) :=
    Makes.puts (fun _ => makes_beginScope) fun _ g _ _ _ hg hw => by
      subst hg
      exact hw.2
  refine hbegin.after fun _ => ?_
  have hrests : Site.Rests { f with depth := f.depth + 1 } := by
    intro l hl
    obtain ⟨k, hk, hlk⟩ := hf.rests l hl
    exact ⟨k, Nat.le_succ_of_le hk, hlk⟩
  have hinside : Site.Stands true visible { f with depth := f.depth + 1 } :=
    ⟨hrests, decide_eq_true (Nat.succ_pos _), hf.names⟩
  refine Puts.before_ (K := fun g => f.Rests ∧ g.depth = f.depth + 1 ∧
    Deeper g.depth f.locals g.locals) ?_ fun _ => Makes.puts (fun _ => makes_endScope)
      fun _ _ _ _ _ _ _ => trivial
  have hinner : Puts before (· = { f with depth := f.depth + 1 }) y ps fun _ => True :=
    hy.imp (fun g hg => hg ▸ hinside) fun _ => id
  refine hinner.knowing (fun o => (hgrows o).weaken fun g hg => hg ▸ hrests)
    fun _ g _ _ h hg hw _ => ?_
  subst hg
  exact ⟨hf.rests, hw.depth, hw.depth ▸ hw.locals⟩

/-- A block puts its statements. -/
theorem putsOne_block {body : List Stmt} (hscripts : Scripts before body)
    (hbody : PutsAll before body) : PutsOne before (.block body) := by
  intro inside visible
  rw [Stmt.translate, Stmt.elements]
  have hall : Puts before (Site.Stands inside visible) (do
      beginScope
      (do Stmt.listTranslate body; advance)
      endScope) (Stmt.listElements true visible body) fun _ => True := puts_scoped
    (fun o => (hscripts o).then_ (K := fun _ => True) (fun _ _ _ _ _ _ _ => trivial) fun _ _ =>
      makes_advance fun _ _ _ _ _ hv => hv.1)
    ((hbody _ _).before_ fun _ => puts_advance)
  simp only [bind_assoc] at hall
  exact .advance hall

/-- A variable puts the expression that it starts with. -/
theorem putsOne_let {init : Option Expr} : PutsOne before (.let_ name init) := by
  intro inside visible
  cases init with
  | none =>
    exact Makes.puts (fun o => (acts_let o).weaken fun _ hg => hg.rests) fun _ _ _ _ _ _ _ => trivial
  | some e =>
    have hbind : Puts before (Site.Stands inside visible) (bindName name) []
        fun g => g.scope.names = visible :=
      Makes.puts (fun _ => makes_bindName.weaken fun _ hg => hg.rests) fun _ g _ _ h hg hw => by
        obtain ⟨-, ⟨-, rfl, -⟩ | ⟨-, span, rfl⟩⟩ := hw
        · exact hg.names
        · rw [Site.scope_declared]
          exact hg.names
    rw [Stmt.translate, Stmt.elements, Expr.optionElements]
    exact .advance <| hbind.after fun _ => .advance <| (e.puts fun _ hg => hg).before_ fun _ =>
      .advance <| Makes.puts (fun _ => makes_defineVariable) fun _ _ _ _ _ _ _ => trivial

/-- A function declaration puts the function, which may call itself by name. -/
theorem putsOne_def {params : List String} {body : List Stmt} (hscripts : Scripts before body)
    (hbody : PutsAll before body) : PutsOne before (.def_ ⟨name, params, body⟩) := by
  intro inside visible
  rw [Stmt.translate, Stmt.elements]
  have hbind : Puts before (Site.Stands inside visible) (bindName name) [] fun g =>
      g.initialized.Rests ∧ g.initialized.scope.names = declaring inside name visible :=
    Makes.puts (fun _ => makes_bindName.weaken fun _ hg => hg.rests) fun _ g _ _ h hg hw => by
      obtain ⟨hrests, rfl, rfl⟩ := hg
      obtain ⟨-, ⟨hzero, rfl, -⟩ | ⟨hinside, span, rfl⟩⟩ := hw
      · rw [Site.initialized, if_pos hzero, decide_eq_false (by omega)]
        exact ⟨hrests, rfl⟩
      · refine ⟨(Site.grows_declared hinside).rests hrests, ?_⟩
        rw [Site.initialized_declared hinside, decide_eq_true hinside]
        rfl
  have hmark : Puts before (fun g => g.initialized.Rests ∧
      g.initialized.scope.names = declaring inside name visible) markInitialized []
        fun g => g.Rests ∧ g.scope.names = declaring inside name visible :=
    Makes.puts (fun _ => makes_markInitialized) fun _ _ _ _ _ hg hw => hw.2 ▸ hg
  exact .advance <| hbind.after fun _ => hmark.after fun _ =>
    (puts_function hscripts hbody).before_ fun _ =>
      Makes.puts (fun _ => makes_defineVariable) fun _ _ _ _ _ _ _ => trivial

/-- A class puts its methods. -/
theorem putsOne_class {parent : Option String} {methods : List Function}
    (hmethods : ∀ m ∈ methods, Scripts before m.body ∧ PutsAll before m.body) :
    PutsOne before (.class_ name parent methods) := by
  intro inside visible
  have hscripts : ∀ m ∈ methods, Scripts before m.body := fun m hm => (hmethods m hm).1
  rw [translate_class, Stmt.elements]
  have hhead : Puts before (Site.Stands inside visible) (do
      let constant ← nameConstant name
      declareVariable name
      emit (.class_ constant)
      defineVariable constant) [] fun g =>
        g.Rests ∧ g.scope.names = declaring inside name visible :=
    Makes.puts (fun _ => makes_classHead.weaken fun _ hg => hg.rests) fun _ g _ _ h hg hw => by
      obtain ⟨hgrows, k, define, -, hbinds, -⟩ := hw
      rw [hg.inside, ← hg.names] at *
      exact ⟨hgrows.rests hg.rests, hbinds.names⟩
  refine .advance <| .advance <| hhead.after fun _ => .at_ fun f hf => ?_
  have hmodify : Puts before (· = f)
      (modify fun s => { s with classes := false :: s.classes } : Compiler Unit) []
      (· = { f with classes := false :: f.classes }) :=
    Makes.puts (fun _ => makes_modifyClasses) fun _ g _ _ _ hg hw => by
      subst hg
      exact hw.2
  have hparent : Puts before (· = { f with classes := false :: f.classes })
      (translateParent name parent) [] fun g => f.Under parent.isSome g ∧
        g.scope.names = Stmt.classVisible (declaring inside name visible) parent :=
    Makes.puts (fun _ => makes_parent hf.1) fun _ g _ _ _ hg hw => by
      subst hg
      exact ⟨hw.1, hw.2.names.trans (congrArg (Stmt.classVisible · parent) hf.2)⟩
  have hmembers : Puts before (fun g => f.Under parent.isSome g ∧
      g.scope.names = Stmt.classVisible (declaring inside name visible) parent) (do
        readVariable name
        advance
        Function.listTranslate methods
        advance
        emit .pop) (methods.map fun m => .function
          (Stmt.classVisible (declaring inside name visible) parent) (methodKind m.name) m)
      fun g => f.Under parent.isSome g := by
    refine Puts.knowing (K := fun _ => True) ?_
      (fun _ => (makes_members hscripts).weaken fun _ hg => hg.1) fun _ _ _ _ _ _ hw _ => hw.1
    exact (Gives.puts fun _ => gives_readVariable).after fun _ => .advance <|
      ((puts_methods hmethods).imp (fun _ hg => ⟨hg.1.rests, hg.2⟩) fun _ _ => trivial).before_
        fun _ => .advance puts_emit
  exact hmodify.after fun _ => hparent.after fun _ => hmembers.before_ fun _ =>
    Makes.puts (fun _ => makes_classEnd hf.1) fun _ _ _ _ _ _ _ => trivial

/-- A return puts the expression that is returned. -/
theorem putsOne_return {e : Option Expr} : PutsOne before (.return_ e) := by
  intro inside visible
  cases e with
  | none =>
    exact Makes.puts (fun o => (acts_return o).weaken fun _ hg => hg.rests)
      fun _ _ _ _ _ _ _ => trivial
  | some e =>
    rw [Stmt.translate, Stmt.elements, Expr.optionElements]
    refine .advance <| (Makes.still (fun _ => makes_refuseReturn) fun _ _ _ _ _ => And.right).after
      fun _ => .look fun kind => (e.puts fun _ hg => hg.names).before_ fun _ => .advance ?_
    split
    · exact .emit puts_emitReturn.any
    · exact puts_emit.any

/-- A condition in parentheses. -/
theorem puts_condition {test : Expr} : Puts before (Site.Stands inside visible)
    test.translateCondition [.expression visible test] (Site.Stands inside visible) := by
  rw [Expr.translateCondition]
  exact .advance <| (test.puts fun _ hg => hg.names).before_ fun _ => puts_advance

/-- A statement that declares nothing leaves the place as it is for those behind it. -/
theorem PutsOne.stays {t : Stmt} (h : PutsOne before t) (hacts : Acts before t)
    (hdeclares : t.declares = false) : Puts before (Site.Stands inside visible) t.translate
      (t.elements inside visible) (Site.Stands inside visible) := by
  have hvisible : t.visible inside visible = visible := by
    cases t with
    | let_ | def_ | class_ => cases hdeclares
    | _ => rfl
  have hstands : Puts before (Site.Stands inside visible) t.translate
      (t.elements inside visible) (Site.Stands inside (t.visible inside visible)) := h.stands hacts
  rwa [hvisible] at hstands

/-- A conditional puts its condition and its branches. -/
theorem putsOne_if {test : Expr} {body : Stmt} {otherwise : Option Stmt} (hacts : Acts before body)
    (hbody : PutsOne before body) (hdeclares : body.declares = false)
    (hotherwise : ∀ t, otherwise = some t → PutsOne before t) :
    PutsOne before (.if_ test body otherwise) := by
  intro inside visible
  have hyes : Puts before (Site.Stands inside visible) (emit .pop *> body.translate)
      (body.elements inside visible) (Site.Stands inside visible) := by
    rw [seqRight_eq_bind]
    exact .emit (hbody.stays hacts hdeclares)
  cases otherwise with
  | none =>
    rw [Stmt.translate, Stmt.elements]
    have hall := puts_branching hyes (puts_emit (i := .pop))
    rw [List.append_nil] at hall
    exact .advance <| puts_condition.then_ fun _ => hall.any
  | some otherwise =>
    rw [Stmt.translate, Stmt.elements]
    exact .advance <| puts_condition.then_ fun _ => puts_branching hyes <| .emit <| .advance <|
      hotherwise otherwise rfl _ _

/-- A loop puts its condition and its body. -/
theorem putsOne_while {test : Expr} {body : Stmt} (hacts : Acts before body)
    (hbody : PutsOne before body) (hdeclares : body.declares = false) :
    PutsOne before (.while_ test body) := by
  intro inside visible
  rw [Stmt.translate, Stmt.elements]
  exact .advance <| .look fun _ => puts_condition.then_ fun _ =>
    (puts_skipping <| .emit <| (hbody.stays hacts hdeclares).before_ fun _ =>
      puts_emitLoop).any.before_ fun _ => puts_emit

/-- A loop that runs at least once puts its body before its condition. -/
theorem putsOne_doWhile {test : Expr} {body : Stmt} (hacts : Acts before body)
    (hbody : PutsOne before body) (hdeclares : body.declares = false) :
    PutsOne before (.doWhile body test) := by
  intro inside visible
  rw [Stmt.translate, Stmt.elements]
  exact .advance <| .look fun _ => (hbody.stays hacts hdeclares).then_ fun _ => .advance <|
    puts_condition.before_ fun _ => .advance <| (puts_skipping <| .emit puts_emitLoop).any.after
      fun _ => puts_emit

/-! ### Loops -/

/-- What a counting loop does after its body. -/
theorem puts_step {start : Nat} {step : Option Expr} :
    Puts before (Site.Stands inside visible) (translateStep start step)
      (Expr.optionElements visible step) (Site.Stands inside visible) := by
  cases step with
  | none =>
    rw [translateStep, Expr.optionElements]
    exact .advance puts_pure
  | some e =>
    rw [translateStep_some, Expr.optionElements]
    exact puts_over .jump <| .look fun _ => (e.puts fun _ hg => hg.names).before_ fun _ =>
      .emit <| .advance <| puts_emitLoop.after fun _ => puts_pure

/-- A counting loop after its beginning. -/
theorem puts_loop {test step : Option Expr} {body : Stmt} (hacts : Acts before body)
    (hbody : PutsOne before body) (hdeclares : body.declares = false) :
    Puts before (Site.Stands true visible) (do
      let start ← here
      let stop ← translateTest test
      let back ← translateStep start step
      body.translate
      emitLoop back
      translateExit stop) (Expr.optionElements visible test ++
        (Expr.optionElements visible step ++ body.elements true visible)) fun _ => True := by
  refine .look fun start => ?_
  have hturn : Puts before (Site.Stands true visible) (do
      let back ← translateStep start step
      body.translate
      emitLoop back) (Expr.optionElements visible step ++ body.elements true visible)
      (Site.Stands true visible) :=
    puts_step.then_ fun _ => (hbody.stays hacts hdeclares).before_ fun _ => puts_emitLoop
  cases test with
  | none =>
    rw [translate_untested]
    exact .advance hturn.any
  | some test =>
    rw [translate_tested]
    exact (test.puts fun _ hg => hg.names).then_ fun _ => .advance <|
      (puts_skipping <| .emit hturn).any.before_ fun _ => puts_emit

/-- A counting loop puts its parts in the order of the source. -/
theorem putsOne_for {init : Option Stmt} {test step : Option Expr} {body : Stmt}
    (hinit : ∀ t, init = some t → Acts before t ∧ PutsOne before t) (hacts : Acts before body)
    (hbody : PutsOne before body) (hdeclares : body.declares = false) :
    PutsOne before (.for_ init test step body) := by
  intro inside visible
  rw [translate_for]
  refine .advance <| puts_scoped (fun o => (makes_start fun t ht => (hinit t ht).1).then_
    (K := Site.Rests) (fun _ _ _ _ _ hg h => h.1.rests hg) fun _ _ =>
      (makes_loop hacts hdeclares).imp (fun _ => id) fun _ _ _ _ _ _ hw _ _ hv =>
        hv.1.trans hw.1.grows) ?_
  cases init with
  | none =>
    rw [Stmt.elements]
    exact Puts.after (K := Site.Stands true visible) (.advance puts_advance) fun _ =>
      puts_loop hacts hbody hdeclares
  | some init =>
    obtain ⟨hinitActs, hinit⟩ := hinit init rfl
    rw [Stmt.elements]
    exact Puts.then_ (.advance (hinit.stands hinitActs)) fun _ => puts_loop hacts hbody hdeclares

end Compile

/-- Translating a grammatical statement puts it. -/
theorem Stmt.puts {before : Heap} {t : Stmt} (ht : t.Grammatical) : PutsOne before t := by
  induction t with
  | let_ name init => exact putsOne_let
  | def_ name params body hbody =>
    rw [Stmt.Grammatical, Function.Grammatical] at ht
    exact putsOne_def (scripts_of_acts fun s hs => Stmt.acts (ht.mem hs)) (putsAll fun s hs =>
      ⟨Stmt.acts (ht.mem hs), hbody s hs (ht.mem hs)⟩)
  | class_ name parent methods hmethods =>
    rw [Stmt.Grammatical] at ht
    exact putsOne_class fun f hf => ⟨scripts_of_acts fun s hs => Stmt.acts ((ht.mem hf).mem hs),
      putsAll fun s hs => ⟨Stmt.acts ((ht.mem hf).mem hs), hmethods f hf s hs ((ht.mem hf).mem hs)⟩⟩
  | print e =>
    intro inside visible
    rw [Stmt.translate, Stmt.elements]
    exact .advance <| (e.puts fun _ hg => hg.names).before_ fun _ => .advance puts_emit.any
  | expression e =>
    intro inside visible
    rw [Stmt.translate, Stmt.elements]
    exact (e.puts fun _ hg => hg.names).before_ fun _ => .advance puts_emit.any
  | return_ e => exact putsOne_return
  | if_ test body otherwise hbody hotherwise =>
    cases otherwise with
    | none =>
      rw [Stmt.Grammatical] at ht
      exact putsOne_if (Stmt.acts ht.2.1) (hbody ht.2.1) ht.2.2 fun _ h => by cases h
    | some otherwise =>
      rw [Stmt.Grammatical] at ht
      refine putsOne_if (Stmt.acts ht.2.1.1) (hbody ht.2.1.1) ht.2.1.2.1 ?_
      rintro _ ⟨rfl⟩
      exact hotherwise _ rfl ht.2.2.1
  | while_ test body hbody =>
    rw [Stmt.Grammatical] at ht
    exact putsOne_while (Stmt.acts ht.2.1) (hbody ht.2.1) ht.2.2
  | doWhile body test hbody =>
    rw [Stmt.Grammatical] at ht
    exact putsOne_doWhile (Stmt.acts ht.2.1) (hbody ht.2.1) ht.2.2
  | for_ init test step body hinit hbody =>
    cases init with
    | none =>
      rw [Stmt.Grammatical] at ht
      exact putsOne_for (fun _ h => by cases h) (Stmt.acts ht.2.2.1) (hbody ht.2.2.1) ht.2.2.2
    | some init =>
      rw [Stmt.Grammatical] at ht
      refine putsOne_for ?_ (Stmt.acts ht.2.2.2.1) (hbody ht.2.2.2.1) ht.2.2.2.2
      rintro _ ⟨rfl⟩
      exact ⟨Stmt.acts ht.1.1, hinit _ rfl ht.1.1⟩
  | block body hbody =>
    rw [Stmt.Grammatical] at ht
    exact putsOne_block (scripts_of_acts fun s hs => Stmt.acts (ht.mem hs)) (putsAll fun s hs =>
      ⟨Stmt.acts (ht.mem hs), hbody s hs (ht.mem hs)⟩)

namespace Compile

variable {source : String} {heap : Heap} {outer : List Handle}

/-- The function of a script that compiles holds what the script is made of. -/
theorem holds_of_compile {h : Heap} {r : Handle} {body : List Stmt} (hs : heap.Sound)
    (hc : heap.Covers outer) (hspells : Spells body (sourceTokens source))
    (hdone : compile source heap outer = (.function r, h)) : h.Holds body r := by
  obtain ⟨body', s, f, hbody, hrun, hobject, hcompletes, hcode, horderly⟩ :=
    translated_of_compile hs hc hdone
  obtain rfl := hbody.unique hspells
  have hstart : (State.start source heap outer).site.Stands false (Function.visible .script []) :=
    ⟨rests_start, rfl, rfl⟩
  have hputs : PutsAll heap body' := putsAll fun t ht =>
    ⟨Stmt.acts (hspells.grammatical.mem ht), Stmt.puts (hspells.grammatical.mem ht)⟩
  obtain ⟨-, w, hadds, hw⟩ := hputs _ _ _ () s (steady_start hs hc) hstart hrun
  have hall := (hw _ hcompletes horderly).before_ (w := FunctionKind.finalReturn .script)
    hcompletes.pool
  have hwords : f.chunk.code.toList = w ++ FunctionKind.finalReturn .script := by
    rw [hcode, hadds.code]
    rfl
  exact ⟨f, hobject, hwords ▸ hall⟩

end Compile

namespace Machine

/-- Whatever compiles in a session, or on a heap without objects: wherever an expression of its
source stands, its words and constants are those that its tree is translated to, however it is
written. -/
theorem written_expressions_translated (settings : Settings) (journal : Journal) (sink : Sink) :
    (∀ m, Reached settings journal sink .resting m → ∀ source body r m',
      Spells body (sourceTokens source) → m.compile source = (.function r, m') →
        m'.heap.Holds body r) ∧
    ∀ source body r h, Spells body (sourceTokens source) →
      Compile.compile source (Heap.empty settings.pacing journal) [] = (.function r, h) →
        h.Holds body r := by
  refine ⟨fun m hm source body r m' hspells hdone => ?_, fun source body r h hspells hdone => ?_⟩
  · obtain ⟨W, O, hshows⟩ := hm.inPhase.shows
    obtain ⟨hresult, rfl⟩ := Prod.mk.inj hdone
    exact Compile.holds_of_compile hshows.sound (hshows.covers hshows.lists) hspells
      (Prod.ext hresult rfl)
  · exact Compile.holds_of_compile (Heap.sound_empty settings.pacing journal)
      (fun x hx => absurd hx Heap.not_reachable_nil) hspells hdone

/-- A method that copies its parameter to a local and adds a multiple of it to a property. -/
def sumMethod : Function :=
  ⟨"m", ["a"], [.let_ "b" (some (.group (.variable_ "a"))),
    .return_ (some (.binary (.arithmetic .add) (.group (.get .this "c"))
      (.binary (.arithmetic .multiply) (.variable_ "b") (.variable_ "a"))))]⟩

/-- The sum that a method returns, with a property of its receiver in parentheses. -/
theorem method_expression_translated : ∃ (r q : Handle) (h : Heap) (f : Prototype)
    (captures : List Capture) (around : List Level) (scope : Scope) (place : String → Access)
    (u v : List UInt32),
    Compile.compile "class A \x7b def m(a) \x7b let b = (a); return (this.c) + b * a; \x7d \x7d"
      (Heap.empty Pacing.standard Journal.off) [] = (.function r, h) ∧
    h.object? q = some (.function f) ∧ scope.names = ["b", "a", "this"] ∧
    (∀ name ∈ ["this", "b", "a"], Body.Finds ⟨h, .method, f.chunk.constants.toList, captures, around⟩
      scope name (place name)) ∧
    f.chunk.code.toList = u ++ [(place "this").get, .getProperty
      (Body.index ⟨h, .method, f.chunk.constants.toList, captures, around⟩ (.text "c")),
      (place "b").get, (place "a").get, .multiply, .add].map Instr.encode ++ v := by
  have hcompiles : (Compile.compile
      "class A \x7b def m(a) \x7b let b = (a); return (this.c) + b * a; \x7d \x7d"
      (Heap.empty Pacing.standard Journal.off) []).1.function?.isSome = true := by decide +kernel
  obtain ⟨r, hr⟩ := Option.isSome_iff_exists.mp hcompiles
  have hdone : Compile.compile
      "class A \x7b def m(a) \x7b let b = (a); return (this.c) + b * a; \x7d \x7d"
      (Heap.empty Pacing.standard Journal.off) [] = (.function r, _) :=
    Prod.ext (Compile.Result.function?_eq_some hr) rfl
  have hread : Token.areSame (Compile.sourceTokens
      "class A \x7b def m(a) \x7b let b = (a); return (this.c) + b * a; \x7d \x7d")
      (Stmt.listTokens [.class_ "A" none [sumMethod]]) = true := by decide +kernel
  have hgrammatical : sumMethod.Grammatical := by
    refine ⟨trivial, ⟨⟨⟨trivial, ?_⟩, ?_⟩, ⟨⟨trivial, ?_⟩, trivial, ?_⟩, ?_⟩, trivial⟩ <;> decide
  have hspells : Spells [.class_ "A" none [sumMethod]] (Compile.sourceTokens
      "class A \x7b def m(a) \x7b let b = (a); return (this.c) + b * a; \x7d \x7d") :=
    ⟨(Token.eq_of_areSame hread).symm, ⟨hgrammatical, trivial⟩, trivial⟩
  obtain ⟨g, -, hholds⟩ := (written_expressions_translated Settings.standard Journal.off
    Sink.unlimited).2 _ _ r _ hspells hdone
  obtain ⟨q, f, captures, scope, -, hobject, -, hbody⟩ := hholds.exists_function List.mem_cons_self
  obtain ⟨u, v, scope, place, -, hnames, hfound, hcode, -, -⟩ := hbody.exists_expression
    (List.mem_cons_of_mem _ List.mem_cons_self)
  exact ⟨r, q, _, f, captures, _, scope, place, u, v, hdone, hobject, hnames, hfound, hcode⟩

end Machine

end ScriptMachine
