import ScriptMachine.Proofs.Compile.Placing
import ScriptMachine.Proofs.Compile.Script

/-!
# Scenes

What a name, `this` or `super` stands for depends on the functions in the making, with their
locals and the depths of their scopes, and on the classes around: the scene of a state. A scene
lies over another one if functions, classes and locals were only put on top of it. From every such
state, whatever a failed declaration left on top, going on after the error leads back to the scene
in which the declaration started.
-/

namespace ScriptMachine.Compile

variable {s s₀ s' : State} {name : String}

/-! ### What names see -/

/-- A local as names see it. -/
structure Local.Facts where
  name : String
  span : Source.Span
  depth : Option Nat

def Local.facts (l : Local) : Local.Facts := ⟨l.name, l.span, l.depth⟩

/-- A function in the making as names see it. -/
structure Sketch where
  kind : FunctionKind
  name : Option Handle
  scopeDepth : Nat
  locals : List Local.Facts

def Draft.sketch (d : Draft) : Sketch := ⟨d.kind, d.name, d.scopeDepth, d.locals.map Local.facts⟩

/-- The tokens, and what names in them are resolved in: the current function, the functions around
it and the classes, and how deep the forms are nested. -/
structure Scene where
  tokens : Array Lexeme
  current : Sketch
  around : List Sketch
  classes : List Bool
  nesting : Nat

def State.scene (s : State) : Scene :=
  ⟨s.tokens, s.draft.sketch, s.enclosing.map Draft.sketch, s.classes, s.nesting⟩

namespace Scene

/-- The functions of a scene, the innermost first. -/
def functions (c : Scene) : List Sketch := c.current :: c.around

/-- The scene with more locals in its current function. -/
def gain (new : List Local.Facts) (c : Scene) : Scene :=
  { c with current := { c.current with locals := new ++ c.current.locals } }

/-- The scene with a local if it is not the outermost one, where names are global. -/
def declare (b : Local.Facts) (c : Scene) : Scene :=
  if 0 < c.current.scopeDepth then c.gain [b] else c

/-- The scene in a new scope. -/
def inside (c : Scene) : Scene :=
  { c with current := { c.current with scopeDepth := c.current.scopeDepth + 1 } }

/-- The scene after the end of a scope. -/
def leave (c : Scene) : Scene :=
  { c with current := { c.current with
    scopeDepth := c.current.scopeDepth - 1
    locals := c.current.locals.dropWhile
      fun b => b.depth.any (c.current.scopeDepth - 1 < ·) } }

/-- The scene in a new function. -/
def enter (kind : FunctionKind) (r : Handle) (c : Scene) : Scene :=
  { c with current := (Draft.start kind (some r)).sketch, around := c.functions }

/-- The scene after the current function. -/
def popped (c : Scene) : Scene :=
  match c.around with
  | [] => c
  | outer :: around => { c with current := outer, around := around }

/-- The scene one form further in. -/
def deeper (c : Scene) : Scene := { c with nesting := c.nesting + 1 }

/-- Functions, classes and locals were only put on top of those of `base`. -/
structure Over (base c : Scene) : Prop where
  functions : ∃ upper f, c.functions = upper ++ f :: base.around ∧ f.kind = base.current.kind ∧
    f.name = base.current.name ∧ base.current.locals <:+ f.locals
  classes : base.classes <:+ c.classes
  tokens : c.tokens = base.tokens
  nesting : c.nesting = base.nesting

variable {base c c' : Scene}

/-- Every scene has itself below. -/
theorem Over.refl (c : Scene) : c.Over c :=
  ⟨⟨[], c.current, rfl, rfl, rfl, List.suffix_rfl⟩, List.suffix_rfl, rfl, rfl⟩

/-- The same scene is below. -/
theorem Over.of_eq (h : c = base) : base.Over c := h ▸ .refl _

/-- What is below of what is below is below. -/
theorem Over.trans (h : base.Over c) (h' : c.Over c') : base.Over c' := by
  obtain ⟨upper, f, hf, hkind, hname, hseen⟩ := h.functions
  obtain ⟨upper', f', hf', hkind', hname', hseen'⟩ := h'.functions
  refine ⟨?_, h.classes.trans h'.classes, h'.tokens.trans h.tokens, h'.nesting.trans h.nesting⟩
  cases upper with
  | nil =>
    -- the function of `base` is the current one of `c`
    obtain ⟨hcurrent, haround⟩ := List.cons.inj hf
    refine ⟨upper', f', by rw [hf', haround], ?_, ?_, ?_⟩
    · rw [hkind', hcurrent, hkind]
    · rw [hname', hcurrent, hname]
    · exact hseen.trans (hcurrent ▸ hseen')
  | cons g upper =>
    obtain ⟨-, haround⟩ := List.cons.inj hf
    refine ⟨upper' ++ f' :: upper, f, ?_, hkind, hname, hseen⟩
    rw [hf', haround, List.append_assoc]
    rfl

/-- New locals leave the scene below. -/
theorem Over.gain (h : base.Over c) (new : List Local.Facts) : base.Over (c.gain new) :=
  h.trans ⟨⟨[], _, rfl, rfl, rfl, List.suffix_append _ _⟩, List.suffix_rfl, rfl, rfl⟩

/-- A declared name leaves the scene below. -/
theorem Over.declare (h : base.Over c) (b : Local.Facts) : base.Over (c.declare b) := by
  unfold Scene.declare
  split
  · exact h.gain _
  · exact h

/-- The depth of the current scope does not matter. -/
theorem Over.rescope (h : base.Over c) (depth : Nat) :
    base.Over { c with current := { c.current with scopeDepth := depth } } :=
  h.trans ⟨⟨[], _, rfl, rfl, rfl, List.suffix_rfl⟩, List.suffix_rfl, rfl, rfl⟩

/-- A new scope leaves the scene below. -/
theorem Over.inside (h : base.Over c) : base.Over c.inside := h.rescope _

/-- A new function leaves the scene below. -/
theorem Over.enter (h : base.Over c) (kind : FunctionKind) (r : Handle) :
    base.Over (c.enter kind r) :=
  h.trans ⟨⟨[_], c.current, rfl, rfl, rfl, List.suffix_rfl⟩, List.suffix_rfl, rfl, rfl⟩

/-- New classes leave the scene below. -/
theorem Over.reclass (h : base.Over c) {classes : List Bool} (hclasses : base.classes <:+ classes) :
    base.Over { c with classes := classes } := ⟨h.functions, hclasses, h.tokens, h.nesting⟩

/-- What lies over a scene one form further in lies over it when the form is left. -/
theorem Over.shallower {s s' : State} (h : s.deeper.scene.Over s'.scene) :
    s.scene.Over s'.shallower.scene :=
  ⟨h.functions, h.classes, h.tokens, congrArg (· - 1) h.nesting⟩

/-- Locals may be gained one after the other or together. -/
theorem gain_gain (c : Scene) (new more : List Local.Facts) :
    (c.gain new).gain more = c.gain (more ++ new) := by
  simp [gain]

/-- The locals of a scope are left at its end, those around it stay. -/
theorem leave_gain {new : List Local.Facts}
    (hnew : ∀ b ∈ new, b.depth = some (c.current.scopeDepth + 1))
    (hold : ∀ b ∈ c.current.locals, ∀ k, b.depth = some k → k ≤ c.current.scopeDepth) :
    (c.inside.gain new).leave = c := by
  have hdrop : (new ++ c.current.locals).dropWhile
      (fun b => b.depth.any (c.current.scopeDepth < ·)) = c.current.locals := by
    rw [List.dropWhile_append_of_pos fun b hb => by simp [hnew b hb]]
    cases hc : c.current.locals with
    | nil => rfl
    | cons b rest =>
      refine List.dropWhile_cons_of_neg ?_
      cases hb : b.depth with
      | none => simp
      | some k =>
        have := hold b (hc ▸ List.mem_cons_self) k hb
        simpa using this
  simp only [leave, gain, inside, Nat.add_sub_cancel, hdrop]

end Scene

/-! ### Lookups -/

/-- What names see of the locals decides what a name finds. -/
theorem Local.find?_congr {ls ms : List Local} (h : ls.map Local.facts = ms.map Local.facts) :
    Local.find? name ls = Local.find? name ms := by
  induction ls generalizing ms with
  | nil =>
    obtain rfl := List.map_eq_nil_iff.mp h.symm
    rfl
  | cons l ls ih =>
    cases ms with
    | nil => cases h
    | cons m ms =>
      obtain ⟨hfacts, hrest⟩ := List.cons.inj h
      obtain ⟨hname, -, hdepth⟩ := Local.Facts.mk.inj hfacts
      have hlength : ls.length = ms.length := by
        rw [← List.length_map Local.facts, hrest, List.length_map]
      rw [Local.find?, Local.find?, hname, hdepth, hlength, ih hrest]

/-- Scenes decide what a name finds in each of the functions. -/
theorem State.finds_congr (h : s'.scene = s.scene) (name : String) :
    s'.drafts.map (fun d => Local.find? name d.locals) =
      s.drafts.map fun d => Local.find? name d.locals := by
  have hdrafts : s'.drafts.map Draft.sketch = s.drafts.map Draft.sketch :=
    congrArg Scene.functions h
  have hlength : s'.drafts.length = s.drafts.length := by
    rw [← List.length_map Draft.sketch, hdrafts, List.length_map]
  refine List.ext_getElem (by simp [hlength]) fun i hi hi' => ?_
  simp only [List.length_map] at hi hi'
  have hsketch : s'.drafts[i].sketch = s.drafts[i].sketch := by
    have hget := List.getElem_of_eq hdrafts (i := i) (by simpa using hi)
    simpa using hget
  simp only [List.getElem_map]
  exact Local.find?_congr (congrArg Sketch.locals hsketch)

/-! ### Steps -/

/-- A change of the code alone leaves the sketch. -/
theorem Draft.sketch_eq {d d' : Draft} (h : d.Recoded d') : d'.sketch = d.sketch := by
  rw [Draft.sketch, Draft.sketch, h.kind, h.name, h.scopeDepth, h.locals]

/-- Whether locals are captured is no fact of the scene. -/
theorem Local.facts_markCaptured (name : String) (ls : List Local) :
    (Local.markCaptured name ls).map Local.facts = ls.map Local.facts := by
  induction ls with
  | nil => rfl
  | cons l ls ih =>
    rw [Local.markCaptured]
    split
    · rfl
    · rw [List.map_cons, List.map_cons, ih]

/-- A capture leaves the sketch. -/
theorem Draft.sketch_addCapture (d : Draft) (c : Capture) :
    (d.addCapture c).2.sketch = d.sketch := by
  unfold Draft.addCapture
  split
  · rfl
  · split <;> rfl

/-- Captures change nothing of what names see. -/
theorem Draft.sketch_resolveCapture (name : String) (inner : Draft) (around : List Draft) :
    (Draft.resolveCapture name inner around).2.1.sketch = inner.sketch ∧
      (Draft.resolveCapture name inner around).2.2.map Draft.sketch = around.map Draft.sketch := by
  induction around generalizing inner with
  | nil => exact ⟨rfl, rfl⟩
  | cons outer rest ih =>
    rw [Draft.resolveCapture]
    split
    · exact ⟨rfl, rfl⟩
    · refine ⟨Draft.sketch_addCapture _ _, ?_⟩
      simp only [List.map_cons, Draft.sketch, Local.facts_markCaptured]
    · split
      · next i outer' rest' heq =>
        obtain ⟨houter, hrest⟩ := ih outer
        rw [heq] at houter hrest
        refine ⟨Draft.sketch_addCapture _ _, ?_⟩
        rw [List.map_cons, List.map_cons, houter, hrest]
      · next result outer' rest' _ heq =>
        obtain ⟨houter, hrest⟩ := ih outer
        rw [heq] at houter hrest
        refine ⟨rfl, ?_⟩
        rw [List.map_cons, List.map_cons, houter, hrest]

/-- The locals that are left at the end of a scope are the latest ones. -/
theorem Local.facts_leave (depth : Nat) (ls : List Local) :
    (Local.leave depth ls).2.map Local.facts =
      (ls.map Local.facts).dropWhile fun b => b.depth.any (depth < ·) := by
  induction ls with
  | nil => rfl
  | cons l ls ih =>
    rw [Local.leave, List.map_cons, List.dropWhile_cons]
    by_cases hl : l.depth.any (depth < ·) = true
    · rw [if_pos hl, if_pos (show l.facts.depth.any (depth < ·) = true from hl)]
      exact ih
    · rw [if_neg hl, if_neg (show ¬ l.facts.depth.any (depth < ·) = true from hl)]
      rfl

/-- The local declared last is initialized at the depth of its scope. -/
theorem State.scene_initialized {c : Scene} {span : Source.Span} {depth : Option Nat}
    (h : s.scene = c.declare ⟨name, span, depth⟩) :
    s.initialized.scene = c.declare ⟨name, span, some c.current.scopeDepth⟩ := by
  have hdepth : s.draft.scopeDepth = c.current.scopeDepth := by
    have hscope := congrArg (fun c : Scene => c.current.scopeDepth) h
    unfold Scene.declare at hscope
    split at hscope <;> exact hscope
  unfold Scene.declare at h ⊢
  split at h
  · next hinside =>
    have hseen := congrArg (fun c : Scene => c.current.locals) h
    obtain ⟨l, rest, hlocals, hl, hrest⟩ := List.map_eq_cons_iff.mp hseen
    obtain ⟨hname, hspan, -⟩ := Local.Facts.mk.inj hl
    rw [State.initialized, markInitialized_inside (hdepth ▸ hinside) hlocals, if_pos hinside]
    calc State.scene _ = { s.scene with current := { s.scene.current with
          locals := ⟨l.name, l.span, some s.draft.scopeDepth⟩ :: rest.map Local.facts } } := rfl
      _ = c.gain [⟨name, span, some c.current.scopeDepth⟩] := by
        rw [h, hname, hspan, hrest, hdepth]
        rfl
  · next houtside =>
    have hzero : s.draft.scopeDepth = 0 := by omega
    rw [State.initialized, markInitialized_zero hzero, if_neg houtside]
    exact h

/-! ### Going on after an error -/

/-- The last elements are those behind. -/
theorem keepLast_append {α : Type} (xs ys : List α) : keepLast ys.length (xs ++ ys) = ys := by
  simp [keepLast]

/-- What is kept of a list that has grown in front is the list. -/
theorem keepLast_suffix {α : Type} {xs ys : List α} (h : xs <:+ ys) :
    keepLast xs.length ys = xs := by
  obtain ⟨front, rfl⟩ := h
  exact keepLast_append front xs

/-- Recovering gets back to the scene where the checkpoint was taken. -/
theorem State.recover_scene (h : s₀.scene.Over s.scene) (e : CompileError) :
    (s.recover e s₀.checkpoint).scene = s₀.scene := by
  obtain ⟨heap, errors, -, -, -, hreport⟩ := s.report_eq e
  obtain ⟨upper, f, hfunctions, hkind, hname, hseen⟩ := h.functions
  -- the drafts that are kept
  obtain ⟨top, kept, hdrafts, -, hkept⟩ := List.map_eq_append_iff.mp
    (show s.drafts.map Draft.sketch = upper ++ f :: s₀.enclosing.map Draft.sketch from hfunctions)
  obtain ⟨d, ds, rfl, hd, hds⟩ := List.map_eq_cons_iff.mp hkept
  have hdepth : s₀.checkpoint.depth = (d :: ds).length := by
    have hlength : ds.length = s₀.enclosing.length := by
      rw [← List.length_map Draft.sketch, hds, List.length_map]
    rw [List.length_cons, hlength]
    rfl
  have hkeep : (s.report e).keepDrafts s₀.checkpoint.depth =
      { s.report e with draft := d, enclosing := ds } := by
    have hsame : (s.report e).draft :: (s.report e).enclosing = top ++ d :: ds := by
      rw [hreport]
      exact hdrafts
    rw [State.keepDrafts, hsame, hdepth, keepLast_append]
  have hclasses : keepLast s₀.classes.length s.classes = s₀.classes := keepLast_suffix h.classes
  have hlocals : (keepLast s₀.draft.locals.length d.locals).map Local.facts =
      s₀.draft.locals.map Local.facts := by
    have hsuffix : s₀.draft.locals.map Local.facts <:+ d.locals.map Local.facts := by
      rw [show d.locals.map Local.facts = f.locals from congrArg Sketch.locals hd]
      exact hseen
    have hmap := keepLast_suffix hsuffix
    rw [List.length_map, keepLast, List.length_map] at hmap
    rw [keepLast, List.map_drop, hmap]
  unfold State.recover
  rw [hkeep, hreport]
  have hkinds : d.kind = s₀.draft.kind ∧ d.name = s₀.draft.name :=
    ⟨(congrArg Sketch.kind hd).trans hkind, (congrArg Sketch.name hd).trans hname⟩
  calc State.scene _ = ⟨s.tokens, ⟨d.kind, d.name, s₀.draft.scopeDepth,
          (keepLast s₀.draft.locals.length d.locals).map Local.facts⟩,
        ds.map Draft.sketch, keepLast s₀.classes.length s.classes, s.nesting⟩ := rfl
    _ = s₀.scene := by
      rw [hkinds.1, hkinds.2, hlocals, hds, hclasses, show s.tokens = s₀.tokens from h.tokens,
        show s.nesting = s₀.nesting from h.nesting]
      rfl

end ScriptMachine.Compile
