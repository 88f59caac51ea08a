import ScriptMachine.Proofs.Scoping.Functions

/-!
# Statements and classes in a translation

What the statements of a list add is their code, one after the other. A class with a superclass has
a scope of its own around its methods, in which they find the superclass.
-/

namespace ScriptMachine

open Compile

namespace Compile

variable {before : Heap} {o : Nat} {P : Site → Prop} {name : String}

/-- What translating a statement adds, inside a scope or outside of all: it is code of the
statement, and unless the statement is a declaration, no local is new. -/
abbrev Acts (before : Heap) (t : Stmt) : Prop :=
  ∀ o, Makes before o Site.Rests t.translate fun B g _ w h =>
    g.Grows h ∧ (t.declares = false → g.Stays h) ∧
      t.Codes B g.scope (decide (0 < g.depth)) w h.scope

/-- Statements in their order. -/
theorem scripts_of_acts {body : List Stmt} (hbody : ∀ t ∈ body, Acts before t) :
    Scripts before body := by
  induction body with
  | nil =>
    intro o
    rw [Stmt.listTranslate]
    exact makes_pure fun B g _ => ⟨.refl g, .nil⟩
  | cons t body ih =>
    intro o
    obtain ⟨hfirst, hrest⟩ := List.forall_mem_cons.mp hbody
    rw [Stmt.listTranslate]
    refine (hfirst o).then_ (K := Site.Rests) (fun _ _ _ _ _ hg hv => hv.1.rests hg) fun _ v =>
      (ih hrest _).imp (fun _ => id) fun B g _ w h _ hw g₀ _ hv => ?_
    obtain ⟨hgrows, hcodes⟩ := hw
    obtain ⟨hgrows₀, -, hfirst⟩ := hv
    rw [hgrows₀.depth] at hcodes
    exact ⟨hgrows₀.trans hgrows, .cons hfirst hfirst.leads hcodes⟩

/-- A method is added to the class on top of the stack. -/
theorem makes_methods {methods : List Function}
    (hmethods : ∀ f ∈ methods, Scripts before f.body) :
    Makes before o Site.Rests (Function.listTranslate methods) fun B g _ w h =>
      g.Stays h ∧ Function.ListCodes B g.scope methods w h.scope := by
  induction methods generalizing o with
  | nil =>
    rw [Function.listTranslate]
    exact makes_pure fun B g _ => ⟨.refl g, .nil⟩
  | cons f methods ih =>
    obtain ⟨name, params, body⟩ := f
    obtain ⟨hfirst, hrest⟩ := List.forall_mem_cons.mp hmethods
    rw [Function.listTranslate]
    refine .advance <| .advance <| .finding gives_nameConstant fun k =>
      ((makes_function hfirst).weaken fun g h => h.settled).then_ (K := Site.Rests) ?_ fun _ v =>
        .emit <| (ih hrest).imp (fun _ => id) fun B g _ w h _ hw g₀ _ hv hk => ?_
    · rintro B g _ v _ hg ⟨captures, rfl, -⟩
      exact (g.stays_marked captures).grows.rests hg
    · obtain ⟨hstays, hcodes⟩ := hw
      obtain ⟨captures, rfl, hfunction⟩ := hv
      exact ⟨(g₀.stays_marked captures).trans hstays, .cons hk hfunction hcodes⟩

/-! ### Classes -/

/-- The name of a class is declared, and an empty class is its value. -/
theorem makes_classHead : Makes before o Site.Rests (do
      let constant ← nameConstant name
      declareVariable name
      emit (.class_ constant)
      defineVariable constant) fun B g _ w h => g.Grows h ∧ ∃ k define, B.Names k name ∧
        Binds B g.scope name (decide (0 < g.depth)) define h.scope ∧
          w = (Instr.class_ k).encode :: define := by
  refine .finding gives_nameConstant fun k => makes_declareVariable.then_ (K := fun _ => True)
    (fun _ _ _ _ _ _ _ => trivial) fun _ u => .emit <| makes_defineVariable.imp (fun _ => id)
      fun B g _ w h _ hw g₀ _ hu hk => ?_
  obtain ⟨rfl, ⟨hzero, rfl⟩ | ⟨hinside, span, rfl⟩⟩ := hu
  · rcases hw with ⟨hdepth, -⟩ | ⟨-, rfl, rfl⟩
    · omega
    · refine ⟨.refl _, k, _, hk, ?_, rfl⟩
      rw [decide_eq_false (by omega)]
      exact .global hk
  · rcases hw with ⟨-, rfl, rfl⟩ | ⟨hdepth, -⟩
    · refine ⟨Site.grows_declared hinside, k, [], hk, ?_, rfl⟩
      rw [decide_eq_true hinside, Site.initialized_declared hinside]
      exact .local_
    · exact absurd hdepth (Nat.ne_of_gt hinside)

/-- The place in a class that was begun at the place `f`: one with a superclass has its scope. -/
structure Site.Under (f : Site) (sup : Bool) (g : Site) : Prop where
  rests : g.Rests
  depth : g.depth = f.depth + sup.toNat
  arity : g.arity = f.arity
  classes : g.classes = sup :: f.classes
  locals : if sup then Deeper g.depth f.locals g.locals else LocalsLe f.locals g.locals

/-- A site under a class stays under it. -/
theorem Site.Under.stays {f g h : Site} {sup : Bool} (hg : f.Under sup g) (hh : g.Stays h) :
    f.Under sup h where
  rests := hh.grows.rests hg.rests
  depth := hh.depth.trans hg.depth
  arity := hh.arity.trans hg.arity
  classes := hh.classes.trans hg.classes
  locals := by
    have hlocals := hg.locals
    cases sup with
    | true => exact hh.depth ▸ Deeper.trans hlocals (.of_le hh.locals)
    | false => exact LocalsLe.trans hlocals hh.locals

/-- Noting a class makes no word. -/
theorem makes_modifyClasses {f : List Bool → List Bool} : Makes before o P
    (modify fun s => { s with classes := f s.classes } : Compiler Unit) fun _ g _ w h =>
      w = [] ∧ h = { g with classes := f g.classes } :=
  makes_resite (fun g => { g with classes := f g.classes })
    (fun s _ h => ⟨s.pos, (EStateM.Result.ok.inj h).2.symm⟩)
    (fun _ _ hfew hsettled => ⟨hfew, hsettled⟩) fun _ _ _ => ⟨rfl, rfl⟩

/-- Adding a local makes no word. -/
theorem makes_addLocal {span : Source.Span} : Makes before o Site.Rests (addLocal name span)
    fun _ g _ w h => w = [] ∧ h = g.declared name span := by
  intro s _ s' hs _ hp h
  obtain ⟨-, hroom, rfl⟩ := (does_addLocal hs.live).run h
  exact ⟨[], (State.Adds.refl hs).resite s.pos (g := s.site.declared name span) hp.settled hroom,
    fun B _ => ⟨rfl, rfl⟩⟩

/-- The superclass of a class is inherited from. -/
theorem makes_parent {f : Site} {parent : Option String} (hf : f.Rests) :
    Makes before o (· = { f with classes := false :: f.classes }) (translateParent name parent)
      fun B g _ w h => f.Under parent.isSome h ∧ ParentCodes B g.scope name parent w h.scope := by
  cases parent with
  | none =>
    rw [translateParent]
    refine makes_pure fun B g hg => ?_
    subst hg
    exact ⟨⟨hf, rfl, rfl, rfl, .refl _⟩, .none⟩
  | some parent =>
    rw [translateParent]
    refine .advance <| .advance <| Makes.then_ (K := Site.Rests) gives_readVariable.makes ?_
      fun _ u => makes_beginScope.then_ (K := Site.Rests) ?_ fun _ u₁ =>
        makes_addLocal.then_ (K := fun _ => True) (fun _ _ _ _ _ _ _ => trivial) fun _ u₂ =>
          makes_defineVariable.then_ (K := fun _ => True) (fun _ _ _ _ _ _ _ => trivial) fun _ u₃ =>
            Makes.then_ (K := fun _ => True) gives_readVariable.makes
              (fun _ _ _ _ _ _ _ => trivial) fun _ u₄ => .emit <|
                (makes_modifyClasses (f := fun classes => true :: classes.tail)).imp
                (fun _ => id) fun B g₅ _ w h _ hw g₄ _ h₄ g₃ _ h₃ g₂ _ h₂ g₁ _ h₁ g hg h₀ => ?_
    · rintro B g _ v _ hg ⟨rfl, -⟩
      subst hg
      exact hf
    · rintro B g _ v _ hg ⟨-, rfl⟩ l hl
      obtain ⟨k, hk, hlk⟩ := hg l hl
      exact ⟨k, Nat.le_succ_of_le hk, hlk⟩
    · subst hg
      obtain ⟨rfl, a, ha, rfl⟩ := h₀
      obtain ⟨rfl, rfl⟩ := h₁
      obtain ⟨rfl, rfl⟩ := h₂
      have hinside : 0 < f.depth + 1 := Nat.succ_pos _
      rcases h₃ with ⟨-, rfl, rfl⟩ | ⟨hzero, -⟩
      · obtain ⟨rfl, b, hb, rfl⟩ := h₄
        obtain ⟨rfl, rfl⟩ := hw
        rw [Site.initialized_declared hinside] at hb ⊢
        refine ⟨⟨?_, rfl, rfl, rfl, [_], f.locals, rfl, .refl _, by simp⟩, .some ha hb⟩
        intro l hl
        rcases List.mem_cons.mp hl with rfl | hl
        · exact ⟨_, Nat.le_refl _, rfl⟩
        · obtain ⟨k, hk, hlk⟩ := hf l hl
          exact ⟨k, Nat.le_succ_of_le hk, hlk⟩
      · exact absurd hzero (Nat.ne_of_gt hinside)

/-- The methods of a class are added to it. -/
theorem makes_members {f : Site} {sup : Bool} {methods : List Function}
    (hmethods : ∀ m ∈ methods, Scripts before m.body) : Makes before o (f.Under sup) (do
      readVariable name
      advance
      Function.listTranslate methods
      advance
      emit .pop) fun B g _ w h => f.Under sup h ∧ ∃ a v, B.Finds g.scope name a ∧
        Function.ListCodes B g.scope methods v h.scope ∧
          w = a.get.encode :: v ++ [Instr.pop.encode] := by
  refine Makes.then_ (K := f.Under sup) gives_readVariable.makes (fun _ _ _ _ _ hg h => h.1 ▸ hg)
    fun _ u => .advance <| ((makes_methods hmethods).weaken fun g h => h.rests).then_
      (K := fun _ => True) (fun _ _ _ _ _ _ _ => trivial) fun _ v => .advance <|
        makes_emit fun B g _ g₁ hg₁ hv g₀ hg₀ hu => ?_
  obtain ⟨rfl, a, ha, rfl⟩ := hu
  obtain ⟨hstays, hcodes⟩ := hv
  exact ⟨hg₁.stays hstays, a, v, ha, hcodes, rfl⟩

/-- The scope of a class with a superclass is ended. -/
theorem makes_classEnd {f : Site} {sup : Bool} (hf : f.Rests) : Makes before o (f.Under sup) (do
      let hasSuperclass ← look fun s => s.classes.head?.getD false
      modify fun s => { s with classes := s.classes.tail }
      if hasSuperclass then endScope) fun _ g _ w h =>
        f.Stays h ∧ w = g.scope.exit f.scope.length ∧ h.scope = g.scope.keep f.scope.length := by
  refine .look (f := fun g => g.classes.head?.getD false) (fun _ => rfl) fun hasSuperclass => ?_
  by_cases hsame : hasSuperclass = sup
  · subst hsame
    cases hasSuperclass with
    | false =>
      refine (makes_modifyClasses (f := List.tail)).then_ (K := fun _ => True)
        (fun _ _ _ _ _ _ _ => trivial) fun _ u => makes_pure fun B g _ g₀ hg₀ hu => ?_
      obtain ⟨rfl, rfl⟩ := hu
      have hlength : g₀.scope.length = f.scope.length := by
        rw [Site.scope, length_scopeOf hg₀.1.rests.settled, Site.scope,
          length_scopeOf hf.settled]
        exact (show LocalsLe _ _ from hg₀.1.locals).length_eq.symm
      have hclasses : g₀.classes.tail = f.classes := by rw [hg₀.1.classes]; rfl
      refine ⟨⟨hg₀.1.depth, hg₀.1.arity, hclasses, hg₀.1.locals⟩, ?_, ?_⟩
      · simp [Scope.exit, hlength]
      · show g₀.scope = _
        simp [Scope.keep, hlength]
    | true =>
      refine (makes_modifyClasses (f := List.tail)).then_
        (K := fun g => f.Rests ∧ g.depth = f.depth + 1 ∧ Deeper g.depth f.locals g.locals)
        ?_ fun _ u => makes_endScope.imp (fun _ => id) fun B g _ w h _ hw g₀ hg₀ hu => ?_
      · rintro B g _ v _ ⟨hg, -⟩ ⟨-, rfl⟩
        exact ⟨hf, hg.depth, hg.locals⟩
      · obtain ⟨rfl, rfl⟩ := hu
        obtain ⟨rfl, hscope, hdepth, harity, hclasses, hlocals⟩ := hw
        refine ⟨⟨hdepth, harity.trans hg₀.1.arity, hclasses.trans ?_, hlocals⟩, rfl, hscope⟩
        show g₀.classes.tail = f.classes
        rw [hg₀.1.classes]
        rfl
  · intro s _ s' _ _ hp _
    refine absurd ?_ hsame
    rw [← hp.2, hp.1.classes]
    rfl

end Compile

end ScriptMachine
