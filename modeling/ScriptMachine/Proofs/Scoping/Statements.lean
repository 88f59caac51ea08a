import ScriptMachine.Proofs.Scoping.Classes

/-!
# The code of statements

What translating a grammatical statement adds is code of the statement: every variable is found
from the scope where its name stands, every scope takes its own locals off the stack, and each
statement starts with the stack as high as the scope is long.
-/

namespace ScriptMachine

open Compile

namespace Compile

variable {before : Heap} {o start : Nat} {P : Site → Prop} {name : String}

/-! ### Scopes -/

/-- What is between the beginning and the end of a scope. -/
theorem makes_scoped {x : Compiler Unit} {S : Body → Site → List UInt32 → Site → Prop}
    (hx : Makes before o Site.Rests x fun B g _ w h => g.Grows h ∧ S B g w h) :
    Makes before o Site.Rests (do
      beginScope
      x
      endScope) fun B g _ w h => g.Stays h ∧ ∃ v f : _, S B { g with depth := g.depth + 1 } v f ∧
        w = v ++ f.scope.exit g.scope.length ∧ h.scope = f.scope.keep g.scope.length := by
  refine .at_ fun f hf => makes_beginScope.silent (K := (· = { f with depth := f.depth + 1 }))
    (fun _ _ _ _ hg h => hg ▸ h) fun _ => (hx.weaken ?_).then_
      (K := fun g => f.Rests ∧ g.depth = f.depth + 1 ∧ Deeper g.depth f.locals g.locals) ?_
      fun _ v => makes_endScope.imp (fun _ => id) fun B g _ w h _ hw g₁ hg₁ hv g₀ hg₀ _ => ?_
  · rintro g rfl l hl
    obtain ⟨k, hk, hlk⟩ := hf l hl
    exact ⟨k, Nat.le_succ_of_le hk, hlk⟩
  · rintro B g _ v h rfl ⟨hgrows, -⟩
    exact ⟨hf, hgrows.depth, hgrows.depth ▸ hgrows.locals⟩
  · subst hg₀ hg₁
    obtain ⟨rfl, hscope, hdepth, harity, hclasses, hlocals⟩ := hw
    exact ⟨⟨hdepth, harity.trans hv.1.arity, hclasses.trans hv.1.classes, hlocals⟩, v, g, hv.2,
      rfl, hscope⟩

/-- A value is taken off the stack first. -/
theorem makes_after_pop {x : Compiler Unit} {Q : Body → Site → Unit → List UInt32 → Site → Prop}
    (hx : Makes before (o + 1) P x Q) : Makes before o P (do
      emit .pop
      x) fun B g _ w h => ∃ v, Q B g () v h ∧ w = Instr.pop.encode :: v :=
  .emit <| hx.imp (fun _ => id) fun _ _ _ w _ _ hw => ⟨w, hw, rfl⟩

/-! ### Loops -/

/-- What a counting loop does after its body is jumped over first. -/
theorem translateStep_some {e : Expr} : translateStep start (some e) = (do
    let body ← emitJump .jump
    let step ← (do
      let step ← here
      e.translate
      emit .pop
      advance
      emitLoop start
      return step)
    patchJump body
    return step) := by
  simp [translateStep]

/-- A counting loop without a condition. -/
theorem translate_untested {step : Option Expr} {body : Compiler Unit} : (do
    let stop ← translateTest none
    let back ← translateStep start step
    body
    emitLoop back
    translateExit stop) = (do
      advance
      let back ← translateStep start step
      body
      emitLoop back) := by
  simp [translateTest, translateExit]

/-- A counting loop with a condition. -/
theorem translate_tested {test : Expr} {step : Option Expr} {body : Compiler Unit} : (do
    let stop ← translateTest (some test)
    let back ← translateStep start step
    body
    emitLoop back
    translateExit stop) = (do
      test.translate
      advance
      skipping do
        emit .pop
        let back ← translateStep start step
        body
        emitLoop back
      emit .pop) := by
  simp [translateTest, translateExit, skipping]

/-- What a counting loop does after its body. -/
theorem makes_step {step : Option Expr} (hstart : start ≤ o) :
    Makes before o P (translateStep start step) fun B g back w h => h = g ∧
      ∃ distance, StepCodes B g.scope (o - start) step w distance ∧
        back + distance = o + w.length := by
  cases step with
  | none =>
    rw [translateStep]
    exact .advance <| makes_pure fun B g _ => ⟨rfl, _, .none, by simp; omega⟩
  | some e =>
    rw [translateStep_some]
    have hinner : Makes before (o + 1) P (do
        let step ← here
        e.translate
        emit .pop
        advance
        emitLoop start
        return step) fun B g a w h => h = g ∧ a = o + 1 ∧ ∃ (v : List UInt32) (d : UInt16),
          e.Codes B g.scope v ∧ d.toNat = o - start + v.length + 3 ∧
            w = v ++ [Instr.pop.encode, (Instr.loop d).encode] := by
      refine .here <| Makes.then_ (K := fun _ => True) e.codifies.makes
        (fun _ _ _ _ _ _ _ => trivial) fun _ v => .emit <| .advance <| makes_emitLoop.then_
          (K := fun _ => True) (fun _ _ _ _ _ _ _ => trivial) fun _ u =>
            makes_pure fun B g _ g₁ _ hu g₀ _ hv => ?_
      obtain ⟨rfl, hcodes⟩ := hv
      obtain ⟨rfl, d, hd, rfl⟩ := hu
      exact ⟨rfl, rfl, v, d, hcodes, by omega, by simp⟩
    refine (makes_over .jump hinner).imp (fun _ => id) fun B g a w h _ hw => ?_
    obtain ⟨_, d, ⟨rfl, rfl, v, d', hcodes, hback, rfl⟩, hskip, rfl⟩ := hw
    refine ⟨rfl, v.length + 2, .some hcodes (by simpa using hskip) hback, ?_⟩
    simp
    omega

/-- The body of a counting loop, and what the loop does after it. -/
theorem makes_turn {step : Option Expr} {body : Stmt} (hstart : start ≤ o)
    (hbody : Acts before body) (hdeclares : body.declares = false) :
    Makes before o Site.Rests (do
      let back ← translateStep start step
      body.translate
      emitLoop back) fun B g _ w h => g.Stays h ∧ ∃ (u v : List UInt32) (back : Nat) (d : UInt16),
        StepCodes B g.scope (o - start) step u back ∧
          body.Codes B g.scope (decide (0 < g.depth)) v h.scope ∧
            d.toNat = back + v.length + 1 ∧ w = u ++ v ++ [(Instr.loop d).encode] := by
  refine (makes_step hstart).then_ (K := Site.Rests) (fun _ _ _ _ _ hg h => h.1 ▸ hg) fun back u =>
    (hbody _).then_ (K := fun _ => True) (fun _ _ _ _ _ _ _ => trivial) fun _ v =>
      makes_emitLoop.imp (fun _ => id) fun B g _ w h _ hw g₁ _ hv g₀ _ hu => ?_
  obtain ⟨rfl, d, hd, rfl⟩ := hw
  obtain ⟨-, hstays, hcodes⟩ := hv
  obtain ⟨rfl, distance, hstep, hback⟩ := hu
  exact ⟨hstays hdeclares, u, v, distance, d, hstep, hcodes, by omega, by simp⟩

/-- A counting loop after its beginning. -/
theorem makes_loop {test step : Option Expr} {body : Stmt}
    (hbody : Acts before body) (hdeclares : body.declares = false) :
    Makes before o Site.Rests (do
      let start ← here
      let stop ← translateTest test
      let back ← translateStep start step
      body.translate
      emitLoop back
      translateExit stop) fun B g _ w h => g.Stays h ∧
        ∃ (T X u v : List UInt32) (back : Nat) (d : UInt16),
          TestCodes B g.scope (u.length + v.length + 1) test T X ∧
            StepCodes B g.scope T.length step u back ∧
              body.Codes B g.scope (decide (0 < g.depth)) v h.scope ∧
                d.toNat = back + v.length + 1 ∧ w = T ++ u ++ v ++ (Instr.loop d).encode :: X := by
  refine .here ?_
  cases test with
  | none =>
    rw [translate_untested]
    refine .advance <| (makes_turn (Nat.le_refl o) hbody hdeclares).imp (fun _ => id)
      fun B g _ w h _ hw => ?_
    obtain ⟨hstays, u, v, back, d, hstep, hcodes, hd, rfl⟩ := hw
    rw [Nat.sub_self] at hstep
    exact ⟨hstays, [], [], u, v, back, d, .none, hstep, hcodes, hd, rfl⟩
  | some test =>
    rw [translate_tested]
    refine Makes.then_ (K := Site.Rests) test.codifies.makes (fun _ _ _ _ _ hg h => h.1 ▸ hg)
      fun _ t => .advance <| (makes_skipping (makes_after_pop (makes_turn (by omega) hbody
        hdeclares))).then_ (K := fun _ => True) (fun _ _ _ _ _ _ _ => trivial)
          fun _ w => makes_emit fun B g _ g₁ _ hw g₀ _ ht => ?_
    obtain ⟨rfl, hcodes⟩ := ht
    obtain ⟨_, d₁, ⟨_, ⟨hstays, u, v, back, d, hstep, hbody, hd, rfl⟩, rfl⟩, hleave, rfl⟩ := hw
    rw [show o + t.length + 1 + 1 - o = (t ++ [(Instr.jumpIfFalse d₁).encode,
      Instr.pop.encode]).length by simp; omega] at hstep
    exact ⟨hstays, _, [Instr.pop.encode], u, v, back, d, .some hcodes
      (by simp at hleave; omega), hstep, hbody, hd, by simp⟩

/-! ### Statements -/

/-- A condition in parentheses. -/
theorem gives_condition {test : Expr} : Gives before o test.translateCondition
    fun B scope _ w => test.Codes B scope w := by
  rw [Expr.translateCondition]
  refine .advance <| test.codifies.then_ fun _ v => makes_advance fun B g _ => ⟨rfl, fun hv => ?_⟩
  rwa [List.append_nil]

/-- A statement that adds no local. -/
theorem Site.Stays.acts {B : Body} {g h : Site} {t : Stmt} {w : List UInt32} (hstays : g.Stays h)
    (hcodes : t.Codes B g.scope (decide (0 < g.depth)) w h.scope) : g.Grows h ∧
      (t.declares = false → g.Stays h) ∧ t.Codes B g.scope (decide (0 < g.depth)) w h.scope :=
  ⟨hstays.grows, fun _ => hstays, hcodes⟩

/-- A variable declaration has the code of its tree. -/
theorem acts_let {init : Option Expr} : Acts before (.let_ name init) := by
  intro o
  have hdone {x : Compiler Unit} {S : Body → Scope → Unit → List UInt32 → Prop}
      (hx : ∀ o', Gives before o' x S) (hS : ∀ B scope v define scope' inside, S B scope () v →
        Binds B scope name inside define scope' →
          (Stmt.let_ name init).Codes B scope inside (v ++ define) scope') :
      Makes before o Site.Rests (do
        advance
        let global ← bindName name
        x
        defineVariable global) fun B g _ w h => g.Grows h ∧ ((Stmt.let_ name init).declares = false →
          g.Stays h) ∧ (Stmt.let_ name init).Codes B g.scope (decide (0 < g.depth)) w h.scope :=
    .advance <| (makes_binding hx).imp (fun _ => id) fun B g _ w h _ hw => by
      obtain ⟨hgrows, v, define, hv, hbinds, rfl⟩ := hw
      exact ⟨hgrows, nofun, hS B g.scope v define h.scope _ hv hbinds⟩
  cases init with
  | none =>
    have := hdone (x := do emit .null; advance) (S := fun _ _ _ v => v = [Instr.null.encode])
      (fun _ => Gives.then_ (gives_emit (S := fun _ _ _ v => v = [Instr.null.encode])
        fun _ _ => rfl) fun _ v => makes_advance fun B g _ => ⟨rfl, fun hv => by simpa using hv⟩)
      fun B scope v define scope' inside hv hbinds => hv ▸ .declare hbinds
    simpa [Stmt.translate] using this
  | some e =>
    have := hdone (x := do advance; e.translate; advance) (S := fun B scope _ v => e.Codes B scope v)
      (fun _ => .advance <| e.codifies.then_ fun _ v => makes_advance fun B g _ =>
        ⟨rfl, fun hv => by simpa using hv⟩)
      fun B scope v define scope' inside hv hbinds => .define hv hbinds
    simpa [Stmt.translate] using this

/-- A function declaration has the code of its tree, if its body has. -/
theorem acts_def {params : List String} {body : List Stmt} (hbody : Scripts before body) :
    Acts before (.def_ ⟨name, params, body⟩) := by
  intro o
  rw [Stmt.translate]
  refine .advance <| makes_bindName.silent (K := fun g => Settled g.initialized.locals) ?_ fun k =>
    makes_markInitialized.silent (K := fun g => Settled g.locals) (fun _ _ _ _ hg h => h ▸ hg)
      fun _ => (makes_function hbody).then_ (K := fun _ => True) (fun _ _ _ _ _ _ _ => trivial)
        fun _ v => makes_defineVariable.imp (fun _ => id) fun B g _ w h _ hw g₂ _ hv g₁ _ h₁ g₀ hg₀ h₀ =>
          ?_
  · rintro B g k h hg (⟨hzero, rfl, -⟩ | ⟨hinside, span, rfl⟩)
    · rw [Site.initialized, if_pos hzero]
      exact hg.settled
    · exact ((Site.grows_declared hinside).rests hg).settled
  · subst h₁
    obtain ⟨captures, rfl, hfunction⟩ := hv
    rcases h₀ with ⟨hzero, rfl, hk⟩ | ⟨hinside, span, rfl⟩
    · have hsame : g₁.initialized = g₁ := if_pos hzero
      rw [hsame] at hw hfunction
      rcases hw with ⟨hdepth, -⟩ | ⟨-, rfl, rfl⟩
      · exact absurd hzero (Nat.ne_of_gt hdepth)
      · refine ⟨(g₁.stays_marked captures).grows, (fun h => by cases h), ?_⟩
        rw [decide_eq_false (by omega)]
        exact .def_ (.global hk) hfunction
    · rw [Site.initialized_declared hinside] at hw hfunction
      rcases hw with ⟨-, rfl, rfl⟩ | ⟨hdepth, -⟩
      · have hsame := Site.initialized_inside (g := Site.marked { g₀ with locals :=
          ⟨name, span, some g₀.depth, false⟩ :: g₀.locals } captures) hinside rfl
        rw [hsame]
        refine ⟨?_, (fun h => by cases h), ?_⟩
        · have hgrows : g₀.Grows (g₀.declared name span).initialized := Site.grows_declared hinside
          rw [Site.initialized_declared hinside] at hgrows
          exact hgrows.trans (Site.stays_marked captures).grows
        · rw [decide_eq_true hinside]
          exact .def_ .local_ hfunction
      · exact absurd hdepth (Nat.ne_of_gt hinside)

/-- A class in parts: its name and value, its superclass, its methods and its end. -/
theorem translate_class {parent : Option String} {methods : List Function} :
    (Stmt.class_ name parent methods).translate = (do
      advance
      advance
      (do
        let constant ← nameConstant name
        declareVariable name
        emit (.class_ constant)
        defineVariable constant)
      modify fun s => { s with classes := false :: s.classes }
      translateParent name parent
      (do
        readVariable name
        advance
        Function.listTranslate methods
        advance
        emit .pop)
      (do
        let hasSuperclass ← look fun s => s.classes.head?.getD false
        modify fun s => { s with classes := s.classes.tail }
        if hasSuperclass then endScope)) := by
  simp [Stmt.translate]

/-- A class declaration has the code of its tree, if its methods have. -/
theorem acts_class {parent : Option String} {methods : List Function}
    (hmethods : ∀ m ∈ methods, Scripts before m.body) :
    Acts before (.class_ name parent methods) := by
  intro o
  rw [translate_class]
  refine .advance <| .advance <| makes_classHead.then_ (K := Site.Rests)
    (fun _ _ _ _ _ hg h => h.1.rests hg) fun _ u => .at_ fun f hf =>
      (makes_modifyClasses (f := fun classes => false :: classes)).silent
        (K := (· = { f with classes := false :: f.classes })) (fun _ _ _ _ hg h => hg ▸ h) fun _ =>
          (makes_parent hf).then_ (K := f.Under parent.isSome) (fun _ _ _ _ _ _ h => h.1) fun _ v =>
            (makes_members hmethods).then_ (K := f.Under parent.isSome)
              (fun _ _ _ _ _ _ h => h.1) fun _ v' => (makes_classEnd hf).imp (fun _ => id)
                fun B g _ w h _ hw g₃ _ hv' g₂ hg₂ hv g₁ hg₁ _ g₀ hg₀ hu => ?_
  subst hg₂ hg₁
  obtain ⟨hgrows, k, define, hk, hbinds, rfl⟩ := hu
  obtain ⟨-, hparent⟩ := hv
  obtain ⟨-, a, ws, ha, hcodes, rfl⟩ := hv'
  obtain ⟨hstays, rfl, hscope⟩ := hw
  refine ⟨hgrows.trans hstays.grows, nofun, ?_⟩
  have := Stmt.Codes.class_ hk hbinds hparent ha hcodes
  rw [hscope]
  simpa using this

/-- A script does not return. -/
theorem makes_refuseReturn : Makes before o P refuseReturn fun _ g _ w h => w = [] ∧ h = g := by
  refine .kind fun kind => ?_
  by_cases hscript : kind = .script
  · rw [if_pos hscript]
    intro s _ s' _ _ _ h
    exact (run_failBefore.mp h).elim
  · rw [if_neg hscript]
    exact makes_pure fun _ _ _ _ => ⟨rfl, rfl⟩

/-- What follows the reserved word of a return is not refused. -/
theorem Makes.returning {x : Compiler Unit} {Q : Body → Site → Unit → List UInt32 → Site → Prop}
    (hx : Makes before o P x Q) : Makes before o P (refuseReturn >>= fun _ => x) Q :=
  makes_refuseReturn.silent (fun _ _ _ _ hg h => h ▸ hg) fun _ =>
    hx.imp (fun _ => id) fun _ _ _ _ _ _ hw _ _ h => h ▸ hw

/-- A return statement has the code of its tree. -/
theorem acts_return {e : Option Expr} : Acts before (.return_ e) := by
  intro o
  cases e with
  | none =>
    rw [Stmt.translate]
    refine .advance <| .returning <| .advance <| makes_emitReturn.imp (fun _ => id)
      fun B g _ w h _ hw => ?_
    obtain ⟨rfl, rfl⟩ := hw
    exact (Site.Stays.refl h).acts .finish
  | some e =>
    rw [Stmt.translate]
    refine .advance <| .returning <| .kind fun kind => Makes.then_ (K := fun _ => True) e.codifies.makes
      (fun _ _ _ _ _ _ _ => trivial) fun _ v => .advance ?_
    by_cases hinit : kind = .initializer
    · rw [if_pos hinit]
      refine .emit <| makes_emitReturn.imp (fun _ => id) fun B g _ w h _ hw g₀ _ hv hkind => ?_
      obtain ⟨rfl, rfl⟩ := hw
      obtain ⟨rfl, hv⟩ := hv
      exact (Site.Stays.refl h).acts (.construct (hkind.trans hinit) hv)
    · rw [if_neg hinit]
      refine makes_emit fun B g _ g₀ _ hv hkind => ?_
      obtain ⟨rfl, hv⟩ := hv
      exact (Site.Stays.refl g).acts (.return_ (hkind ▸ hinit) hv)

/-- A statement behind a condition, which it takes off the stack. -/
theorem makes_behind {body : Stmt} (hbody : Acts before body) (hdeclares : body.declares = false) :
    Makes before o Site.Rests (emit .pop *> body.translate) fun B g _ w h =>
      ∃ v, (g.Stays h ∧ body.Codes B g.scope (decide (0 < g.depth)) v h.scope) ∧
        w = Instr.pop.encode :: v := by
  rw [seqRight_eq_bind]
  refine makes_after_pop (Q := fun B g _ v h => g.Stays h ∧
    body.Codes B g.scope (decide (0 < g.depth)) v h.scope) ?_
  exact (hbody _).imp (fun _ => id) fun _ _ _ _ _ _ hw => ⟨hw.2.1 hdeclares, hw.2.2⟩

/-- A conditional statement has the code of its tree, if its branches have. -/
theorem acts_if {test : Expr} {body : Stmt} {otherwise : Option Stmt} (hbody : Acts before body)
    (hdeclares : body.declares = false)
    (hotherwise : ∀ t, otherwise = some t → Acts before t ∧ t.declares = false) :
    Acts before (.if_ test body otherwise) := by
  intro o
  cases otherwise with
  | none =>
    rw [Stmt.translate]
    refine .advance <| Makes.then_ (K := Site.Rests) gives_condition.makes
      (fun _ _ _ _ _ hg h => h.1 ▸ hg) fun _ v => (makes_branching (K := fun _ => True)
        (R := fun _ g _ u h => h = g ∧ u = [Instr.pop.encode])
        (makes_behind hbody hdeclares) (fun _ _ _ _ _ _ => trivial)
        fun _ => makes_emit fun _ _ _ => ⟨rfl, rfl⟩).imp (fun _ => id)
          fun B g _ w h hg hw g₀ _ hv => ?_
    obtain ⟨rfl, hv⟩ := hv
    obtain ⟨_, _, f, d, d', ⟨u, ⟨hstays, hu⟩, rfl⟩, ⟨rfl, rfl⟩, hd, hd', rfl⟩ := hw
    exact hstays.acts (.when_ hv hu (hstays.scope_length hg) (by simpa using hd) hd')
  | some otherwise =>
    obtain ⟨hno, hdeclares'⟩ := hotherwise otherwise rfl
    rw [Stmt.translate]
    refine .advance <| Makes.then_ (K := Site.Rests) gives_condition.makes
      (fun _ _ _ _ _ hg h => h.1 ▸ hg) fun _ v => (makes_branching (K := Site.Rests)
        (makes_behind hbody hdeclares) (fun _ _ _ _ hg h => ?_)
        fun _ => makes_after_pop <| .advance <| hno _).imp (fun _ => id)
          fun B g _ w h hg hw g₀ _ hv => ?_
    · obtain ⟨u, ⟨hstays, -⟩, -⟩ := h
      exact hstays.grows.rests hg
    · obtain ⟨rfl, hv⟩ := hv
      obtain ⟨_, _, f, d, d', ⟨u, ⟨hstays, hu⟩, rfl⟩, ⟨u', ⟨-, hstays', hu'⟩, rfl⟩, hd, hd', rfl⟩ := hw
      have hstays' := hstays' hdeclares'
      rw [hstays.depth] at hu'
      exact (hstays.trans hstays').acts (.if_ hv hu hu' (hstays.scope_length hg)
        (hstays'.scope_length (hstays.grows.rests hg)) (by simpa using hd) (by simpa using hd'))

/-- A loop has the code of its tree, if its body has. -/
theorem acts_while {test : Expr} {body : Stmt} (hbody : Acts before body)
    (hdeclares : body.declares = false) : Acts before (.while_ test body) := by
  intro o
  rw [Stmt.translate]
  refine .advance <| .here <| Makes.then_ (K := Site.Rests) gives_condition.makes
    (fun _ _ _ _ _ hg h => h.1 ▸ hg) fun _ v => (makes_skipping (Q := fun B g _ w h => g.Stays h ∧
      ∃ (u : List UInt32) (d : UInt16), body.Codes B g.scope (decide (0 < g.depth)) u h.scope ∧
        d.toNat = v.length + u.length + 3 ∧
          w = Instr.pop.encode :: u ++ [(Instr.loop d).encode]) <| .emit <| (hbody _).then_
            (K := fun _ => True) (fun _ _ _ _ _ _ _ => trivial) fun _ u => makes_emitLoop.imp
              (fun _ => id) fun B g _ w h _ hw g₀ _ hu => ?_).then_ (K := fun _ => True)
                (fun _ _ _ _ _ _ _ => trivial) fun _ w => makes_emit fun B g _ g₁ hg₁ hw g₀ _ hv => ?_
  · obtain ⟨rfl, d, hd, rfl⟩ := hw
    obtain ⟨-, hstays, hcodes⟩ := hu
    exact ⟨hstays hdeclares, u, d, hcodes, by omega, by simp⟩
  · obtain ⟨rfl, hv⟩ := hv
    obtain ⟨_, d, ⟨hstays, u, d', hcodes, hback, rfl⟩, hleave, rfl⟩ := hw
    have := Stmt.Codes.while_ hv hcodes (hstays.scope_length hg₁) (d := d) (by simpa using hleave)
      hback
    exact hstays.acts (by simpa using this)

/-- A loop with its condition behind has the code of its tree, if its body has. -/
theorem acts_doWhile {test : Expr} {body : Stmt} (hbody : Acts before body)
    (hdeclares : body.declares = false) : Acts before (.doWhile body test) := by
  intro o
  rw [Stmt.translate]
  refine .advance <| .here <| (hbody _).then_ (K := fun _ => True) (fun _ _ _ _ _ _ _ => trivial)
    fun _ u => .advance <| Makes.then_ (K := fun _ => True) gives_condition.makes
      (fun _ _ _ _ _ _ _ => trivial) fun _ v => .advance <| (makes_skipping <| makes_after_pop <|
        makes_emitLoop).then_ (K := fun _ => True) (fun _ _ _ _ _ _ _ => trivial) fun _ w =>
          makes_emit fun B g _ g₂ _ hw g₁ _ hv g₀ hg₀ hu => ?_
  obtain ⟨_, d, ⟨_, ⟨rfl, d', hback, rfl⟩, rfl⟩, hleave, rfl⟩ := hw
  obtain ⟨rfl, hv⟩ := hv
  obtain ⟨-, hstays, hcodes⟩ := hu
  have hstays := hstays hdeclares
  have := Stmt.Codes.doWhile (d := d) hcodes hv (hstays.scope_length hg₀) (by simpa using hleave)
    (show d'.toNat = _ by omega)
  exact hstays.acts (by simpa using this)

/-- What a counting loop starts with. -/
def translateStart : Option Stmt → Compiler Unit
  | none => do
    advance
    advance
  | some init => do
    advance
    init.translate

/-- A counting loop in the scope of its start. -/
theorem translate_for {init : Option Stmt} {test step : Option Expr} {body : Stmt} :
    (Stmt.for_ init test step body).translate = (do
      advance
      beginScope
      (do
        translateStart init
        (do
          let start ← here
          let stop ← translateTest test
          let back ← translateStep start step
          body.translate
          emitLoop back
          translateExit stop))
      endScope) := by
  cases init <;> simp [Stmt.translate, translateStart]

/-- The first clause of a counting loop makes its code, if there is one. -/
theorem makes_start {init : Option Stmt} (hinit : ∀ t, init = some t → Acts before t) :
    Makes before o Site.Rests (translateStart init) fun B g _ w h =>
      g.Grows h ∧ (0 < g.depth → Stmt.OptionCodes B g.scope init w h.scope) := by
  cases init with
  | none => exact .advance <| makes_advance fun B g _ => ⟨.refl g, fun _ => .none⟩
  | some init =>
    refine .advance <| (hinit init rfl _).imp (fun _ => id) fun B g _ w h _ hw => ?_
    refine ⟨hw.1, fun hinside => ?_⟩
    have hcodes := hw.2.2
    rw [decide_eq_true hinside] at hcodes
    exact .some hcodes hcodes.leads

/-- A counting loop has the code of its tree, if its first clause and its body have. -/
theorem acts_for {init : Option Stmt} {test step : Option Expr} {body : Stmt}
    (hinit : ∀ t, init = some t → Acts before t) (hbody : Acts before body)
    (hdeclares : body.declares = false) : Acts before (.for_ init test step body) := by
  intro o
  rw [translate_for]
  refine .advance <| (makes_scoped (S := fun B g w h => 0 < g.depth →
    ∃ (scope : Scope) (first T X u v : List UInt32) (back : Nat) (d : UInt16),
      Stmt.OptionCodes B g.scope init first scope ∧
        TestCodes B scope (u.length + v.length + 1) test T X ∧
          StepCodes B scope T.length step u back ∧ body.Codes B scope true v h.scope ∧
            h.scope.length = scope.length ∧ d.toNat = back + v.length + 1 ∧
              w = first ++ (T ++ u ++ v ++ (Instr.loop d).encode :: X)) <|
    (makes_start hinit).then_ (K := Site.Rests) (fun _ _ _ _ _ hg h => h.1.rests hg) fun _ first =>
      (makes_loop hbody hdeclares).imp (fun _ => id) fun B g _ w h hg hw g₀ _ hv => ?_).imp
        (fun _ => id) fun B g _ w h _ hw => ?_
  · obtain ⟨hstays, T, X, u, v, back, d, htest, hstep, hcodes, hd, rfl⟩ := hw
    refine ⟨hv.1.trans hstays.grows, fun hinside => ⟨g.scope, first, T, X, u, v, back, d,
      hv.2 hinside, htest, hstep, ?_, hstays.scope_length hg, hd, rfl⟩⟩
    rwa [hv.1.depth, decide_eq_true hinside] at hcodes
  · obtain ⟨hstays, w, f, hall, rfl, hscope⟩ := hw
    obtain ⟨scope, first, T, X, u, v, back, d, hfirst, htest, hstep, hcodes, hlength, hd, rfl⟩ :=
      hall (Nat.succ_pos _)
    exact hstays.acts (hscope ▸ .for_ hfirst htest hstep hcodes hlength hd)

/-- A block has the code of its tree, if its statements have. -/
theorem acts_block {body : List Stmt} (hbody : Scripts before body) :
    Acts before (.block body) := by
  intro o
  rw [Stmt.translate]
  have hinner (o : Nat) : Makes before o Site.Rests (do Stmt.listTranslate body; advance)
      fun B g _ w h => g.Grows h ∧
        Stmt.ListCodes B g.scope (decide (0 < g.depth)) body w h.scope :=
    (hbody o).then_ (K := fun _ => True) (fun _ _ _ _ _ _ _ => trivial) fun _ v =>
      makes_advance fun B g _ g₀ _ hv => by rwa [List.append_nil]
  have hall := makes_scoped (hinner o)
  simp only [bind_assoc] at hall
  refine .advance <| hall.imp (fun _ => id) fun B g _ w h _ hw => ?_
  obtain ⟨hstays, v, f, hcodes, rfl, hscope⟩ := hw
  rw [decide_eq_true (Nat.succ_pos g.depth)] at hcodes
  exact hstays.acts (hscope ▸ .block hcodes)

end Compile

/-- Translating a grammatical statement adds its code. -/
theorem Stmt.acts {before : Heap} {t : Stmt} (ht : t.Grammatical) : Acts before t := by
  induction t with
  | let_ name init => exact acts_let
  | def_ name params body hbody =>
    rw [Stmt.Grammatical, Function.Grammatical] at ht
    exact acts_def (scripts_of_acts fun s hs => hbody s hs (ht.mem hs))
  | class_ name parent methods hmethods =>
    rw [Stmt.Grammatical] at ht
    exact acts_class fun f hf => scripts_of_acts fun s hs => hmethods f hf s hs ((ht.mem hf).mem hs)
  | print e =>
    intro o
    rw [Stmt.translate]
    refine .advance <| Makes.then_ (K := fun _ => True) e.codifies.makes
      (fun _ _ _ _ _ _ _ => trivial) fun _ v => .advance <| makes_emit fun B g _ g₀ _ hv => ?_
    obtain ⟨rfl, hv⟩ := hv
    exact (Site.Stays.refl g).acts (.print hv)
  | expression e =>
    intro o
    rw [Stmt.translate]
    refine Makes.then_ (K := fun _ => True) e.codifies.makes (fun _ _ _ _ _ _ _ => trivial)
      fun _ v => .advance <| makes_emit fun B g _ g₀ _ hv => ?_
    obtain ⟨rfl, hv⟩ := hv
    exact (Site.Stays.refl g).acts (.expression hv)
  | return_ e => exact acts_return
  | if_ test body otherwise hbody hotherwise =>
    cases otherwise with
    | none =>
      rw [Stmt.Grammatical] at ht
      exact acts_if (hbody ht.2.1) ht.2.2 nofun
    | some otherwise =>
      rw [Stmt.Grammatical] at ht
      refine acts_if (hbody ht.2.1.1) ht.2.1.2.1 ?_
      rintro _ ⟨rfl⟩
      exact ⟨hotherwise _ rfl ht.2.2.1, ht.2.2.2⟩
  | while_ test body hbody =>
    rw [Stmt.Grammatical] at ht
    exact acts_while (hbody ht.2.1) ht.2.2
  | doWhile body test hbody =>
    rw [Stmt.Grammatical] at ht
    exact acts_doWhile (hbody ht.2.1) ht.2.2
  | for_ init test step body hinit hbody =>
    cases init with
    | none =>
      rw [Stmt.Grammatical] at ht
      exact acts_for nofun (hbody ht.2.2.1) ht.2.2.2
    | some init =>
      rw [Stmt.Grammatical] at ht
      refine acts_for ?_ (hbody ht.2.2.2.1) ht.2.2.2.2
      rintro _ ⟨rfl⟩
      exact hinit _ rfl ht.1.1
  | block body hbody =>
    rw [Stmt.Grammatical] at ht
    exact acts_block (scripts_of_acts fun s hs => hbody s hs (ht.mem hs))

end ScriptMachine
