import ScriptMachine.Proofs.Parallel.Enclosing
import ScriptMachine.Proofs.Scoping.Statements

/-!
# Twins that translate statements

Translating one list of statements in twins ends in twins, by induction on the statements. What was
added to scripts is aligned then, though one of them may have had code and constants before that the
other one has not.
-/

namespace ScriptMachine

open Compile

namespace Compile

open Pairing

variable {p : Pairing} {before before' : Heap} {s t : State} {m n : Nat} {name : String}

/-- Nothing is returned from a script. -/
theorem echoes_refuseReturn : Echoes true before before' p s t refuseReturn refuseReturn
    fun _ _ _ s' _ => s'.enclosing ≠ [] := by
  refine .look fun hs => ?_
  rw [← hs.drafts.twin.kind]
  by_cases hscript : s.draft.kind = .script
  · rw [if_pos hscript]
    intro _ _ _ _ _ hxs
    exact (run_failBefore.mp hxs).elim
  · rw [if_neg hscript]
    exact echoes_pure (mt hs.drafts.kind_iff.mpr hscript)

/-- The classes around change alike. -/
theorem along_modifyClasses (f : List Bool → List Bool) : Along true before before' p s t
    (modify fun s => { s with classes := f s.classes } : Compiler Unit)
    (modify fun s => { s with classes := f s.classes } : Compiler Unit) :=
  along_resite (fun g => { g with classes := f g.classes }) (fun g => { g with classes := f g.classes })
    (fun s _ h => ⟨s.pos, (EStateM.Result.ok.inj h).2.symm⟩)
    (fun s _ h => ⟨s.pos, (EStateM.Result.ok.inj h).2.symm⟩) fun hs =>
    { sites_twins true hs with classes := congrArg f hs.classes }

/-- A condition is translated alike. -/
theorem along_condition {test : Expr} (hp : ProperNames test.tokens) :
    Along true before before' p s t test.translateCondition test.translateCondition := by
  rw [Expr.translateCondition]
  exact .advance fun _ => (Expr.along hp).then_ fun _ _ => along_advance

/-! ### Classes -/

/-- Methods are added to a class alike. -/
theorem along_methods {methods : List Function} (hmethods : ∀ f ∈ methods, ∀ {p s t},
      s.enclosing ≠ [] → Along false before before' p s t (Stmt.listTranslate f.body)
        (Stmt.listTranslate f.body)) : Along true before before' p s t
          (Function.listTranslate methods) (Function.listTranslate methods) := by
  induction methods generalizing p s t with
  | nil =>
    rw [Function.listTranslate]
    exact along_pure
  | cons f methods ih =>
    obtain ⟨name, params, body⟩ := f
    obtain ⟨hfirst, hrest⟩ := List.forall_mem_cons.mp hmethods
    have hkind : methodKind name ≠ .script := by
      unfold methodKind
      split <;> (intro h; cases h)
    rw [Function.listTranslate]
    exact .advance fun _ => .advance fun _ => echoes_nameConstant.then_ fun _ hk =>
      (along_function hkind hfirst).then_ fun h₁ _ =>
        .emit (.of_alike (.method (hk.later h₁)) (.of_free rfl)) fun _ => ih hrest

/-- The name of a class is declared, and an empty class is its value. -/
theorem along_classHead : Along true before before' p s t (do
      let constant ← nameConstant name
      declareVariable name
      emit (.class_ constant)
      defineVariable constant) (do
      let constant ← nameConstant name
      declareVariable name
      emit (.class_ constant)
      defineVariable constant) :=
  echoes_nameConstant.then_ fun _ hk => echoes_declareVariable.then_ fun h₁ hbound =>
    .emit (.of_alike (.class_ (hk.later h₁)) (.of_free rfl)) fun h₂ =>
      along_defineVariable ⟨hbound.later h₂, fun _ => (hk.later h₁).later h₂⟩

/-- The superclass of a class is inherited from alike. -/
theorem along_parent {parent : Option String} (hname : name ≠ "")
    (hparent : ∀ n, parent = some n → n ≠ "") : Along false before before' p s t
      (translateParent name parent) (translateParent name parent) := by
  cases parent with
  | none => exact along_pure
  | some parent =>
    rw [translateParent]
    exact .advance fun _ => .advance fun _ => (along_readVariable (hparent parent rfl)).then_ fun _ _ =>
      echoes_beginScope.then_ fun _ hinside => echoes_addLocal.flat_then fun h₁ hbound =>
        (along_defineVariable ⟨hbound, fun hzero => absurd hzero
          (Nat.ne_of_gt ((h₁.level rfl).1 ▸ hinside))⟩).flat_then fun _ _ =>
            (along_readVariable hname).then_ fun _ _ => .emit (.plain rfl (.of_free rfl)) fun _ =>
              (along_modifyClasses fun classes => true :: classes.tail).loose

/-- The methods of a class are added to it alike. -/
theorem along_members {methods : List Function} (hname : name ≠ "") (hmethods : ∀ f ∈ methods,
      ∀ {p s t}, s.enclosing ≠ [] → Along false before before' p s t (Stmt.listTranslate f.body)
        (Stmt.listTranslate f.body)) : Along true before before' p s t (do
      readVariable name
      advance
      Function.listTranslate methods
      advance
      emit .pop) (do
      readVariable name
      advance
      Function.listTranslate methods
      advance
      emit .pop) :=
  (along_readVariable hname).then_ fun _ _ => .advance fun _ => (along_methods hmethods).then_
    fun _ _ => .advance fun _ => along_emit (.plain rfl (.of_free rfl))

/-- The scope of a class with a superclass ends alike. -/
theorem along_classEnd : Along false before before' p s t (do
      let hasSuperclass ← look fun s => s.classes.head?.getD false
      modify fun s => { s with classes := s.classes.tail }
      if hasSuperclass then endScope) (do
      let hasSuperclass ← look fun s => s.classes.head?.getD false
      modify fun s => { s with classes := s.classes.tail }
      if hasSuperclass then endScope) := by
  refine .look fun hs => ?_
  rw [← hs.classes]
  refine (along_modifyClasses List.tail).flat_then fun _ _ => ?_
  split
  · exact along_endScope
  · exact along_pure

/-! ### Loops -/

/-- What a counting loop does after its body starts level. -/
theorem echoes_step {step : Option Expr} (hp : ProperNames (Expr.optionTokens step))
    (h : Level s t m n) : Echoes true before before' p s t (translateStep m step) (translateStep n step)
      fun a b _ s' t' => Level s' t' a b := by
  cases step with
  | none =>
    intro hs
    rw [translateStep, translateStep]
    exact Echoes.advance (fun ht => echoes_pure (h.later hs ht)) hs
  | some e =>
    intro hs
    rw [translateStep_some, translateStep_some]
    exact Echoes.over (Q := fun a b _ s' t' => Level s' t' a b) .jump (fun h₀ => .here fun h₁ hlevel =>
      (Expr.along hp).then_ fun h₂ _ => .emit (.plain rfl (.of_free rfl)) fun h₃ =>
        .advance fun h₄ =>
          have hback := ((h₂.trans h₃).trans h₄)
          (along_emitLoop ((h.later hs h₀).later h₁ hback)).then_ fun h₅ _ =>
            echoes_pure (hlevel.later h₁ (hback.trans h₅))) (fun hsize hsize' hlevel => by
              unfold Level at hlevel ⊢
              rw [hsize, hsize', hlevel]) hs

/-- The body of a counting loop, and what the loop does after it. -/
theorem along_turn {step : Option Expr} {body : Compiler Unit}
    (hp : ProperNames (Expr.optionTokens step)) (hbody : ∀ {p s t},
      Along false before before' p s t body body) (h : Level s t m n) : Along false before before' p s t (do
        let back ← translateStep m step
        body
        emitLoop back) (do
        let back ← translateStep n step
        body
        emitLoop back) :=
  (echoes_step hp h).flat_then fun h₁ hback => hbody.then_ fun h₂ _ =>
    along_emitLoop (hback.later h₁.twins h₂)

/-- A counting loop after its beginning. -/
theorem along_loop {test step : Option Expr} {body : Compiler Unit}
    (hptest : ProperNames (Expr.optionTokens test)) (hpstep : ProperNames (Expr.optionTokens step))
    (hbody : ∀ {p s t}, Along false before before' p s t body body) :
    Along false before before' p s t (do
      let start ← here
      let stop ← translateTest test
      let back ← translateStep start step
      body
      emitLoop back
      translateExit stop) (do
      let start ← here
      let stop ← translateTest test
      let back ← translateStep start step
      body
      emitLoop back
      translateExit stop) := by
  refine .here fun hs hlevel => ?_
  cases test with
  | none =>
    rw [translate_untested, translate_untested]
    exact .advance fun h₁ => along_turn hpstep hbody (hlevel.later hs h₁)
  | some test =>
    rw [translate_tested, translate_tested]
    exact (Expr.along hptest).then_ fun h₁ _ => .advance fun h₂ =>
      Echoes.then_ (.skipping fun h₃ => .emit (.plain rfl (.of_free rfl)) fun h₄ =>
        along_turn hpstep hbody (hlevel.later hs (((h₁.trans h₂).trans h₃).trans h₄))) fun _ _ =>
          along_emit (.plain rfl (.of_free rfl))

/-- What a counting loop starts with. -/
theorem along_start {init : Option Stmt} (hinit : ∀ u, init = some u → ∀ {p s t},
      Along false before before' p s t u.translate u.translate) :
    Along false before before' p s t (translateStart init) (translateStart init) := by
  cases init with
  | none => exact .advance fun _ => along_advance
  | some init => exact .advance fun _ => hinit init rfl

/-! ### Statements -/

/-- A statement behind a condition, which it takes off the stack. -/
theorem along_behind {body : Compiler Unit} (hbody : ∀ {p s t}, Along false before before' p s t body body) :
    Along false before before' p s t (emit .pop *> body) (emit .pop *> body) := by
  rw [seqRight_eq_bind]
  exact .emit (.plain rfl (.of_free rfl)) fun _ => hbody

end Compile

open Compile

variable {p : Pairing} {before before' : Heap} {s t : State}

/-- Statements are translated alike, if each of them is. -/
theorem Stmt.along_list {body : List Stmt} (hbody : ∀ u ∈ body, ∀ {p s t},
      Along false before before' p s t u.translate u.translate) :
    Along false before before' p s t (Stmt.listTranslate body) (Stmt.listTranslate body) := by
  induction body generalizing p s t with
  | nil =>
    rw [Stmt.listTranslate]
    exact along_pure
  | cons u body ih =>
    obtain ⟨hfirst, hrest⟩ := List.forall_mem_cons.mp hbody
    rw [Stmt.listTranslate]
    exact hfirst.then_ fun _ _ => ih hrest

/-- The names of statements are proper if all names among their tokens are. -/
theorem properNames_statements {body : List Stmt} (h : ProperNames (Stmt.listTokens body)) :
    ∀ u ∈ body, ProperNames u.tokens := by
  induction body with
  | nil => exact fun _ hu => absurd hu List.not_mem_nil
  | cons u body ih =>
    rw [Stmt.listTokens, properNames_append] at h
    exact List.forall_mem_cons.mpr ⟨h.1, ih h.2⟩

/-- The names in the bodies of methods are proper if all names among their tokens are. -/
theorem properNames_methods {methods : List Function} (h : ProperNames (Function.listTokens methods)) :
    ∀ f ∈ methods, ProperNames (Stmt.listTokens f.body) := by
  induction methods with
  | nil => exact fun _ hf => absurd hf List.not_mem_nil
  | cons f methods ih =>
    obtain ⟨name, params, body⟩ := f
    simp [Function.listTokens, Function.tokens] at h
    exact List.forall_mem_cons.mpr ⟨h.2.2.1, ih h.2.2.2⟩

/-- Twins that translate a statement are twins again. -/
theorem Stmt.along {u : Stmt} (hp : ProperNames u.tokens) :
    Along false before before' p s t u.translate u.translate := by
  induction u generalizing p s t with
  | let_ name init =>
    cases init with
    | none =>
      rw [Stmt.translate]
      exact Echoes.loose (.advance fun _ => echoes_bindName.then_ fun _ hk =>
        .emit (.plain rfl (.of_free rfl)) fun h₁ => .advance fun h₂ =>
          along_defineVariable ((hk.later h₁).later h₂))
    | some e =>
      simp [Stmt.tokens] at hp
      rw [Stmt.translate]
      exact Echoes.loose (.advance fun _ => echoes_bindName.then_ fun _ hk => .advance fun h₁ =>
        (Expr.along hp.2).then_ fun h₂ _ => .advance fun h₃ =>
          along_defineVariable (((hk.later h₁).later h₂).later h₃))
  | def_ name params body ih =>
    simp [Stmt.tokens, Function.tokens] at hp
    have hbody := properNames_statements hp.2.2
    rw [Stmt.translate]
    exact .advance fun _ => echoes_bindName.flat_then fun h₁ hk =>
      (along_markInitialized hk.above).flat_then fun h₂ _ =>
        (along_function (fun h => by cases h) fun _ => along_list fun u hu =>
          ih u hu (hbody u hu)).flat_then fun h₃ _ => (along_defineVariable ((hk.later h₂).later h₃)).loose
  | class_ name parent methods ih =>
    have hnames : name ≠ "" ∧ (∀ n, parent = some n → n ≠ "") ∧
        ProperNames (Function.listTokens methods) := by
      cases parent with
      | none =>
        simp [Stmt.tokens] at hp
        exact ⟨hp.1.nonempty, (fun u hu => by cases hu), hp.2⟩
      | some parent =>
        simp [Stmt.tokens] at hp
        exact ⟨hp.1.nonempty, fun n hn => Option.some.inj hn ▸ hp.2.1.nonempty, hp.2.2⟩
    obtain ⟨hname, hparent, hmethods⟩ := hnames
    rw [translate_class]
    exact .advance fun _ => .advance fun _ => along_classHead.flat_then fun _ _ =>
      (along_modifyClasses (false :: ·)).flat_then fun _ _ => (along_parent hname hparent).then_
        fun _ _ => (along_members hname fun f hf {_ _ _} _ => along_list fun u hu =>
          ih f hf u hu (properNames_statements (properNames_methods hmethods f hf) u hu)).flat_then
            fun _ _ => along_classEnd
  | print e =>
    simp [Stmt.tokens] at hp
    rw [Stmt.translate]
    exact .advance fun _ => (Expr.along hp).then_ fun _ _ => .advance fun _ =>
      along_emit (.plain rfl (.of_free rfl))
  | expression e =>
    simp [Stmt.tokens] at hp
    rw [Stmt.translate]
    exact (Expr.along hp).then_ fun _ _ => .advance fun _ =>
      along_emit (.plain rfl (.of_free rfl))
  | return_ e =>
    cases e with
    | none =>
      rw [Stmt.translate]
      exact .advance fun _ => echoes_refuseReturn.flat_then fun _ hinner => .advance fun h₁ =>
        along_emitReturn (mt h₁.left.enclosing_nil.mp hinner)
    | some e =>
      simp [Stmt.tokens, Expr.optionTokens] at hp
      rw [Stmt.translate]
      refine .advance fun _ => echoes_refuseReturn.flat_then fun _ hinner => .look fun hs => ?_
      rw [← hs.drafts.twin.kind]
      refine (Expr.along hp).then_ fun h₁ _ => .advance fun h₂ => ?_
      have hinner := mt (h₁.trans h₂).left.enclosing_nil.mp hinner
      split
      · exact .emit (.plain rfl (.of_free rfl)) fun h₃ =>
          along_emitReturn (mt h₃.left.enclosing_nil.mp hinner)
      · exact along_emit ⟨fun hscript => absurd hscript hinner, fun _ => rfl⟩
  | if_ test body otherwise hbody hotherwise =>
    cases otherwise with
    | none =>
      simp [Stmt.tokens] at hp
      rw [Stmt.translate]
      exact .advance fun _ => (along_condition hp.1).flat_then fun _ _ =>
        .branching (fun _ => along_behind (hbody hp.2)) fun _ =>
          along_emit (.plain rfl (.of_free rfl))
    | some otherwise =>
      simp [Stmt.tokens] at hp
      rw [Stmt.translate]
      exact .advance fun _ => (along_condition hp.1).flat_then fun _ _ =>
        .branching (fun _ => along_behind (hbody hp.2.1)) fun _ =>
          .emit (.plain rfl (.of_free rfl)) fun _ => .advance fun _ =>
            hotherwise otherwise rfl hp.2.2
  | while_ test body ih =>
    simp [Stmt.tokens] at hp
    rw [Stmt.translate]
    exact .advance fun _ => .here fun hs hlevel => (along_condition hp.1).flat_then fun h₁ _ =>
      Echoes.then_ (.skipping fun h₂ => .emit (.plain rfl (.of_free rfl)) fun h₃ =>
        (ih hp.2).then_ fun h₄ _ => along_emitLoop (hlevel.later hs
          (((h₁.loose.trans h₂).trans h₃).trans h₄))) fun _ _ =>
            along_emit (.plain rfl (.of_free rfl))
  | doWhile body test ih =>
    simp [Stmt.tokens] at hp
    rw [Stmt.translate]
    exact .advance fun _ => .here fun hs hlevel => (ih hp.1).then_ fun h₁ _ => .advance fun h₂ =>
      (along_condition hp.2).flat_then fun h₃ _ => .advance fun h₄ =>
        Echoes.then_ (.skipping fun h₅ => .emit (.plain rfl (.of_free rfl)) fun h₆ =>
          along_emitLoop (hlevel.later hs
            (((((h₁.trans h₂).trans h₃.loose).trans h₄).trans h₅).trans h₆))) fun _ _ =>
              along_emit (.plain rfl (.of_free rfl))
  | for_ init test step body hinit hbody =>
    have hnames : (∀ u, init = some u → ProperNames u.tokens) ∧ ProperNames (Expr.optionTokens test) ∧
        ProperNames (Expr.optionTokens step) ∧ ProperNames body.tokens := by
      cases init with
      | none =>
        simp [Stmt.tokens] at hp
        exact ⟨(fun u hu => by cases hu), hp⟩
      | some init =>
        simp [Stmt.tokens] at hp
        exact ⟨fun u hu => Option.some.inj hu ▸ hp.1, hp.2⟩
    obtain ⟨hpinit, hptest, hpstep, hpbody⟩ := hnames
    rw [translate_for]
    exact .advance fun _ => echoes_beginScope.then_ fun _ _ => Echoes.then_
      ((along_start fun u hu => hinit u hu (hpinit u hu)).then_ fun _ _ =>
        along_loop hptest hpstep (hbody hpbody)) fun _ _ => along_endScope
  | block body ih =>
    simp [Stmt.tokens] at hp
    have hbody := properNames_statements hp
    rw [Stmt.translate]
    exact .advance fun _ => echoes_beginScope.then_ fun _ _ =>
      (along_list fun u hu => ih u hu (hbody u hu)).then_ fun _ _ => .advance fun _ => along_endScope

end ScriptMachine
