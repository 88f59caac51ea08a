import ScriptMachine.Proofs.Syntax.Reading

/-!
# Steps on any level

Only the start of a form asks how deep forms are nested, and only a form within changes it. Every
other step, and so the translation of a tree, does the same on every level and stays on it. What a
form within does on its level is therefore told by the translation of its tree on the level around.
-/

namespace ScriptMachine

open Compile

namespace Compile

variable {α β : Type} {s s' : State}

/-- The state with forms nested `n` deep. -/
def State.onLevel (n : Nat) (s : State) : State := { s with nesting := n }

/-- The result of a step that stays on level `n`. -/
def resultOn (n : Nat) : EStateM.Result Stop State α → EStateM.Result Stop State α
  | .ok a s => .ok a (s.onLevel n)
  | .error stop s => .error stop (s.onLevel n)

/-- A step that does the same on every level and stays on it. -/
class Flat (x : Compiler α) : Prop where
  flat : ∀ s n, x (s.onLevel n) = resultOn n (x s)

/-- What succeeds on one level succeeds on every level. -/
theorem run_onLevel {x : Compiler α} [hx : Flat x] {a : α} (h : x s = .ok a s') (n : Nat) :
    x (s.onLevel n) = .ok a (s'.onLevel n) := by
  rw [hx.flat, h]
  rfl

/-- What does not look at the level stays on it. -/
theorem nesting_of_flat {x : Compiler α} [Flat x] {a : α} (h : x s = .ok a s') :
    s'.nesting = s.nesting := by
  have hsame : x s = .ok a (s'.onLevel s.nesting) := run_onLevel h s.nesting
  have hlevel : s' = s'.onLevel s.nesting := (EStateM.Result.ok.inj (h.symm.trans hsame)).2
  calc s'.nesting = (s'.onLevel s.nesting).nesting := congrArg State.nesting hlevel
    _ = s.nesting := rfl

/-- What succeeds one level deeper succeeds on the level it started on. -/
theorem run_shallower {x : Compiler α} [Flat x] {a : α} (h : x s.deeper = .ok a s') :
    x s = .ok a s'.shallower := by
  have hback := run_onLevel h s.nesting
  have hnesting : s'.nesting = s.nesting + 1 := nesting_of_flat h
  rwa [State.shallower, hnesting]

section Steps

instance flat_pure (a : α) : Flat (pure a : Compiler α) := ⟨fun _ _ => rfl⟩

instance Flat.bind {x : Compiler α} {f : α → Compiler β} [hx : Flat x] [hf : ∀ a, Flat (f a)] :
    Flat (x >>= f) where
  flat s n := by
    show EStateM.bind x f (s.onLevel n) = resultOn n (EStateM.bind x f s)
    unfold EStateM.bind
    rw [hx.flat]
    cases hr : x s with
    | ok a s₁ => exact (hf a).flat s₁ n
    | error stop s₁ => rfl

instance {x : Compiler α} {y : Compiler β} [Flat x] [Flat y] : Flat (x *> y) := by
  rw [seqRight_eq_bind]
  infer_instance

instance {c : Prop} [Decidable c] {x y : Compiler α} [Flat x] [Flat y] :
    Flat (if c then x else y) := by
  split <;> infer_instance

/-- What is looked up does not depend on the level. -/
theorem flat_look {f : State → α} (hf : ∀ s n, f (s.onLevel n) = f s) : Flat (look f) where
  flat s n := congrArg (EStateM.Result.ok · (s.onLevel n)) (hf s n)

/-- What is changed does not depend on the level. -/
theorem flat_modify {f : State → State} (hf : ∀ s n, f (s.onLevel n) = (f s).onLevel n) :
    Flat (modify f : Compiler Unit) where
  flat s n := congrArg (EStateM.Result.ok ()) (hf s n)

instance {p : Problem} : Flat (failHere p : Compiler α) := ⟨fun _ _ => rfl⟩

instance {p : Problem} : Flat (failBefore p : Compiler α) := ⟨fun _ _ => rfl⟩

instance : Flat advance := flat_modify fun _ _ => rfl

instance {f : Draft → Draft} : Flat (modifyDraft f) := flat_modify fun _ _ => rfl

instance {kind : FunctionKind} {name : Handle} : Flat (beginFunction kind name) :=
  flat_modify fun _ _ => rfl

instance {i : Instr} : Flat (emit i) := by
  have hline : Flat (look State.line) := flat_look fun _ _ => rfl
  unfold emit
  infer_instance

instance {is : List Instr} : Flat (emitAll is) := by
  induction is with
  | nil => exact inferInstanceAs (Flat (pure ()))
  | cons i is ih => exact inferInstanceAs (Flat (emit i >>= fun _ => emitAll is))

instance : Flat here := flat_look fun _ _ => rfl

instance {jump : UInt16 → Instr} : Flat (emitJump jump) := by
  unfold emitJump
  infer_instance

instance {at_ : Nat} : Flat (patchJump at_) := by
  unfold patchJump
  infer_instance

instance {start : Nat} : Flat (emitLoop start) := by
  unfold emitLoop
  infer_instance

instance : Flat emitReturn := by
  have hkind : Flat (look fun s => s.draft.kind) := flat_look fun _ _ => rfl
  unfold emitReturn
  infer_instance

instance {v : Value} : Flat (makeConstant v) := by
  have hpool : Flat (look fun s => s.draft.pool[v.bits]?) := flat_look fun _ _ => rfl
  have hsize : Flat (look fun s => s.draft.chunk.constants.size) := flat_look fun _ _ => rfl
  unfold makeConstant
  refine @Flat.bind _ _ _ _ _ fun found => ?_
  cases found <;> infer_instance

instance {v : Value} : Flat (emitConstant v) := by
  unfold emitConstant
  infer_instance

instance {chars : String} : Flat (intern chars) where
  flat s n := by
    unfold intern
    dsimp only [State.onLevel, State.roots]
    split <;> rfl

instance {name : String} : Flat (nameConstant name) := by
  unfold nameConstant
  infer_instance

instance : Flat finishFunction where
  flat s n := by
    unfold finishFunction
    dsimp only [State.onLevel]
    repeat' split
    all_goals rfl

instance : Flat beginScope := by
  unfold beginScope
  infer_instance

instance : Flat endScope := by
  have hleft : Flat (look fun s => Local.leave s.draft.scopeDepth s.draft.locals) :=
    flat_look fun _ _ => rfl
  unfold endScope
  infer_instance

instance {name : String} {span : Source.Span} : Flat (addLocal name span) := by
  have hcount : Flat (look fun s => s.draft.locals.length) := flat_look fun _ _ => rfl
  unfold addLocal
  infer_instance

/-- A look at the depth of the scope nests nothing. -/
theorem flat_scopeDepth : Flat (look fun s => s.draft.scopeDepth) := flat_look fun _ _ => rfl

instance {name : String} : Flat (declareVariable name) := by
  have hdepth := flat_scopeDepth
  have hfirst (depth : Nat) :
      Flat (look fun s => Local.duplicate? name s.draft.scopeDepth s.draft.locals) :=
    flat_look fun _ _ => rfl
  have hspan : Flat (look State.previousSpan) := flat_look fun _ _ => rfl
  unfold declareVariable
  refine @Flat.bind _ _ _ _ _ fun depth => ?_
  split
  · refine @Flat.bind _ _ _ _ (hfirst depth) fun first => ?_
    cases first <;> infer_instance
  · infer_instance

instance : Flat markInitialized := by
  unfold markInitialized
  infer_instance

instance {global : UInt16} : Flat (defineVariable global) := by
  have hdepth := flat_scopeDepth
  unfold defineVariable
  infer_instance

instance {name : String} : Flat (captureVariable name) where
  flat s n := by
    unfold captureVariable
    dsimp only [State.onLevel]
    split <;> rfl

instance {name : String} : Flat (resolve name) := by
  have hfound : Flat (look fun s => Local.find? name s.draft.locals) := flat_look fun _ _ => rfl
  unfold resolve
  refine @Flat.bind _ _ _ _ _ fun found => ?_
  rcases found with _ | ⟨slot, _ | _⟩
  · refine @Flat.bind _ _ _ _ _ fun index => ?_
    cases index <;> infer_instance
  · infer_instance
  · infer_instance

instance {name : String} : Flat (readVariable name) := by
  unfold readVariable
  infer_instance

instance {function : UInt16} {captures : Array Capture} :
    Flat (emitClosure function captures) := by
  have hline : Flat (look State.line) := flat_look fun _ _ => rfl
  unfold emitClosure
  infer_instance

end Steps

/-! ### Translations -/

section Parts

variable {body yes no : Compiler Unit} [Flat body] [Flat yes] [Flat no]

instance {name : String} : Flat (bindName name) := by
  have hdepth := flat_scopeDepth
  unfold bindName
  infer_instance

instance {count : Nat} : Flat (checkArguments count) := by
  unfold checkArguments
  infer_instance

instance : Flat refuseReturn := by
  have hkind : Flat (look fun s => s.draft.kind) := flat_look fun _ _ => rfl
  unfold refuseReturn
  infer_instance

instance : Flat (skipping body) := by
  unfold skipping
  infer_instance

instance : Flat (branching yes no) := by
  unfold branching
  infer_instance

end Parts

end Compile

/-- Arguments are translated alike on every level if each of them is. -/
theorem Expr.flat_list {args : List Expr} (h : ∀ e ∈ args, Flat e.translate) :
    Flat (Expr.listTranslate args) := by
  induction args with
  | nil => exact flat_pure ()
  | cons e es ih =>
    obtain ⟨hfirst, hrest⟩ := List.forall_mem_cons.mp h
    have hes := ih hrest
    cases es with
    | nil => exact hfirst
    | cons e' es =>
      unfold Expr.listTranslate
      infer_instance

/-- An expression is translated alike on every level. -/
instance Expr.flat_translate (e : Expr) : Flat e.translate := by
  induction e with
  | superCall _ args ih | call _ args _ ih | invoke _ _ args _ ih =>
    have hargs := Expr.flat_list ih
    unfold translate
    repeat with_reducible refine @Flat.bind _ _ _ _ inferInstance fun _ => ?_
    infer_instance
  | _ =>
    unfold translate
    repeat with_reducible refine @Flat.bind _ _ _ _ inferInstance fun _ => ?_
    infer_instance

namespace Compile

section Statements

variable {body : Compiler Unit} [Flat body]

instance {test : Expr} : Flat test.translateCondition := by
  unfold Expr.translateCondition
  infer_instance

/-- Parameters nest nothing, by induction on them. -/
theorem flat_parameters {params : List String} : Flat (translateParameters params) := by
  induction params with
  | nil => exact flat_pure ()
  | cons name names ih =>
    cases names <;>
    · unfold translateParameters
      infer_instance

instance {params : List String} : Flat (translateSignature params) := by
  have hparams := @flat_parameters params
  unfold translateSignature
  infer_instance

instance {kind : FunctionKind} {name : String} {params : List String} :
    Flat (translateFunction kind name params body) := by
  unfold translateFunction
  repeat with_reducible refine @Flat.bind _ _ _ _ inferInstance fun _ => ?_
  infer_instance

instance {className : String} {parent : Option String} :
    Flat (translateParent className parent) := by
  have hclasses : Flat (modify fun s => { s with classes := true :: s.classes.tail }) :=
    flat_modify fun _ _ => rfl
  cases parent with
  | none => exact flat_pure ()
  | some parent =>
    unfold translateParent
    repeat with_reducible refine @Flat.bind _ _ _ _ inferInstance fun _ => ?_
    infer_instance

instance {test : Option Expr} : Flat (translateTest test) := by
  cases test <;>
  · unfold translateTest
    infer_instance

instance {start : Nat} {step : Option Expr} : Flat (translateStep start step) := by
  cases step <;>
  · unfold translateStep
    repeat with_reducible refine @Flat.bind _ _ _ _ inferInstance fun _ => ?_
    infer_instance

instance {stop : Option Nat} : Flat (translateExit stop) := by
  cases stop <;>
  · unfold translateExit
    infer_instance

end Statements

end Compile

/-- Statements are translated alike on every level if each of them is. -/
theorem Stmt.flat_list {body : List Stmt} (h : ∀ t ∈ body, Flat t.translate) :
    Flat (Stmt.listTranslate body) := by
  induction body with
  | nil => exact flat_pure ()
  | cons t body ih =>
    obtain ⟨hfirst, hrest⟩ := List.forall_mem_cons.mp h
    have hbody := ih hrest
    unfold Stmt.listTranslate
    infer_instance

/-- Methods are translated alike on every level if the statements of each of them are. -/
theorem Function.flat_list {methods : List Function}
    (h : ∀ f ∈ methods, ∀ t ∈ f.body, Flat t.translate) :
    Flat (Function.listTranslate methods) := by
  induction methods with
  | nil => exact flat_pure ()
  | cons f methods ih =>
    obtain ⟨name, params, body⟩ := f
    obtain ⟨hfirst, hrest⟩ := List.forall_mem_cons.mp h
    have hbody : Flat (Stmt.listTranslate body) := Stmt.flat_list hfirst
    have hmethods := ih hrest
    unfold Function.listTranslate
    repeat with_reducible refine @Flat.bind _ _ _ _ inferInstance fun _ => ?_
    infer_instance

/-- A statement is translated alike on every level. -/
instance Stmt.flat_translate (t : Stmt) : Flat t.translate := by
  induction t with
  | let_ _ init | return_ init =>
    have hkind : Flat (look fun s => s.draft.kind) := flat_look fun _ _ => rfl
    cases init <;>
    · unfold translate
      repeat with_reducible refine @Flat.bind _ _ _ _ inferInstance fun _ => ?_
      infer_instance
  | def_ _ _ body ih | block body ih =>
    have hbody := Stmt.flat_list ih
    unfold translate
    repeat with_reducible refine @Flat.bind _ _ _ _ inferInstance fun _ => ?_
    infer_instance
  | class_ _ _ methods ih =>
    have hmethods := Function.flat_list ih
    have hopen : Flat (modify fun s => { s with classes := false :: s.classes }) :=
      flat_modify fun _ _ => rfl
    have hhead : Flat (look fun s => s.classes.head?.getD false) := flat_look fun _ _ => rfl
    have hclose : Flat (modify fun s => { s with classes := s.classes.tail }) :=
      flat_modify fun _ _ => rfl
    unfold translate
    repeat with_reducible refine @Flat.bind _ _ _ _ inferInstance fun _ => ?_
    infer_instance
  | if_ _ _ otherwise _ ih =>
    cases otherwise with
    | none =>
      unfold translate
      infer_instance
    | some otherwise =>
      have hotherwise := ih otherwise rfl
      unfold translate
      infer_instance
  | for_ init _ _ _ ih =>
    cases init with
    | none =>
      unfold translate
      repeat with_reducible refine @Flat.bind _ _ _ _ inferInstance fun _ => ?_
      infer_instance
    | some init =>
      have hinit := ih init rfl
      unfold translate
      repeat with_reducible refine @Flat.bind _ _ _ _ inferInstance fun _ => ?_
      infer_instance
  | print _ | expression _ | while_ _ _ | doWhile _ _ =>
    unfold translate
    repeat with_reducible refine @Flat.bind _ _ _ _ inferInstance fun _ => ?_
    infer_instance

end ScriptMachine
