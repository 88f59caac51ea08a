import ScriptMachine.Proofs.Scoping.Stretches
import ScriptMachine.Proofs.Syntax.Blocks
import ScriptMachine.Proofs.Token.Pieces

/-!
# The stretches of a program

The code of every tree is a row of stretches: an expression and a statement are composed of the rows
of their parts, and the row of a function ends with its last return. The names of a source are
proper ones, so no assignment of the code is to slot zero, neither as a local nor as a captured
variable.
-/

namespace ScriptMachine

open Compile

/-- The names of a source are proper. -/
theorem properNames_source (source : String) : ProperNames (sourceTokens source) := by
  intro name hname
  obtain ⟨l, hl, hl'⟩ := List.mem_map.mp hname
  obtain ⟨hempty, hkeyword⟩ := Token.read_names l (Array.mem_toList_iff.mp hl) name hl'
  refine ⟨hempty, fun hthis => ?_, fun hsuper => ?_⟩
  · subst hthis
    revert hkeyword
    decide
  · subst hsuper
    revert hkeyword
    decide

variable {B : Body} {scope scope' : Scope} {n : Nat} {ws : List UInt32} {inside : Bool}

/-- The functions around a body have their callees in slot zero. -/
def Body.Rooted (B : Body) : Prop := ∀ level ∈ B.outer, level.scope.Rooted

/-! ### Expressions -/

namespace Body.Flows

/-- Reading a variable pushes its value. -/
theorem get (a : Access) {w : List UInt32} {m : Nat} (hw : B.Flows (n + 1) w m) :
    B.Flows n (a.get.encode :: w) m := by
  obtain ⟨hstraight, hoperands, hresults⟩ := a.get_effect
  exact .cons a.get hstraight (permits_get a) (by rwa [hoperands, hresults])

/-- Writing a variable leaves its value. -/
theorem set {a : Access} (hp : B.Permits a.set) : B.Flows (n + 1) [a.set.encode] (n + 1) := by
  obtain ⟨hstraight, hoperands, hresults⟩ := a.set_effect
  exact .cons a.set hstraight hp (by rw [hoperands, hresults]; exact .nil)

/-- The arithmetic operators take two operands. -/
theorem arithmetic (op : Arithmetic) {w : List UInt32} {m : Nat} (hw : B.Flows (n + 1) w m) :
    B.Flows (n + 2) (op.instr.encode :: w) m := by
  cases op <;> exact .cons _ rfl trivial hw

/-- The operators take two operands. -/
theorem binary (op : BinaryOp) : B.Flows (n + 2) (op.code.map Instr.encode) (n + 1) := by
  cases op with
  | arithmetic op => exact .arithmetic op .nil
  | equal | greater | less => exact .cons _ rfl trivial .nil
  | notEqual | greaterEqual | lessEqual => exact .cons _ rfl trivial (.cons _ rfl trivial .nil)

end Body.Flows

/-- The names of arguments are proper if all names between them are. -/
theorem properNames_listTokens {args : List Expr} (h : ProperNames (Expr.listTokens args)) :
    ∀ e ∈ args, ProperNames e.tokens := by
  induction args with
  | nil => exact fun e he => absurd he List.not_mem_nil
  | cons e es ih =>
    cases es with
    | nil => exact List.forall_mem_singleton.mpr h
    | cons e' es =>
      rw [Expr.listTokens_cons, properNames_append, properNames_symbol] at h
      exact List.forall_mem_cons.mpr ⟨h.1, ih h.2⟩

/-- The code of arguments is a row of stretches. -/
theorem Expr.ListCodes.flows {args : List Expr}
    (hargs : ∀ e ∈ args, ∀ {n ws}, e.Codes B scope ws → B.Flows n ws (n + 1))
    (h : Expr.ListCodes B scope args ws) : B.Flows n ws (n + args.length) := by
  induction args generalizing n ws with
  | nil =>
    cases h
    exact .nil
  | cons e es ih =>
    cases h with
    | cons first rest =>
      have htail := ih (fun e he => hargs e (List.mem_cons_of_mem _ he)) (n := n + 1) rest
      rw [Nat.add_assoc, Nat.add_comm 1] at htail
      exact .append (hargs e List.mem_cons_self first) htail

/-- The code of an expression is a row of stretches that leaves its value on top of the stack. -/
theorem Expr.Codes.flows {e : Expr} (hscope : scope.Rooted) (hB : B.Rooted)
    (hp : ProperNames e.tokens) (h : e.Codes B scope ws) : B.Flows n ws (n + 1) := by
  have hset {name : String} {a : Access} (ha : B.Finds scope name a) (hname : Proper name) :
      B.Permits a.set := Body.permits_set ha hname hscope hB
  induction e generalizing n ws with
  | number | text | true_ | false_ | null => cases h; exact .cons _ rfl trivial .nil
  | group e ih =>
    simp [Expr.tokens] at hp
    cases h with
    | group inner => exact ih hp inner
  | negate e ih | not e ih =>
    simp [Expr.tokens] at hp
    cases h
    exact .append (ih hp ‹_›) (.cons _ rfl trivial .nil)
  | variable_ name | this => cases h; exact .get _ .nil
  | assign name e ih =>
    simp [Expr.tokens] at hp
    cases h with
    | assign found value => exact .append (ih hp.2 value) (.set (hset found hp.1))
  | update name op e ih =>
    simp [Expr.tokens] at hp
    cases h with
    | update found value =>
      exact .append (.get _ (ih hp.2 value)) (.arithmetic op (.set (hset found hp.1)))
  | superGet name =>
    cases h
    exact .get _ (.get _ (.cons _ rfl trivial .nil))
  | superCall name args hargs =>
    simp [Expr.tokens] at hp
    have hproper := properNames_listTokens hp.2
    cases h with
    | superCall names receiver arguments number parent =>
      refine .append (.get _ (arguments.flows fun e he => hargs e he (hproper e he)))
        (.get _ (.cons _ rfl trivial ?_))
      rw [Instr.operands, Instr.results, number, show n + 1 + args.length + 1 - (args.length + 2) + 1 =
        n + 1 by omega]
      exact .nil
  | binary op l r hl hr =>
    simp [Expr.tokens] at hp
    cases h with
    | binary left right => exact .append (.append (hl hp.1 left) (hr hp.2 right)) (.binary op)
  | both l r hl hr =>
    simp [Expr.tokens] at hp
    cases h with
    | both left right skip =>
      exact .append (hl hp.1 left) (.skip (.cons .pop rfl trivial (hr hp.2 right)) (Nat.succ_pos n)
        (by simpa using skip))
  | either l r hl hr =>
    simp [Expr.tokens] at hp
    cases h with
    | either left right skip leave =>
      exact .append (hl hp.1 left) (.branch .nil (.cons .pop rfl trivial (hr hp.2 right))
        (Nat.succ_pos n) skip (by simpa using leave))
  | call f args hf hargs =>
    simp [Expr.tokens] at hp
    have hproper := properNames_listTokens hp.2
    cases h with
    | call callee arguments number =>
      refine .append (.append (hf hp.1 callee) (arguments.flows fun e he => hargs e he (hproper e he)))
        (.cons _ rfl trivial ?_)
      rw [Instr.operands, Instr.results, number, show n + 1 + args.length - (args.length + 1) + 1 =
        n + 1 by omega]
      exact .nil
  | get o name ho =>
    simp [Expr.tokens] at hp
    cases h with
    | get object names => exact .append (ho hp.1 object) (.cons _ rfl trivial .nil)
  | set o name e ho he =>
    simp [Expr.tokens] at hp
    cases h with
    | set object names value =>
      exact .append (.append (ho hp.1 object) (he hp.2.2 value)) (.cons _ rfl trivial .nil)
  | updateField o name op e ho he =>
    simp [Expr.tokens] at hp
    cases h with
    | updateField object names value =>
      exact .append (.append (ho hp.1 object) (.cons .duplicate rfl trivial
        (.cons (.getProperty _) rfl trivial (he hp.2.2 value))))
        (.arithmetic op (.cons _ rfl trivial .nil))
  | invoke o name args ho hargs =>
    simp [Expr.tokens] at hp
    have hproper := properNames_listTokens hp.2.2
    cases h with
    | invoke object names arguments number =>
      refine .append (.append (ho hp.1 object) (arguments.flows fun e he => hargs e he (hproper e he)))
        (.cons _ rfl trivial ?_)
      rw [Instr.operands, Instr.results, number, show n + 1 + args.length - (args.length + 1) + 1 =
        n + 1 by omega]
      exact .nil

/-! ### Declarations -/

/-- At the outermost depth slot zero is the only local, and no function is around. -/
def Topmost (B : Body) (scope : Scope) (inside : Bool) : Prop :=
  inside = false → scope.length = 1 ∧ B.outer = []

/-- A name that is bound leaves slot zero the lowest. -/
theorem Scope.rooted_of_binds {name : String} (h : Binds B scope name inside ws scope')
    (hs : scope.Rooted) (ht : Topmost B scope inside) :
    scope'.Rooted ∧ Topmost B scope' inside := by
  cases h with
  | global names => exact ⟨hs, ht⟩
  | local_ => exact ⟨hs.cons _, fun hfalse => by cases hfalse⟩

/-- Outside of all blocks only slot zero is in scope, whatever it is called. -/
theorem Topmost.congr (h : Topmost B scope inside) (hlength : scope'.length = scope.length) :
    Topmost B scope' inside := fun hfalse => hlength ▸ h hfalse

/-- A closure leaves slot zero where it is. -/
theorem Function.Codes.rooted {kind : FunctionKind} {f : Function}
    (h : f.Codes B scope kind ws scope') (hs : scope.Rooted) :
    scope'.Rooted ∧ scope'.length = scope.length := by
  cases h with
  | mk => exact ⟨hs.mark _, Scope.length_mark _ _⟩

namespace Body

/-- A declared variable takes the value on top of the stack. -/
theorem Flows.binds {name : String} (h : Binds B scope name inside ws scope') :
    B.Flows (scope.length + 1) ws scope'.length := by
  cases h with
  | global names => exact .cons (.defineGlobal _) rfl trivial .nil
  | local_ => exact .nil

/-- The locals of a scope are as many as the instructions that take them off the stack. -/
theorem Flows.exit : B.Flows scope.length (scope.exit n) (scope.keep n).length := by
  have hall (new : List Binding) (k : Nat) :
      B.Flows (k + new.length) (new.map fun b => b.leave.encode) k := by
    induction new generalizing k with
    | nil => exact .nil
    | cons b new ih =>
      have hone : B.Flows (k + (b :: new).length) [b.leave.encode] (k + new.length) := by
        unfold Binding.leave
        split <;> exact .cons _ rfl trivial .nil
      exact .append hone (ih k)
  have := hall (scope.take (scope.length - n)) (scope.keep n).length
  rwa [← List.length_append, Scope.keep, List.length_append, Nat.add_comm, ← List.length_append,
    List.take_append_drop] at this

/-- Where a class is kept while its methods are added. -/
theorem exists_classVariable {scope₁ : Scope} (scope₂ : Scope) {name : String}
    {define : List UInt32}
    (hbinds : Binds B scope name inside define scope₁) (hs : scope.Rooted)
    (ht : Topmost B scope inside) (hname : Proper name)
    (htwo : scope₂ = scope₁ ∨ scope₂ = ⟨"super", false⟩ :: scope₁) :
    ∃ is : List Instr, is.map Instr.encode = define ∧ scope₁.length = scope.length + (1 - is.length) ∧
      ∀ a, B.Finds scope₂ name a → B.ClassVariable scope.length name is a := by
  cases hbinds with
  | local_ =>
    refine ⟨[], rfl, rfl, fun a ha => ?_⟩
    have hdeclares : Scope.Declares scope₂ name scope.length := by
      rcases htwo with rfl | rfl
      · exact .here
      · exact .behind hname.notSuper.symm .here
    cases ha with
    | local_ declares => exact .local_ (declares.unique hdeclares)
    | upvalue lacks | global lacks => exact absurd lacks hdeclares.not_lacks
  | @global k names =>
    refine ⟨[.defineGlobal k], rfl, rfl, fun a ha => ?_⟩
    obtain ⟨hlength, houter⟩ := ht rfl
    obtain ⟨root, rfl⟩ := List.length_eq_one_iff.mp hlength
    have hlacks : Scope.Lacks scope₂ name := by
      have hroot : root.name ≠ name := hs.ne_of_singleton hname
      rcases htwo with rfl | rfl
      · exact List.forall_mem_singleton.mpr hroot
      · exact List.forall_mem_cons.mpr ⟨hname.notSuper.symm, List.forall_mem_singleton.mpr hroot⟩
    cases ha with
    | local_ declares => exact absurd hlacks declares.not_lacks
    | upvalue lacks reaches =>
      rw [houter] at reaches
      cases reaches
    | global lacks around names' => exact .global names names'

/-- The methods of a class, one instruction after the other. -/
theorem exists_methods {methods : List Function}
    (h : Function.ListCodes B scope methods ws scope') (hs : scope.Rooted) :
    ∃ atoms, B.Methods scope methods atoms scope' ∧ atoms.flatten = ws ∧ scope'.Rooted ∧
      scope'.length = scope.length := by
  induction methods generalizing scope ws with
  | nil =>
    cases h
    exact ⟨[], .nil, rfl, hs, rfl⟩
  | cons f methods ih =>
    cases h with
    | cons names first rest =>
      obtain ⟨hmarked, hsame⟩ := first.rooted hs
      obtain ⟨atoms, hatoms, rfl, hroot, hlength⟩ := ih rest hmarked
      exact ⟨_, .cons names first hs hatoms, by simp, hroot, hlength.trans hsame⟩

end Body

/-! ### Statements -/

/-- The words lead from one scope to another as a row of stretches, and slot zero stays. -/
structure Passes (B : Body) (scope : Scope) (inside : Bool) (ws : List UInt32) (scope' : Scope) :
    Prop where
  flows : B.Flows scope.length ws scope'.length
  rooted : scope'.Rooted
  topmost : Topmost B scope' inside

/-- Whatever is left when an inner scope ends is as it was outside. -/
theorem Passes.leave {scope₁ : Scope} (h : Passes B scope true ws scope₁) (hs : scope.Rooted)
    (ht : Topmost B scope inside) :
    Passes B scope inside (ws ++ scope₁.exit scope.length) (scope₁.keep scope.length) where
  flows := .append h.flows .exit
  rooted := h.rooted.keep hs.length_pos
  topmost := fun hfalse => by
    obtain ⟨hlength, houter⟩ := ht hfalse
    exact ⟨(Scope.length_keep (hlength ▸ h.rooted.length_pos)).trans hlength, houter⟩

/-- The code of statements is a row of stretches, by induction on them. -/
theorem Stmt.ListCodes.passes {body : List Stmt}
    (hbody : ∀ s ∈ body, ∀ {scope scope' : Scope} {ws}, scope.Rooted → Topmost B scope inside →
      ProperNames s.tokens → s.Codes B scope inside ws scope' → Passes B scope inside ws scope')
    (hs : scope.Rooted) (ht : Topmost B scope inside) (hp : ProperNames (Stmt.listTokens body))
    (h : Stmt.ListCodes B scope inside body ws scope') : Passes B scope inside ws scope' := by
  induction body generalizing scope ws with
  | nil =>
    cases h
    exact ⟨.nil, hs, ht⟩
  | cons s body ih =>
    rw [Stmt.listTokens, properNames_append] at hp
    obtain ⟨hone, hmore⟩ := List.forall_mem_cons.mp hbody
    cases h with
    | cons first height rest =>
      have hfirst := hone hs ht hp.1 first
      have hrest := ih hmore hfirst.rooted hfirst.topmost hp.2 rest
      exact ⟨.append hfirst.flows hrest.flows, hrest.rooted, hrest.topmost⟩

/-- A condition in front of a loop. -/
theorem TestCodes.tests {after : Nat} {test : Option Expr} {T X : List UInt32}
    (hs : scope.Rooted) (hB : B.Rooted) (hp : ProperNames (Expr.optionTokens test))
    (h : TestCodes B scope after test T X) : B.Tests n after T X := by
  cases h with
  | none => exact .none
  | some codes leave => exact .some (codes.flows hs hB hp) leave

/-- What a loop does after its body. -/
theorem StepCodes.advances {before back : Nat} {step : Option Expr} {P : List UInt32}
    (hs : scope.Rooted) (hB : B.Rooted) (hp : ProperNames (Expr.optionTokens step))
    (h : StepCodes B scope before step P back) : B.Advances n before P back := by
  cases h with
  | none => exact .none
  | @some e ws d d' codes skip start =>
    have hstep : B.Flows n (ws ++ [Instr.pop.encode]) n :=
      .append (codes.flows hs hB hp) (.cons .pop rfl trivial .nil)
    have : B.Advances n before _ _ := @Body.Advances.some _ _ _ _ d d' hstep (by simpa using skip)
      (by simp; omega)
    simpa using this

/-- The code of a statement is a row of stretches. -/
theorem Stmt.Codes.passes {s : Stmt} (hB : B.Rooted) (hs : scope.Rooted)
    (ht : Topmost B scope inside) (hp : ProperNames s.tokens)
    (h : s.Codes B scope inside ws scope') : Passes B scope inside ws scope' := by
  have htokens := hp
  induction s generalizing scope scope' inside ws with
  | let_ name init =>
    cases h with
    | declare binds =>
      obtain ⟨hroot, htop⟩ := Scope.rooted_of_binds binds hs ht
      exact ⟨.cons .null rfl trivial (.binds binds), hroot, htop⟩
    | define value binds =>
      obtain ⟨hroot, htop⟩ := Scope.rooted_of_binds binds hs ht
      simp [Stmt.tokens] at hp
      exact ⟨.append (value.flows hs hB hp.2) (.binds binds), hroot, htop⟩
  | def_ name params body =>
    cases h with
    | def_ binds function =>
      obtain ⟨hroot, htop⟩ := Scope.rooted_of_binds binds hs ht
      obtain ⟨hmarked, hsame⟩ := function.rooted hroot
      rw [Stmt.tokens, properNames_keyword] at hp
      refine ⟨.append (.closure function hroot hp) ?_, hmarked, htop.congr hsame⟩
      rw [hsame]
      exact .binds binds
  | class_ name parent methods =>
    cases h with
    | @class_ _ _ scope₁ scope₂ scope₃ _ _ _ _ _ a define inherit w names binds above found codes =>
      have hnames : Proper name ∧ ProperNames (Function.listTokens methods) := by
        cases parent <;> simp [Stmt.tokens] at hp
        · exact hp
        · exact ⟨hp.1, hp.2.2⟩
      obtain ⟨hroot₁, htop₁⟩ := Scope.rooted_of_binds binds hs ht
      obtain ⟨defining, rfl, hlength, hvariable⟩ := Body.exists_classVariable scope₂ binds hs ht
        hnames.1 (by
          cases above with
          | none => exact .inl rfl
          | some => exact .inr rfl)
      obtain ⟨inheriting, rfl, hinherits, hroot₂, htwo⟩ : ∃ is : List Instr,
          is.map Instr.encode = inherit ∧
            B.Inheriting scope₁ scope.length name defining parent is ∧ scope₂.Rooted ∧
              scope₂.length = scope₁.length + parent.toList.length := by
        cases above with
        | none => exact ⟨[], rfl, .none, hroot₁, rfl⟩
        | some parentFound own =>
          exact ⟨_, rfl, .some parentFound (hvariable _ own), hroot₁.cons _, rfl⟩
      obtain ⟨atoms, hatoms, rfl, hroot₃, hthree⟩ := Body.exists_methods codes hroot₂
      have hcode := Body.Flows.stretch fun S hS =>
        .class_ (.mk names hinherits (hvariable a found) hatoms) hnames.2
          ((Nat.zero_add _).symm ▸ hS)
      have hheight : scope₃.length = scope.length + (1 - defining.length) + parent.toList.length :=
        hthree.trans (htwo.trans (by rw [hlength]))
      have hkeep : (scope₃.keep scope₁.length).length = scope₁.length :=
        Scope.length_keep (by omega)
      rw [← hheight] at hcode
      refine ⟨?_, hroot₃.keep hroot₁.length_pos, htop₁.congr hkeep⟩
      have := hcode.append (.exit (n := scope₁.length))
      simpa using this
  | print e =>
    cases h with
    | print value =>
      simp [Stmt.tokens] at hp
      exact ⟨.append (value.flows hs hB hp) (.cons _ rfl trivial .nil), hs, ht⟩
  | expression e =>
    cases h with
    | expression value =>
      simp [Stmt.tokens] at hp
      exact ⟨.append (value.flows hs hB hp) (.cons _ rfl trivial .nil), hs, ht⟩
  | return_ e =>
    cases h with
    | finish => exact ⟨.finalReturn, hs, ht⟩
    | construct kind value =>
      simp [Stmt.tokens, Expr.optionTokens] at hp
      exact ⟨.append (value.flows hs hB hp) (.cons _ rfl trivial .finalReturn), hs, ht⟩
    | return_ kind value =>
      simp [Stmt.tokens, Expr.optionTokens] at hp
      exact ⟨.append (value.flows hs hB hp) (.return_ kind), hs, ht⟩
  | if_ test body otherwise hbody hotherwise =>
    cases h with
    | when_ condition yes same skip leave =>
      simp [Stmt.tokens] at hp
      have hyes := hbody hs ht hp.2 yes hp.2
      refine ⟨?_, hyes.rooted, hyes.topmost⟩
      exact .append (condition.flows hs hB hp.1) (.branch (.cons .pop rfl trivial hyes.flows)
        (.cons .pop rfl trivial (same ▸ .nil)) (Nat.succ_pos _) (by simpa using skip)
        (by simpa using leave))
    | if_ condition yes no same same' skip leave =>
      simp [Stmt.tokens] at hp
      have hyes := hbody hs ht hp.2.1 yes hp.2.1
      have hno := hotherwise _ rfl hyes.rooted hyes.topmost hp.2.2 no hp.2.2
      have hyesFlows := hyes.flows
      have hnoFlows := hno.flows
      rw [same] at hyesFlows hnoFlows
      refine ⟨?_, hno.rooted, hno.topmost⟩
      rw [same', same] at hnoFlows ⊢
      exact .append (condition.flows hs hB hp.1) (.branch (.cons .pop rfl trivial hyesFlows)
        (.cons .pop rfl trivial hnoFlows) (Nat.succ_pos _) (by simpa using skip)
        (by simpa using leave))
  | while_ test body hbody =>
    cases h with
    | @while_ _ _ _ _ _ _ v w d d' condition codes same leave back =>
      simp [Stmt.tokens] at hp
      have hcodes := hbody hs ht hp.2 codes hp.2
      have hflows := hcodes.flows
      refine ⟨?_, hcodes.rooted, hcodes.topmost⟩
      rw [same] at hflows ⊢
      have := Body.Flows.loop (P := []) (d := d') (.some (d := d) (condition.flows hs hB hp.1)
        (by simpa using leave)) .none hflows (by simp; omega)
      simpa using this
  | doWhile body test hbody =>
    cases h with
    | doWhile codes condition same leave back =>
      simp [Stmt.tokens] at hp
      have hcodes := hbody hs ht hp.1 codes hp.1
      have hflows := hcodes.flows
      refine ⟨?_, hcodes.rooted, hcodes.topmost⟩
      have hcondition := condition.flows (n := scope.length) hcodes.rooted hB hp.2
      rw [same] at hflows ⊢
      exact .repeating (.append hflows hcondition) leave (by simpa using back)
  | for_ init test step body hinit hbody =>
    cases h with
    | @for_ _ _ scope₁ _ _ _ _ _ _ start _ _ _ _ _ _ first condition advance codes same loop =>
      have hproper : (∀ s, init = some s → ProperNames s.tokens) ∧
          ProperNames (Expr.optionTokens test) ∧ ProperNames (Expr.optionTokens step) ∧
            ProperNames body.tokens := by
        cases init with
        | none =>
          simp [Stmt.tokens] at hp
          exact ⟨fun s hsome => (by cases hsome), hp⟩
        | some s =>
          simp [Stmt.tokens] at hp
          exact ⟨fun s hsome => Option.some.inj hsome ▸ hp.1, hp.2⟩
      obtain ⟨hpinit, hptest, hpstep, hpbody⟩ := hproper
      have hfirst : Passes B scope true start scope₁ := by
        cases first with
        | none => exact ⟨.nil, hs, fun hfalse => by cases hfalse⟩
        | some codes height =>
          exact hinit _ rfl hs (fun hfalse => by cases hfalse) (hpinit _ rfl) codes (hpinit _ rfl)
      have hcodes := hbody hfirst.rooted hfirst.topmost hpbody codes hpbody
      have hflows := hcodes.flows
      rw [same] at hflows
      refine Passes.leave ⟨?_, hcodes.rooted, hcodes.topmost⟩ hs ht
      refine .append hfirst.flows ?_
      rw [same]
      exact .loop (condition.tests hfirst.rooted hB hptest) (advance.advances hfirst.rooted hB hpstep)
        hflows loop
  | block body hbody =>
    cases h with
    | block codes =>
      simp [Stmt.tokens] at hp
      exact Passes.leave (codes.passes (fun s hmem _ _ _ hs ht hp h => hbody s hmem hs ht hp h hp) hs
        (fun hfalse => by cases hfalse) hp) hs ht

end ScriptMachine
