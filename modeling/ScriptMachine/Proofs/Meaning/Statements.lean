import ScriptMachine.Proofs.Meaning.Expressions

/-!
# Statements

The code of a statement does what its evaluation does and leaves the stack as high as the scope is
long. Inside a block a declaration leaves its value as the slot of the variable, and the end of the
block takes all of them off the stack. Each round of a loop starts where its code starts.
-/

namespace ScriptMachine

open Exec

/-! ### What statements declare -/

namespace Scope

variable {B : Body} {vars : List (List String)} {new names : List String} {ws : List UInt32}
  {scope : Scope}

/-- Some names more are declared in the innermost block, if there is one. -/
def grow (new : List String) : List (List String) → List (List String)
  | [] => []
  | names :: rest => (new ++ names) :: rest

/-- Declaring nothing leaves the scopes. -/
@[simp] theorem grow_nil (vars : List (List String)) : grow [] vars = vars := by
  cases vars <;> rfl

/-- Declaring twice is declaring all. -/
theorem grow_grow (new names : List String) (vars : List (List String)) :
    grow new (grow names vars) = grow (new ++ names) vars := by
  cases vars <;> simp [grow]

/-- Declaring opens no block. -/
theorem isEmpty_grow (new : List String) (vars : List (List String)) :
    (grow new vars).isEmpty = vars.isEmpty := by
  cases vars <;> rfl

/-- Every variable of the blocks has a slot, above slot zero. -/
theorem length_ofBlocks (vars : List (List String)) :
    (ofBlocks vars).length = vars.flatten.length + 1 := by
  rw [ofBlocks, List.length_append, List.length_map]
  rfl

/-- A scope that is as long as before has no new names. -/
theorem grow_eq_of_length (h : (ofBlocks (grow new vars)).length = (ofBlocks vars).length) :
    grow new vars = vars := by
  cases vars with
  | nil => rfl
  | cons names rest =>
    rw [length_ofBlocks, length_ofBlocks] at h
    rw [grow, List.flatten_cons, List.flatten_cons, List.append_assoc, List.length_append] at h
    have hnone : new = [] := List.eq_nil_of_length_eq_zero (by omega)
    rw [hnone, grow_nil]

/-- The innermost block is on top of the scope. -/
theorem ofBlocks_cons (names : List String) (vars : List (List String)) :
    ofBlocks (names :: vars) = (names.map fun name => ⟨name, false⟩) ++ ofBlocks vars := by
  simp [ofBlocks]

/-- At the end of a block its variables are dropped, and the scope is the one around. -/
theorem leave_block (names : List String) (vars : List (List String)) :
    (ofBlocks (names :: vars)).exit (ofBlocks vars).length =
        List.replicate names.length Instr.pop.encode ∧
      (ofBlocks (names :: vars)).keep (ofBlocks vars).length = ofBlocks vars := by
  have hlength : (ofBlocks (names :: vars)).length - (ofBlocks vars).length =
      (names.map fun name => (⟨name, false⟩ : Binding)).length := by
    rw [ofBlocks_cons, List.length_append, Nat.add_sub_cancel]
  rw [exit, keep, hlength, ofBlocks_cons, List.take_left, List.drop_left, List.map_map]
  exact ⟨List.map_const, rfl⟩

/-- A declaration inside of all blocks is one of the innermost block. -/
theorem ofBlocks_of_binds {name : String}
    (h : Binds B (ofBlocks vars) name (!vars.isEmpty) ws scope) :
    scope = ofBlocks (grow [name] vars) := by
  cases vars with
  | nil => cases h; rfl
  | cons names rest => cases h; rfl

end Scope

namespace Core

open Scope (grow ofBlocks)

variable {B : Body} {vars : List (List String)} {ws : List UInt32} {scope : Scope}

/-- The names that a statement declares in the block where it stands. -/
def Stmt.declares : Stmt → List String
  | let_ name _ => [name]
  | _ => []

/-- The names that statements declare in the block where they stand, the latest first. -/
def Stmt.listDeclares : List Stmt → List String
  | [] => []
  | s :: ss => listDeclares ss ++ s.declares

/-- The names that the first part of a loop declares. -/
def Stmt.optionDeclares (init : Option Stmt) : List String := (init.map declares).getD []

/-- Behind statements the variables they declare are in scope, by induction on them. -/
theorem Stmt.scope_of_listCodes {body : List Stmt}
    (hbody : ∀ s ∈ body, ∀ {vars ws scope}, s.tree.Codes B (ofBlocks vars) (!vars.isEmpty) ws scope →
      scope = ofBlocks (grow s.declares vars))
    (h : ScriptMachine.Stmt.ListCodes B (ofBlocks vars) (!vars.isEmpty) (listTree body) ws scope) :
    scope = ofBlocks (grow (listDeclares body) vars) := by
  induction body generalizing vars ws with
  | nil =>
    cases h
    simp [listDeclares]
  | cons s body ih =>
    obtain ⟨hfirst, hmore⟩ := List.forall_mem_cons.mp hbody
    cases h with
    | cons first height rest =>
      obtain rfl := hfirst first
      rw [← Scope.isEmpty_grow s.declares] at rest
      rw [ih hmore rest, Scope.grow_grow]
      rfl

/-- Behind a first clause its variable is in scope, if there is one. -/
theorem Stmt.scope_of_optionCodes {init : Option Stmt}
    (hinit : ∀ s, init = some s → ∀ {vars ws scope},
      s.tree.Codes B (ofBlocks vars) (!vars.isEmpty) ws scope → scope = ofBlocks (grow s.declares vars))
    (h : ScriptMachine.Stmt.OptionCodes B (ofBlocks vars) (optionTree init) ws scope) :
    scope = ofBlocks (grow (optionDeclares init) ([] :: vars)) := by
  cases init with
  | none =>
    cases h
    rfl
  | some init =>
    cases h with
    | some first height => exact @hinit init rfl ([] :: vars) _ _ first

/-- Where the code of a statement ends, what it declares is visible in addition. -/
theorem Stmt.scope_of_codes {s : Stmt}
    (h : s.tree.Codes B (ofBlocks vars) (!vars.isEmpty) ws scope) :
    scope = ofBlocks (grow s.declares vars) := by
  induction s generalizing vars ws scope with
  | let_ name init =>
    cases init with
    | none =>
      cases h with
      | declare binds => exact Scope.ofBlocks_of_binds binds
    | some e =>
      cases h with
      | define value binds => exact Scope.ofBlocks_of_binds binds
  | print e | expression e =>
    cases h
    exact congrArg ofBlocks (Scope.grow_nil vars).symm
  | if_ test body otherwise hbody hotherwise =>
    show scope = ofBlocks (grow [] vars)
    rw [Scope.grow_nil]
    cases otherwise with
    | none =>
      cases h with
      | when_ condition yes same skip leave =>
        obtain rfl := hbody yes
        rw [Scope.grow_eq_of_length same]
    | some otherwise =>
      cases h with
      | if_ condition yes no same same' skip leave =>
        obtain rfl := hbody yes
        rw [Scope.grow_eq_of_length same] at no same'
        obtain rfl := hotherwise otherwise rfl no
        rw [Scope.grow_eq_of_length same']
  | while_ test body hbody =>
    show scope = ofBlocks (grow [] vars)
    rw [Scope.grow_nil]
    cases h with
    | while_ condition codes same leave back =>
      obtain rfl := hbody codes
      rw [Scope.grow_eq_of_length same]
  | doWhile body test hbody =>
    show scope = ofBlocks (grow [] vars)
    rw [Scope.grow_nil]
    cases h with
    | doWhile codes condition same leave back =>
      obtain rfl := hbody codes
      rw [Scope.grow_eq_of_length same]
  | for_ init test step body hinit hbody =>
    show scope = ofBlocks (grow [] vars)
    rw [Scope.grow_nil]
    cases h with
    | for_ first condition advance codes same loop =>
      obtain rfl := scope_of_optionCodes hinit first
      obtain rfl := @hbody ((optionDeclares init ++ []) :: vars) _ _ codes
      rw [Scope.grow_eq_of_length same, (Scope.leave_block _ _).2]
  | block body hbody =>
    show scope = ofBlocks (grow [] vars)
    rw [Scope.grow_nil]
    cases h with
    | block codes =>
      obtain rfl := @scope_of_listCodes B ([] :: vars) _ _ _ hbody codes
      rw [grow, List.append_nil, (Scope.leave_block _ _).2]

end Core

namespace Script

open Scope (grow)

variable {S : Script} {m : Machine} {ip : Nat} {vars : List (List String)} {σ : Store} {d : Datum}
  {ds : List Datum} {v ws : List UInt32} {k : UInt16} {scope : Scope} {name : String}
  {new : List String} {fuel : Nat}

/-! ### Blocks -/

/-- A block begins without variables. -/
theorem At.enterBlock (h : S.At ip vars σ ds m) :
    S.At ip ([] :: vars) { σ with blocks := [] :: σ.blocks } ds m :=
  ⟨h.1, { h.2 with declared := congrArg ([] :: ·) h.2.declared }⟩

/-- Where a block ends, the values of its variables are on top of those of the variables around. -/
theorem At.leaveBlock (h : S.At ip (new :: vars) σ [] m) : ∃ ds : List Datum,
    ds.length = new.length ∧ S.At ip vars { σ with blocks := σ.blocks.tail } ds m := by
  obtain ⟨env, rest, hblocks, henv, hrest⟩ := List.map_eq_cons_iff.mp h.2.declared
  have hvalues : σ.values = env.map Prod.snd ++ Store.values { σ with blocks := σ.blocks.tail } := by
    simp [Store.values, Store.locals, hblocks]
  refine ⟨env.map Prod.snd, by rw [← henv, List.length_map, List.length_map], h.1,
    { h.2 with declared := ?_, values := ?_ }⟩
  · rw [Store.declared, hblocks]
    exact hrest
  · obtain ⟨c, vs, hstack, hdenote⟩ := h.2.values
    rw [List.nil_append, hvalues] at hdenote
    exact ⟨c, vs, hstack, hdenote⟩

/-- All operands are dropped. -/
theorem At.pops (h : S.At ip vars σ ds m)
    (hws : S.Has ip (List.replicate ds.length Instr.pop.encode)) :
    S.Runs m (.ok () σ) fun _ σ' => S.At (ip + ds.length) vars σ' [] := by
  induction ds generalizing ip m with
  | nil => exact .ok h
  | cons d ds ih =>
    obtain ⟨hpop, hpops⟩ := has_cons.mp hws
    refine Runs.andThen (h.pop hpop) fun m hm => ?_
    rw [List.length_cons, Nat.add_comm ds.length, ← Nat.add_assoc]
    exact ih hm hpops

/-- What is done inside a block ends with the variables of the block dropped. -/
theorem At.inBlock {x : Eval Unit} {ip' : Nat} (h : S.At ip vars σ [] m)
    (hx : ∀ σ, S.At ip ([] :: vars) σ [] m →
      S.Runs m (x σ) fun _ σ' => S.At ip' (new :: vars) σ' [])
    (hexit : S.Has ip' ((Scope.ofBlocks (new :: vars)).exit (Scope.ofBlocks vars).length)) :
    S.Runs m (Eval.inBlock x σ) fun _ σ' => S.At
      (ip' + ((Scope.ofBlocks (new :: vars)).exit (Scope.ofBlocks vars).length).length) vars σ' [] := by
  rw [(Scope.leave_block new vars).1] at hexit ⊢
  show S.Runs m ((x >>= fun _ => modify fun σ => { σ with blocks := σ.blocks.tail })
    { σ with blocks := [] :: σ.blocks }) _
  refine (hx _ h.enterBlock).bind fun _ σ' m' h' => ?_
  obtain ⟨ds, hlength, hleft⟩ := h'.leaveBlock
  rw [← hlength] at hexit ⊢
  rw [List.length_replicate]
  exact hleft.pops hexit

/-! ### Declarations -/

/-- A value becomes the one of a new variable. -/
theorem At.declare (h : S.At ip vars σ [d] m)
    (hbinds : Binds S.body (.ofBlocks vars) name (!vars.isEmpty) ws scope) (hws : S.Has ip ws) :
    S.Runs m (Eval.declare name d σ) fun _ σ' => S.At (ip + ws.length) (grow [name] vars) σ' [] := by
  cases vars with
  | nil =>
    cases hbinds with
    | global names => exact h.define names (List.map_eq_nil_iff.mp h.2.declared) (has_cons.mp hws).1
  | cons names rest =>
    cases hbinds with
    | local_ =>
      obtain ⟨env, others, hblocks, henv, hothers⟩ := List.map_eq_cons_iff.mp h.2.declared
      have hdeclare : σ.declare name d = { σ with blocks := ((name, d) :: env) :: others } := by
        rw [Store.declare, hblocks]
      show S.Runs m (.ok () (σ.declare name d)) _
      rw [hdeclare]
      refine .ok ⟨h.1, { h.2 with declared := ?_, values := ?_ }⟩
      · rw [Store.declared, List.map_cons, hothers, List.map_cons, henv]
        rfl
      · obtain ⟨c, vs, hstack, hdenote⟩ := h.2.values
        refine ⟨c, vs, hstack, ?_⟩
        rwa [Store.values, Store.locals, hblocks] at hdenote

/-! ### Conditions and loops -/

/-- A condition is dropped, both where it holds and where it does not. -/
theorem At.test {test : Core.Expr} (hp : ProperNames test.tree.tokens) (h : S.At ip vars σ [] m)
    (hcodes : test.tree.Codes S.body (.ofBlocks vars) v) (hv : S.Has ip v)
    (hjump : S.chunk.code[ip + v.length]? = some (Instr.jumpIfFalse k).encode)
    (hpop : S.chunk.code[ip + v.length + 1]? = some Instr.pop.encode)
    (hpop' : S.chunk.code[ip + v.length + 1 + k.toNat]? = some Instr.pop.encode) :
    S.Runs m (test.holds σ) fun holds σ' => S.At
      (if holds then ip + v.length + 2 else ip + v.length + 1 + k.toNat + 1) vars σ' [] := by
  refine (evaluates hp h hcodes hv).bind fun d σ' _ hd => ?_
  refine Runs.andThen (hd.jumpIfFalse hjump) fun m hm => ?_
  show S.Runs m (.ok (!d.isFalsey) σ') _
  cases hfalsey : d.isFalsey with
  | true =>
    rw [hfalsey, if_pos rfl] at hm
    exact Runs.andThen (hm.pop hpop') fun m hm => .ok hm
  | false =>
    rw [hfalsey, if_neg Bool.false_ne_true] at hm
    exact Runs.andThen (hm.pop hpop) fun m hm => .ok hm

/-- What holds where a round begins holds where the next one begins, until there is none. -/
theorem Runs.rounds {round : Eval Bool} {P Q : Store → Machine → Prop}
    (hround : ∀ σ m, P σ m → S.Runs m (round σ) fun again σ' m' => if again then P σ' m' else Q σ' m')
    (h : P σ m) : S.Runs m (Eval.rounds round fuel σ) fun _ => Q := by
  induction fuel generalizing σ m with
  | zero => exact ⟨0, .unfinished⟩
  | succ fuel ih =>
    refine (hround σ m h).bind fun again σ' m' h' => ?_
    cases again with
    | true => exact ih h'
    | false => exact .ok h'

/-! ### Counting loops -/

section Counting

variable {test step : Option Core.Expr} {T X P w : List UInt32} {after before back start : Nat}

/-- The condition of a counting loop, which may be missing. -/
theorem At.optionTest (hp : ProperNames (Expr.optionTokens (test.map Core.Expr.tree)))
    (h : S.At ip vars σ [] m)
    (hcodes : TestCodes S.body (.ofBlocks vars) after (test.map Core.Expr.tree) T X)
    (hT : S.Has ip T) (hX : S.Has (ip + T.length + after) X) :
    S.Runs m (Core.Expr.optionHolds test σ) fun holds σ' => S.At
      (if holds then ip + T.length else ip + T.length + after + X.length) vars σ' [] := by
  cases test with
  | none =>
    cases hcodes
    exact .ok h
  | some test =>
    cases hcodes with
    | @some _ v d codes leave =>
      obtain ⟨hv, hjump, hpop⟩ := by simpa using hT
      have hpop' : S.chunk.code[ip + v.length + 1 + d.toNat]? = some Instr.pop.encode := by
        have := (has_cons.mp hX).1
        rw [leave]
        simpa [Nat.add_assoc, Nat.add_comm, Nat.add_left_comm] using this
      have := h.test hp codes hv hjump hpop hpop'
      rw [leave] at this
      show S.Runs m (test.holds σ) _
      simpa [Nat.add_assoc, Nat.add_comm, Nat.add_left_comm] using this

/-- The code of a loop jumps back to its step or to its condition. -/
theorem back_le {e : Option Expr} (h : StepCodes S.body scope before e P back) :
    back ≤ before + P.length := by
  cases h with
  | none => exact Nat.le_add_right _ _
  | some => simp; omega

/-- What is done after the body stands before it, so it is skipped at first. -/
theorem At.beforeBody {e : Option Expr} (h : S.At ip vars σ [] m)
    (hcodes : StepCodes S.body scope before e P back) (hP : S.Has ip P) :
    S.Runs m (.ok () σ) fun _ σ' => S.At (ip + P.length) vars σ' [] := by
  cases hcodes with
  | none => exact .ok h
  | some codes skip start =>
    refine Runs.andThen (h.jump (has_cons.mp hP).1) fun m hm => .ok ?_
    rw [skip] at hm
    simpa [Nat.add_assoc, Nat.add_comm, Nat.add_left_comm] using hm

/-- What is done after the body leads to the next round. -/
theorem At.optionStep (hp : ProperNames (Expr.optionTokens (step.map Core.Expr.tree)))
    (h : S.At (start + before + P.length - back) vars σ [] m)
    (hcodes : StepCodes S.body (.ofBlocks vars) before (step.map Core.Expr.tree) P back)
    (hP : S.Has (start + before) P) :
    S.Runs m (Core.Expr.optionDo step σ) fun _ σ' => S.At start vars σ' [] := by
  cases step with
  | none =>
    cases hcodes
    rw [List.length_nil, Nat.add_zero, Nat.add_sub_cancel] at h
    exact .ok h
  | some step =>
    cases hcodes with
    | @some _ v d d' codes skip leap =>
      obtain ⟨-, hv, hpop, hloop⟩ := by simpa using hP
      have hstart : start + before + ((Instr.jump d).encode :: v ++
          [Instr.pop.encode, (Instr.loop d').encode]).length - (v.length + 2) = start + before + 1 := by
        simp
        omega
      rw [hstart] at h
      refine (evaluates hp h codes hv).bind fun d σ' _ hd => ?_
      refine Runs.andThen (hd.pop hpop) fun m hm => ?_
      refine Runs.andThen (hm.loop hloop (by omega)) fun m hm => .ok ?_
      rwa [show start + before + 1 + v.length + 1 + 1 - d'.toNat = start by omega] at hm

/-- The rounds of a counting loop. -/
theorem At.rounds {x : Eval Unit} (hptest : ProperNames (Expr.optionTokens (test.map Core.Expr.tree)))
    (hpstep : ProperNames (Expr.optionTokens (step.map Core.Expr.tree))) (h : S.At ip vars σ [] m)
    (htest : TestCodes S.body (.ofBlocks vars) (P.length + w.length + 1) (test.map Core.Expr.tree) T X)
    (hstep : StepCodes S.body (.ofBlocks vars) T.length (step.map Core.Expr.tree) P back)
    (hback : k.toNat = back + w.length + 1)
    (hws : S.Has ip (T ++ P ++ w ++ (Instr.loop k).encode :: X))
    (hx : ∀ σ m, S.At (ip + T.length + P.length) vars σ [] m →
      S.Runs m (x σ) fun _ σ' => S.At (ip + T.length + P.length + w.length) vars σ' []) :
    S.Runs m (Eval.rounds (do
      if ← Core.Expr.optionHolds test then
        x
        Core.Expr.optionDo step
        return true
      else return false) fuel σ) fun _ σ' =>
        S.At (ip + (T ++ P ++ w ++ (Instr.loop k).encode :: X).length) vars σ' [] := by
  obtain ⟨hT, hP, -, hloop, hX⟩ := by simpa [Nat.add_assoc] using hws
  have hle : back ≤ T.length + P.length := back_le hstep
  refine Runs.rounds (P := fun σ m => S.At ip vars σ [] m) (fun σ m hm => ?_) h
  refine (hm.optionTest hptest htest hT (by simpa [Nat.add_assoc] using hX)).bind
    fun holds σ m hm => ?_
  cases holds with
  | false =>
    refine .ok ?_
    simpa [Nat.add_assoc, Nat.add_comm, Nat.add_left_comm] using hm
  | true =>
    rw [if_pos rfl] at hm
    refine Runs.andThen (hm.beforeBody hstep hP) fun m hm => ?_
    refine (hx _ _ hm).bind fun _ σ m hm => ?_
    refine Runs.andThen (hm.loop (by simpa [Nat.add_assoc] using hloop) (by omega)) fun m hm => ?_
    have hm' : S.At (ip + T.length + P.length - back) vars σ [] m := by
      rwa [hback, show ip + T.length + P.length + w.length + 1 - (back + w.length + 1) =
        ip + T.length + P.length - back by omega] at hm
    exact (hm'.optionStep hpstep hstep hP).bind fun _ _ _ hm => .ok hm

end Counting

/-! ### Statements -/

/-- Statements are executed one after the other, by induction on them. -/
theorem executesList {body : List Core.Stmt}
    (hbody : ∀ s ∈ body, ProperNames s.tree.tokens → ∀ {ip vars σ m ws scope},
      S.At ip vars σ [] m → s.tree.Codes S.body (.ofBlocks vars) (!vars.isEmpty) ws scope →
        S.Has ip ws → S.Runs m (s.exec fuel σ) fun _ σ' =>
          S.At (ip + ws.length) (grow s.declares vars) σ' [])
    (hp : ProperNames (Stmt.listTokens (Core.Stmt.listTree body))) (h : S.At ip vars σ [] m)
    (hcodes : Stmt.ListCodes S.body (.ofBlocks vars) (!vars.isEmpty) (Core.Stmt.listTree body) ws scope)
    (hws : S.Has ip ws) : S.Runs m (Core.Stmt.listExec fuel body σ) fun _ σ' =>
      S.At (ip + ws.length) (grow (Core.Stmt.listDeclares body) vars) σ' [] := by
  induction body generalizing ip vars σ m ws with
  | nil =>
    cases hcodes
    refine .ok ?_
    simpa [Core.Stmt.listDeclares] using h
  | cons s body ih =>
    obtain ⟨hone, hmore⟩ := List.forall_mem_cons.mp hbody
    obtain ⟨hpone, hpmore⟩ := properNames_append.mp hp
    cases hcodes with
    | cons first height rest =>
      obtain ⟨hfirst, hrest⟩ := has_append.mp hws
      refine (hone hpone h first hfirst).bind fun _ σ m hm => ?_
      obtain rfl := Core.Stmt.scope_of_codes first
      rw [← Scope.isEmpty_grow s.declares] at rest
      have := ih hmore hpmore hm rest hrest
      rwa [Scope.grow_grow, Nat.add_assoc, ← List.length_append] at this

/-- A first clause is executed, if there is one. -/
theorem executesOption {init : Option Core.Stmt}
    (hinit : ∀ s, init = some s → ∀ {ip vars σ m ws scope}, S.At ip vars σ [] m →
      s.tree.Codes S.body (.ofBlocks vars) (!vars.isEmpty) ws scope →
        S.Has ip ws → S.Runs m (s.exec fuel σ) fun _ σ' =>
          S.At (ip + ws.length) (grow s.declares vars) σ' [])
    (h : S.At ip ([] :: vars) σ [] m)
    (hcodes : Stmt.OptionCodes S.body (.ofBlocks vars) (Core.Stmt.optionTree init) ws scope)
    (hws : S.Has ip ws) : S.Runs m (Core.Stmt.optionExec fuel init σ) fun _ σ' =>
      S.At (ip + ws.length) (grow (Core.Stmt.optionDeclares init) ([] :: vars)) σ' [] := by
  cases init with
  | none =>
    cases hcodes
    exact .ok h
  | some s =>
    cases hcodes with
    | some codes height => exact hinit s rfl h codes hws

/-- The code of a statement does what the evaluation does. -/
theorem executes {s : Core.Stmt} (hp : ProperNames s.tree.tokens) (h : S.At ip vars σ [] m)
    (hcodes : s.tree.Codes S.body (.ofBlocks vars) (!vars.isEmpty) ws scope) (hws : S.Has ip ws) :
    S.Runs m (s.exec fuel σ) fun _ σ' => S.At (ip + ws.length) (grow s.declares vars) σ' [] := by
  induction s generalizing ip vars σ m ws scope with
  | let_ name init =>
    cases init with
    | none =>
      cases hcodes with
      | declare binds =>
        obtain ⟨hnull, hdefine⟩ := has_cons.mp hws
        have hpushed := h.pushes (d := .null) (i := .null) hnull (fun heq => by cases heq)
          fun _ _ _ => ⟨_, rfl, .null⟩
        refine Runs.andThen hpushed fun m hm => ?_
        rw [List.length_cons, Nat.add_comm _ 1, ← Nat.add_assoc]
        exact hm.declare binds hdefine
    | some e =>
      simp [Core.Stmt.tree, Stmt.tokens] at hp
      cases hcodes with
      | define value binds =>
        obtain ⟨hvalue, hdefine⟩ := has_append.mp hws
        refine (evaluates hp.2 h value hvalue).bind fun d σ m hm => ?_
        rw [List.length_append, ← Nat.add_assoc]
        exact hm.declare binds hdefine
  | print e =>
    simp [Core.Stmt.tree, Stmt.tokens] at hp
    cases hcodes with
    | print value =>
      obtain ⟨hvalue, hprint⟩ := by simpa using hws
      refine (evaluates hp h value hvalue).bind fun d σ m hm => ?_
      simpa [Nat.add_assoc, Core.Stmt.declares] using hm.print hprint
  | expression e =>
    simp [Core.Stmt.tree, Stmt.tokens] at hp
    cases hcodes with
    | expression value =>
      obtain ⟨hvalue, hpop⟩ := by simpa using hws
      refine (evaluates hp h value hvalue).bind fun d σ m hm => ?_
      simpa [Nat.add_assoc, Core.Stmt.declares] using hm.pop hpop
  | if_ test body otherwise hbody hotherwise =>
    show S.Runs m _ fun _ σ' => S.At (ip + ws.length) (grow [] vars) σ' []
    rw [Scope.grow_nil]
    cases otherwise with
    | none =>
      simp [Core.Stmt.tree, Core.Stmt.optionTree, Stmt.tokens] at hp
      cases hcodes with
      | when_ condition yes same skip leave =>
        obtain rfl := Core.Stmt.scope_of_codes yes
        obtain ⟨hv, hbranch, hpop, hw, hjump, hpop'⟩ := by simpa [Nat.add_assoc] using hws
        have htest := h.test hp.1 condition hv hbranch hpop
          (by rw [skip]; simpa [Nat.add_assoc, Nat.add_comm, Nat.add_left_comm] using hpop')
        refine htest.bind fun holds σ m hm => ?_
        cases holds with
        | false =>
          rw [if_neg Bool.false_ne_true, skip] at hm
          refine .ok ?_
          simpa [Nat.add_assoc, Nat.add_comm, Nat.add_left_comm] using hm
        | true =>
          rw [if_pos rfl] at hm
          refine (hbody hp.2 hm yes hw).finish fun _ σ m hm => ?_
          rw [Scope.grow_eq_of_length same] at hm
          refine (hm.jump (by simpa [Nat.add_assoc] using hjump)).imp fun _ _ _ hm => ?_
          rw [leave] at hm
          simpa [Nat.add_assoc, Nat.add_comm, Nat.add_left_comm] using hm
    | some otherwise =>
      simp [Core.Stmt.tree, Core.Stmt.optionTree, Stmt.tokens] at hp
      cases hcodes with
      | if_ condition yes no same same' skip leave =>
        obtain rfl := Core.Stmt.scope_of_codes yes
        rw [Scope.grow_eq_of_length same] at no same'
        obtain rfl := Core.Stmt.scope_of_codes no
        obtain ⟨hv, hbranch, hpop, hw, hjump, hpop', hu⟩ := by simpa [Nat.add_assoc] using hws
        have htest := h.test hp.1 condition hv hbranch hpop
          (by rw [skip]; simpa [Nat.add_assoc, Nat.add_comm, Nat.add_left_comm] using hpop')
        refine htest.bind fun holds σ m hm => ?_
        cases holds with
        | false =>
          rw [if_neg Bool.false_ne_true, skip] at hm
          refine (hotherwise _ rfl hp.2.2 hm no ?_).imp fun _ _ _ hm => ?_
          · simpa [Nat.add_assoc, Nat.add_comm, Nat.add_left_comm] using hu
          rw [Scope.grow_eq_of_length same'] at hm
          simpa [Nat.add_assoc, Nat.add_comm, Nat.add_left_comm] using hm
        | true =>
          rw [if_pos rfl] at hm
          refine (hbody hp.2.1 hm yes hw).finish fun _ σ m hm => ?_
          rw [Scope.grow_eq_of_length same] at hm
          refine (hm.jump (by simpa [Nat.add_assoc] using hjump)).imp fun _ _ _ hm => ?_
          rw [leave] at hm
          simpa [Nat.add_assoc, Nat.add_comm, Nat.add_left_comm] using hm
  | while_ test body hbody =>
    show S.Runs m _ fun _ σ' => S.At (ip + ws.length) (grow [] vars) σ' []
    rw [Scope.grow_nil]
    simp [Core.Stmt.tree, Stmt.tokens] at hp
    cases hcodes with
    | @while_ _ _ _ _ _ _ v w d d' condition codes same leave back =>
      obtain rfl := Core.Stmt.scope_of_codes codes
      have hws' : S.Has ip (v ++ [(Instr.jumpIfFalse d).encode, Instr.pop.encode] ++ [] ++ w ++
          (Instr.loop d').encode :: [Instr.pop.encode]) := by simpa using hws
      have hx (σ : Store) (m : Machine)
          (hm : S.At (ip + (v ++ [(Instr.jumpIfFalse d).encode, Instr.pop.encode]).length) vars σ [] m) :=
        hbody hp.2 hm codes (has_append.mp (has_append.mp hws).1).2
      rw [Scope.grow_eq_of_length same] at hx
      -- a loop without a counter is a counting loop with nothing to do after its body
      have htest : TestCodes S.body (.ofBlocks vars) (0 + w.length + 1)
          ((some test).map Core.Expr.tree) _ _ := .some condition (by rw [leave]; omega)
      have hptest : ProperNames (Expr.optionTokens ((some test).map Core.Expr.tree)) := hp.1
      have hpstep : ProperNames (Expr.optionTokens ((none : Option Core.Expr).map Core.Expr.tree)) :=
        properNames_nil
      have hstep : StepCodes S.body (.ofBlocks vars)
          (v ++ [(Instr.jumpIfFalse d).encode, Instr.pop.encode]).length
          ((none : Option Core.Expr).map Core.Expr.tree) [] _ := .none
      rw [← List.append_nil (v ++ [(Instr.jumpIfFalse d).encode, Instr.pop.encode])]
      exact h.rounds hptest hpstep htest hstep (by simp; omega) hws' hx
  | doWhile body test hbody =>
    show S.Runs m _ fun _ σ' => S.At (ip + ws.length) (grow [] vars) σ' []
    rw [Scope.grow_nil]
    simp [Core.Stmt.tree, Stmt.tokens] at hp
    cases hcodes with
    | @doWhile _ _ _ _ _ _ v w d d' codes condition same leave back =>
      obtain rfl := Core.Stmt.scope_of_codes codes
      obtain ⟨hv, hw, hbranch, hpop, hloop, hpop'⟩ := by simpa [Nat.add_assoc] using hws
      refine Runs.rounds (P := fun σ m => S.At ip vars σ [] m) (fun σ m hm => ?_) h
      refine (hbody hp.1 hm codes hv).bind fun _ σ m hm => ?_
      rw [Scope.grow_eq_of_length same] at hm condition
      refine (hm.test hp.2 condition hw (by simpa [Nat.add_assoc] using hbranch)
        (by simpa [Nat.add_assoc] using hpop)
        (by rw [leave]; simpa [Nat.add_assoc] using hpop')).finish fun holds σ m hm => ?_
      cases holds with
      | false =>
        rw [if_neg Bool.false_ne_true, leave] at hm
        refine .ok ?_
        simpa [Nat.add_assoc] using hm
      | true =>
        rw [if_pos rfl] at hm
        refine Runs.andThen (hm.loop (by simpa [Nat.add_assoc] using hloop) (by omega)) fun m hm => .ok ?_
        rwa [show ip + v.length + w.length + 2 + 1 - d'.toNat = ip by omega] at hm
  | for_ init test step body hinit hbody =>
    show S.Runs m _ fun _ σ' => S.At (ip + ws.length) (grow [] vars) σ' []
    rw [Scope.grow_nil]
    have hproper : (∀ s, init = some s → ProperNames s.tree.tokens) ∧
        ProperNames (Expr.optionTokens (test.map Core.Expr.tree)) ∧
          ProperNames (Expr.optionTokens (step.map Core.Expr.tree)) ∧
            ProperNames body.tree.tokens := by
      cases init with
      | none =>
        simp [Core.Stmt.tree, Core.Stmt.optionTree, Stmt.tokens] at hp
        exact ⟨fun s hsome => (by cases hsome), hp⟩
      | some s =>
        simp [Core.Stmt.tree, Core.Stmt.optionTree, Stmt.tokens] at hp
        exact ⟨fun s hsome => Option.some.inj hsome ▸ hp.1, hp.2⟩
    obtain ⟨hpinit, hptest, hpstep, hpbody⟩ := hproper
    cases hcodes with
    | @for_ _ _ scope₁ scope₂ _ _ _ _ _ first T X P w back d start condition advance codes same loop =>
      obtain rfl := Core.Stmt.scope_of_optionCodes (fun _ _ _ _ _ => Core.Stmt.scope_of_codes) start
      obtain rfl := @Core.Stmt.scope_of_codes S.body
        ((Core.Stmt.optionDeclares init ++ []) :: vars) _ _ _ codes
      have hsame := Scope.grow_eq_of_length same
      rw [hsame] at hws ⊢
      obtain ⟨hcode, hexit⟩ := has_append.mp hws
      obtain ⟨hfirst, hloop⟩ := has_append.mp hcode
      rw [List.length_append, ← Nat.add_assoc]
      refine h.inBlock (fun σ hσ => ?_) hexit
      refine (executesOption (fun s hs _ _ _ _ _ _ h hcodes hws => hinit s hs (hpinit s hs) h hcodes hws)
        hσ start hfirst).bind fun _ σ m hm => ?_
      rw [List.length_append, ← Nat.add_assoc]
      refine hm.rounds hptest hpstep condition advance loop hloop fun σ m hm => ?_
      have hw : S.Has (ip + first.length + T.length + P.length) w := by
        have := (has_append.mp (has_append.mp hloop).1).2
        rwa [List.length_append, ← Nat.add_assoc] at this
      have := hbody hpbody hm codes hw
      rwa [hsame] at this
  | block body hbody =>
    show S.Runs m _ fun _ σ' => S.At (ip + ws.length) (grow [] vars) σ' []
    rw [Scope.grow_nil]
    simp [Core.Stmt.tree, Stmt.tokens] at hp
    cases hcodes with
    | @block _ _ _ _ _ w codes =>
      obtain rfl := @Core.Stmt.scope_of_listCodes S.body ([] :: vars) _ _ _
        (fun _ _ _ _ _ => Core.Stmt.scope_of_codes) codes
      obtain ⟨hw, hexit⟩ := has_append.mp hws
      have hx (σ : Store) (hσ : S.At ip ([] :: vars) σ [] m) :
          S.Runs m (Core.Stmt.listExec fuel body σ) fun _ σ' =>
            S.At (ip + w.length) ((Core.Stmt.listDeclares body ++ []) :: vars) σ' [] :=
        executesList (fun s hs hp _ _ _ _ _ _ h hcodes hws => hbody s hs hp h hcodes hws) hp hσ codes hw
      rw [List.length_append, ← Nat.add_assoc]
      exact h.inBlock hx hexit

end Script

end ScriptMachine
