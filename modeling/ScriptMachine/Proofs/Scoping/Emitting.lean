import ScriptMachine.Proofs.Scoping.Expressions
import ScriptMachine.Proofs.Syntax.Postorder

/-!
# The code of an expression is that of its tree

No function has a constant or a capture twice, and no heap has a text twice. So there is only one
place where a name is found and only one index of a constant, and the code of an expression is what
its tree is translated to, however it is written. The constants that it takes are those of its tree
in the order of the translation; one that the function has already is not added again.
-/

namespace ScriptMachine

open Compile

/-! ### Constants -/

namespace Heap

variable {h h' : Heap} {v w : Value} {content : String}

/-- What a value is as a constant: the content, if it refers to a text. -/
def constantOf (h : Heap) (v : Value) : Constant :=
  match v.toHandle?.bind h.object? with
  | some (.string text) =>
    if v.toHandle?.any fun r => v = .ofHandle r then .text text.chars else .value v
  | _ => .value v

/-- A string stands for its text among the constants. -/
theorem constantOf_text {r : Handle} {text : Interned} (hr : h.object? r = some (.string text)) :
    h.constantOf (.ofHandle r) = .text text.chars := by
  simp [constantOf, hr]

/-- A number stands for itself among the constants. -/
@[simp] theorem constantOf_ofFloat (x : Float) :
    h.constantOf (.ofFloat x) = .value (.ofFloat x) := by
  simp [constantOf]

/-- A constant with a content refers to a text. -/
theorem constantOf_eq_text (hv : h.constantOf v = .text content) : ∃ r text,
    v = .ofHandle r ∧ h.object? r = some (.string text) ∧ text.chars = content := by
  unfold constantOf at hv
  split at hv
  · next text htext =>
    obtain ⟨r, hr, hobject⟩ := Option.bind_eq_some_iff.mp htext
    rw [hr, Option.any_some] at hv
    split at hv
    · next heq =>
      exact ⟨r, text, of_decide_eq_true heq, hobject, Constant.text.inj hv⟩
    · cases hv
  · cases hv

/-- A constant that stands for a value is that value. -/
theorem constantOf_eq_value (hv : h.constantOf v = .value w) : v = w := by
  unfold constantOf at hv
  split at hv
  · split at hv
    · cases hv
    · exact Constant.value.inj hv
  · exact Constant.value.inj hv

/-- Two values are the same constant only if they are the same. -/
theorem Sound.constantOf_inj (hs : h.Sound) (hvw : h.constantOf v = h.constantOf w) : v = w := by
  cases hw : h.constantOf w with
  | value u =>
    rw [hw] at hvw
    exact (constantOf_eq_value hvw).trans (constantOf_eq_value hw).symm
  | text content =>
    rw [hw] at hvw
    obtain ⟨r, s, rfl, hr, hs'⟩ := constantOf_eq_text hvw
    obtain ⟨x, t, rfl, hx, ht⟩ := constantOf_eq_text hw
    rw [hs.interning.unique r x s t hr hx (hs'.trans ht.symm)]

/-- A constant stays what it is while what it refers to does. -/
theorem constantOf_congr (hv : ∀ r, v.toHandle? = some r → h'.object? r = h.object? r) :
    h'.constantOf v = h.constantOf v := by
  have hbind : v.toHandle?.bind h'.object? = v.toHandle?.bind h.object? := by
    cases hr : v.toHandle? with
    | none => rfl
    | some r => exact hv r hr
  rw [constantOf, hbind, constantOf]

end Heap

/-! ### What is found only once -/

namespace Body

variable {B : Body} {scope : Scope} {name : String} {a b : Access} {k : UInt16} {v : Value}

/-- The constants of a body. -/
def pool (B : Body) : List Constant := B.constants.map B.heap.constantOf

/-- The index of a constant. -/
def index (B : Body) (c : Constant) : UInt16 := (B.pool.idxOf c).toUInt16

/-- Texts are interned, and neither constants nor captures are listed twice. -/
structure Orderly (B : Body) : Prop where
  sound : B.heap.Sound
  constants : B.constants.Nodup
  few : B.constants.length ≤ Chunk.maxConstants
  captures : B.captures.Nodup
  outer : ∀ level ∈ B.outer, level.captures.Nodup

/-- A constant is where its index says. -/
theorem Orderly.index_eq (hB : B.Orderly) (hk : B.constants[k.toNat]? = some v) :
    B.index (B.heap.constantOf v) = k := by
  obtain ⟨hlt, hget⟩ := List.getElem?_eq_some_iff.mp hk
  have hnodup : B.pool.Nodup := hB.constants.map fun _ _ => hB.sound.constantOf_inj
  have hlt' : k.toNat < B.pool.length := by simpa [pool] using hlt
  have hpool : B.pool[k.toNat] = B.heap.constantOf v := by simp [pool, hget]
  rw [index, ← hpool, hnodup.idxOf_getElem]
  exact UInt16.ofNat_toNat

/-- A name is found among the constants where it stands. -/
theorem Names.index_eq (hB : B.Orderly) (hk : B.Names k name) : B.index (.text name) = k := by
  obtain ⟨r, text, hconstant, hobject, rfl⟩ := hk
  rw [← Heap.constantOf_text hobject]
  exact hB.index_eq hconstant

/-- A name is found in one place. -/
theorem Finds.unique (hB : B.Orderly) (h : B.Finds scope name a) (h' : B.Finds scope name b) :
    a = b := by
  have hreaches {i : Nat} (hi : Reaches name B.captures B.outer i)
      (haround : ∀ level ∈ B.outer, level.scope.Lacks name) : False := by
    generalize B.captures = captures, B.outer = levels at hi haround
    induction hi with
    | local_ _ declares => exact declares.not_lacks (haround _ List.mem_cons_self)
    | upvalue _ _ _ ih => exact ih fun level hlevel => haround level (List.mem_cons_of_mem _ hlevel)
  cases h with
  | local_ declares =>
    cases h' with
    | local_ declares' => rw [UInt8.toNat_inj.mp (declares.unique declares')]
    | upvalue lacks => exact absurd lacks declares.not_lacks
    | global lacks => exact absurd lacks declares.not_lacks
  | upvalue lacks reaches =>
    cases h' with
    | local_ declares => exact absurd lacks declares.not_lacks
    | upvalue _ reaches' =>
      rw [UInt8.toNat_inj.mp (reaches.unique hB.captures hB.outer reaches')]
    | global _ around => exact (hreaches reaches around).elim
  | global lacks around names =>
    cases h' with
    | local_ declares => exact absurd lacks declares.not_lacks
    | upvalue _ reaches => exact (hreaches reaches around).elim
    | global _ _ names' => rw [← names.index_eq hB, names'.index_eq hB]

/-- Every name of a scope has a place. -/
theorem Orderly.exists_place (hB : B.Orderly) (scope : Scope) :
    ∃ place : String → Access, ∀ name a, B.Finds scope name a → place name = a := by
  have hplace (name : String) : ∃ p, ∀ a, B.Finds scope name a → p = a := by
    by_cases hfound : ∃ p, B.Finds scope name p
    · obtain ⟨p, hp⟩ := hfound
      exact ⟨p, fun a ha => hp.unique hB ha⟩
    · exact ⟨.local_ 0, fun a ha => absurd ⟨a, ha⟩ hfound⟩
  exact ⟨_, fun name => (hplace name).choose_spec⟩

end Body

/-- The operands are the places and indices of a body. -/
structure Operands.Serves (O : Operands) (B : Body) (scope : Scope) : Prop where
  place : ∀ name a, B.Finds scope name a → O.place name = a
  name : ∀ name k, B.Names k name → O.index (.text name) = k
  number : ∀ x (k : UInt16), B.constants[k.toNat]? = some (.ofFloat x) →
    O.index (.value (.ofFloat x)) = k

/-- The places and constants of a function serve as operands of its expressions. -/
theorem Body.Orderly.serves {B : Body} {scope : Scope} {place : String → Access} (hB : B.Orderly)
    (hplace : ∀ name a, B.Finds scope name a → place name = a) :
    Operands.Serves ⟨place, B.index⟩ B scope where
  place := hplace
  name := fun _ _ hk => hk.index_eq hB
  number := fun x _ hk => Heap.constantOf_ofFloat (h := B.heap) x ▸ hB.index_eq hk

/-! ### Words -/

section Words

variable {B : Body} {scope : Scope} {O : Operands} {ws : List UInt32}

/-- Arguments are in postorder, if each of them is. -/
theorem Expr.ListCodes.eq_postorder {args : List Expr}
    (hargs : ∀ e ∈ args, ∀ {ws}, e.Codes B scope ws → ws = (e.postorder O).map Instr.encode)
    (h : Expr.ListCodes B scope args ws) :
    ws = (Expr.listPostorder O args).map Instr.encode := by
  induction args generalizing ws with
  | nil =>
    cases h
    rfl
  | cons e es ih =>
    cases h with
    | cons first rest =>
      obtain ⟨he, hes⟩ := List.forall_mem_cons.mp hargs
      rw [Expr.listPostorder, List.map_append, ← he first, ← ih hes rest]

/-- The code of an expression is that of its tree. -/
theorem Expr.Codes.eq_postorder {e : Expr} (hO : O.Serves B scope) (h : e.Codes B scope ws) :
    ws = (e.postorder O).map Instr.encode := by
  have hcount {count : UInt8} {n : Nat} (hn : count.toNat = n) : count = n.toUInt8 :=
    hn ▸ UInt8.ofNat_toNat.symm
  have hdistance {d : UInt16} {n : Nat} (hn : d.toNat = n) : d = n.toUInt16 :=
    hn ▸ UInt16.ofNat_toNat.symm
  induction e generalizing ws with
  | number x =>
    cases h with
    | number constant => rw [postorder, hO.number _ _ constant, List.map_singleton]
  | text content =>
    cases h with
    | text names => rw [postorder, hO.name _ _ names, List.map_singleton]
  | true_ | false_ | null =>
    cases h
    rfl
  | group e ih =>
    cases h with
    | group inner => exact ih inner
  | negate e ih =>
    cases h with
    | negate operand => rw [postorder, List.map_append, ← ih operand, List.map_singleton]
  | not e ih =>
    cases h with
    | not operand => rw [postorder, List.map_append, ← ih operand, List.map_singleton]
  | variable_ name =>
    cases h with
    | variable_ found => rw [postorder, hO.place _ _ found, List.map_singleton]
  | assign name e ih =>
    cases h with
    | assign found value =>
      rw [postorder, hO.place _ _ found, List.map_append, ← ih value, List.map_singleton]
  | update name op e ih =>
    cases h with
    | update found value =>
      obtain rfl := ih value
      simp [postorder, hO.place _ _ found]
  | this =>
    cases h with
    | this found => rw [postorder, hO.place _ _ found, List.map_singleton]
  | superGet name =>
    cases h with
    | superGet names receiver parent =>
      simp [postorder, hO.name _ _ names, hO.place _ _ receiver, hO.place _ _ parent]
  | superCall name args ih =>
    cases h with
    | superCall names receiver arguments number parent =>
      obtain rfl := arguments.eq_postorder ih
      simp [postorder, hO.name _ _ names, hO.place _ _ receiver, hO.place _ _ parent, hcount number]
  | binary op l r hl hr =>
    cases h with
    | binary left right => rw [postorder, List.map_append, List.map_append, ← hl left, ← hr right]
  | both l r hl hr =>
    cases h with
    | both left right skip =>
      obtain rfl := hl left
      obtain rfl := hr right
      rw [List.length_map] at skip
      simp [postorder, hdistance skip]
  | either l r hl hr =>
    cases h with
    | either left right skip leave =>
      obtain rfl := hl left
      obtain rfl := hr right
      rw [List.length_map] at leave
      simp [postorder, hdistance skip, hdistance leave]
  | call f args hf hargs =>
    cases h with
    | call callee arguments number =>
      obtain rfl := hf callee
      obtain rfl := arguments.eq_postorder hargs
      simp [postorder, hcount number]
  | get o name ho =>
    cases h with
    | get object names =>
      rw [postorder, hO.name _ _ names, List.map_append, ← ho object, List.map_singleton]
  | set o name e ho he =>
    cases h with
    | set object names value =>
      obtain rfl := ho object
      obtain rfl := he value
      simp [postorder, hO.name _ _ names]
  | updateField o name op e ho he =>
    cases h with
    | updateField object names value =>
      obtain rfl := ho object
      obtain rfl := he value
      simp [postorder, hO.name _ _ names]
  | invoke o name args ho hargs =>
    cases h with
    | invoke object names arguments number =>
      obtain rfl := ho object
      obtain rfl := arguments.eq_postorder hargs
      simp [postorder, hO.name _ _ names, hcount number]

/-- Every name of an expression is found. -/
theorem Expr.Codes.finds {e : Expr} {name : String} (h : e.Codes B scope ws)
    (hname : name ∈ e.names) : ∃ a, B.Finds scope name a := by
  have hlist {args : List Expr} {ws : List UInt32}
      (hargs : ∀ e ∈ args, ∀ {ws}, e.Codes B scope ws → name ∈ e.names → ∃ a, B.Finds scope name a)
      (h : Expr.ListCodes B scope args ws) (hname : name ∈ listNames args) :
      ∃ a, B.Finds scope name a := by
    induction args generalizing ws with
    | nil => cases hname
    | cons e es ih =>
      cases h with
      | cons first rest =>
        obtain ⟨he, hes⟩ := List.forall_mem_cons.mp hargs
        exact (List.mem_append.mp hname).elim (he first) (ih hes rest)
  induction e generalizing ws with
  | number | text | true_ | false_ | null => cases hname
  | group e ih =>
    cases h with
    | group inner => exact ih inner hname
  | negate e ih =>
    cases h with
    | negate operand => exact ih operand hname
  | not e ih =>
    cases h with
    | not operand => exact ih operand hname
  | get o _ ih =>
    cases h with
    | get object => exact ih object hname
  | variable_ =>
    cases h with
    | variable_ found => exact List.mem_singleton.mp hname ▸ ⟨_, found⟩
  | this =>
    cases h with
    | this found => exact List.mem_singleton.mp hname ▸ ⟨_, found⟩
  | assign _ e ih =>
    cases h with
    | assign found value =>
      rcases List.mem_cons.mp hname with rfl | hname
      · exact ⟨_, found⟩
      · exact ih value hname
  | update _ _ e ih =>
    cases h with
    | update found value =>
      rcases List.mem_cons.mp hname with rfl | hname
      · exact ⟨_, found⟩
      · exact ih value hname
  | superGet =>
    cases h with
    | superGet _ receiver parent =>
      rcases List.mem_cons.mp hname with rfl | hname
      · exact ⟨_, receiver⟩
      · exact List.mem_singleton.mp hname ▸ ⟨_, parent⟩
  | superCall _ args ih =>
    cases h with
    | superCall _ receiver arguments _ parent =>
      rcases List.mem_append.mp hname with hname | hname
      · rcases List.mem_cons.mp hname with rfl | hname
        · exact ⟨_, receiver⟩
        · exact hlist ih arguments hname
      · exact List.mem_singleton.mp hname ▸ ⟨_, parent⟩
  | binary _ l r hl hr =>
    cases h with
    | binary left right => exact (List.mem_append.mp hname).elim (hl left) (hr right)
  | both l r hl hr =>
    cases h with
    | both left right => exact (List.mem_append.mp hname).elim (hl left) (hr right)
  | either l r hl hr =>
    cases h with
    | either left right => exact (List.mem_append.mp hname).elim (hl left) (hr right)
  | call f args hf hargs =>
    cases h with
    | call callee arguments =>
      exact (List.mem_append.mp hname).elim (hf callee) (hlist hargs arguments)
  | set o _ e ho he =>
    cases h with
    | set object _ value => exact (List.mem_append.mp hname).elim (ho object) (he value)
  | updateField o _ _ e ho he =>
    cases h with
    | updateField object _ value => exact (List.mem_append.mp hname).elim (ho object) (he value)
  | invoke o _ args ho hargs =>
    cases h with
    | invoke object _ arguments =>
      exact (List.mem_append.mp hname).elim (ho object) (hlist hargs arguments)

end Words

namespace Compile

variable {before : Heap} {s s' : State} {α β : Type} {x : Compiler α} {f : α → Compiler β}
  {U V : (String → Access) → List Constant} {name : String}

/-- No constant is twice in a pool. -/
theorem Draft.Pooled.nodup {d : Draft} (hd : d.Pooled) : d.chunk.constants.toList.Nodup := by
  have hindex {i : Nat} (hi : i < d.chunk.constants.size) : i.toUInt16.toNat = i :=
    UInt16.toNat_ofNat_of_lt' (Nat.lt_of_lt_of_le hi hd.few)
  have hfind {i : Nat} (hi : i < d.chunk.constants.size) :
      d.pool[d.chunk.constants[i].bits]? = some i.toUInt16 :=
    (hd.index _ _).mpr (by rw [hindex hi, Array.getElem?_eq_getElem hi])
  refine List.nodup_iff_getElem?_ne_getElem?.mpr fun i j hlt hj heq => ?_
  rw [Array.length_toList] at hj
  have hi := Nat.lt_trans hlt hj
  rw [Array.getElem?_toList, Array.getElem?_toList, Array.getElem?_eq_getElem hi,
    Array.getElem?_eq_getElem hj, Option.some.injEq] at heq
  have hsame := hfind hi
  rw [heq, hfind hj, Option.some.injEq] at hsame
  exact Nat.ne_of_gt hlt (by rw [← hindex hi, ← hindex hj, hsame])

/-! ### Taking constants -/

/-- What comes after a step at the same place: whatever the function may become then, it may have
become before. -/
structure State.Keeps (before : Heap) (s s' : State) : Prop where
  steady : s'.Steady before
  site : s'.site = s.site
  completes : ∀ B : Body, B.Completes s' → B.Completes s

/-- Keeping twice is keeping. -/
theorem State.Keeps.trans {s'' : State} (h : s.Keeps before s') (h' : s'.Keeps before s'') :
    s.Keeps before s'' :=
  ⟨h'.steady, h'.site.trans h.site, fun B hB => h.completes B (h'.completes B hB)⟩

/-- What is added to the code in the same place is kept. -/
theorem State.Adds.keeps {w : List UInt32} (h : s.Adds before s' w) (hsite : s'.site = s.site) :
    s.Keeps before s' :=
  ⟨h.steady, hsite, fun _ => h.completes⟩

/-- A step that takes constants, which may depend on the places of variables. -/
def Takes (before : Heap) (x : Compiler α) (U : (String → Access) → List Constant) : Prop :=
  ∀ s a s', s.Steady before → x s = .ok a s' → s.Keeps before s' ∧
    ∀ (B : Body) (place : String → Access), B.Completes s' →
      (∀ name a, B.Finds s.site.scope name a → place name = a) →
      s'.body.pool = (U place).foldl takeConstant s.body.pool

/-- The constants taken are those, however they are written. -/
theorem Takes.congr (h : Takes before x U) (hU : ∀ place, U place = V place) :
    Takes before x V := by
  obtain rfl : U = V := funext hU
  exact h

/-- One step after another. -/
theorem Takes.then_ (hx : Takes before x U) (hf : ∀ a, Takes before (f a) V) :
    Takes before (x >>= f) fun place => U place ++ V place := by
  intro s b s' hs h
  obtain ⟨a, s₁, h₁, h₂⟩ := run_bind.mp h
  obtain ⟨hkeeps₁, hU⟩ := hx s a s₁ hs h₁
  obtain ⟨hkeeps₂, hV⟩ := hf a s₁ b s' hkeeps₁.steady h₂
  refine ⟨hkeeps₁.trans hkeeps₂, fun B place hB hplace => ?_⟩
  rw [List.foldl_append, ← hU B place (hkeeps₂.completes B hB) hplace]
  exact hV B place hB (hkeeps₁.site ▸ hplace)

/-- A step after one that takes nothing. -/
theorem Takes.after (hx : Takes before x fun _ => []) (hf : ∀ a, Takes before (f a) U) :
    Takes before (x >>= f) U := hx.then_ hf

/-- A step before one that takes nothing. -/
theorem Takes.before_ (hx : Takes before x U) (hf : ∀ a, Takes before (f a) fun _ => []) :
    Takes before (x >>= f) U :=
  (hx.then_ hf).congr fun _ => List.append_nil _

/-- Giving a value back takes no constant. -/
theorem takes_pure {a : α} : Takes before (pure a) fun _ => [] := by
  intro s b s' hs h
  obtain ⟨rfl, rfl⟩ := run_pure.mp h
  exact ⟨⟨hs, rfl, fun _ => id⟩, fun _ _ _ _ => rfl⟩

/-- Going past a token takes nothing. -/
theorem takes_advance : Takes before advance fun _ => [] := by
  intro s _ s' hs h
  obtain rfl := (EStateM.Result.ok.inj h).2
  have hadds : s.Adds before _ [] := (State.Adds.refl hs).resite (s.pos + 1) (g := s.site)
    hs.settled (hs.tidy s.draft List.mem_cons_self).locals
  exact ⟨hadds.keeps rfl, fun _ _ _ _ => rfl⟩

/-- A step that only changes the code takes nothing. -/
theorem takes_recode (hx : ∀ s a s', s.Live before → x s = .ok a s' →
    ∃ code lines, s' = s.recode code lines) : Takes before x fun _ => [] := by
  intro s a s' hs h
  obtain ⟨code, lines, rfl⟩ := hx s a s' hs.live h
  have hsteady : (s.recode code lines).Steady before :=
    { live := hs.live.recode code lines
      tidy := List.forall_mem_cons.mpr ⟨
        have ht := hs.tidy s.draft List.mem_cons_self
        ⟨ht.pooled.congr rfl rfl, ht.locals, ht.captures, ht.distinct⟩,
        (List.forall_mem_cons.mp hs.tidy).2⟩
      settled := hs.settled
      around := hs.around
      marks := hs.marks }
  exact ⟨⟨hsteady, rfl, fun B hB => ⟨hB.kind, hB.constants, hB.captures, hB.outer, hB.heap⟩⟩,
    fun _ _ _ _ => rfl⟩

/-- Emitting an instruction takes no constant. -/
theorem takes_emit {i : Instr} : Takes before (emit i) fun _ => [] :=
  takes_recode fun _ _ _ hl h => by
    obtain ⟨-, lines, -, rfl⟩ := (does_emit hl).run h
    exact ⟨_, _, rfl⟩

/-- Emitting instructions takes no constant. -/
theorem takes_emitAll {is : List Instr} : Takes before (emitAll is) fun _ => [] :=
  takes_recode fun _ _ _ hl h => by
    obtain ⟨-, lines, -, rfl⟩ := (does_emitAll hl).run h
    exact ⟨_, _, rfl⟩

/-- Emitting a jump takes no constant. -/
theorem takes_emitJump {jump : UInt16 → Instr} : Takes before (emitJump jump) fun _ => [] :=
  takes_recode fun _ _ _ hl h => by
    obtain ⟨-, -, lines, -, rfl⟩ := (does_emitJump hl).run h
    exact ⟨_, _, rfl⟩

/-- Patching a jump takes no constant. -/
theorem takes_patchJump {at_ : Nat} : Takes before (patchJump at_) fun _ => [] :=
  takes_recode fun _ _ _ hl h => by
    obtain ⟨-, -, rfl⟩ := (does_patchJump hl).run h
    exact ⟨_, _, rfl⟩

/-- Counting arguments takes no constant. -/
theorem takes_checkArguments {count : Nat} : Takes before (checkArguments count) fun _ => [] := by
  unfold checkArguments
  by_cases hmany : count > 255
  · rw [if_pos hmany]
    intro s _ s' _ h
    exact (run_failBefore.mp h).elim
  · rw [if_neg hmany]
    exact takes_pure

/-- A value is taken as a constant. -/
theorem State.Steady.takes_makeConstant {v : Value} {k : UInt16} (hs : s.Steady before)
    (hv : ∀ r, v.toHandle? = some r → s.heap.Covers [r]) (h : Compile.makeConstant v s = .ok k s') :
    s.Keeps before s' ∧ s'.body.pool = takeConstant s.body.pool (s.heap.constantOf v) := by
  obtain ⟨hadds, -, hsite, hheap, hconstants⟩ := hs.makeConstant hv h
  refine ⟨hadds.keeps hsite, ?_⟩
  have hmem : s.heap.constantOf v ∈ s.body.pool ↔ v ∈ s.draft.chunk.constants.toList := by
    refine ⟨fun hc => ?_, fun hv => List.mem_map_of_mem hv⟩
    obtain ⟨w, hw, heq⟩ := List.mem_map.mp hc
    exact hs.live.sound.constantOf_inj heq ▸ hw
  have hpool : s'.body.pool = s'.draft.chunk.constants.toList.map s.heap.constantOf := by
    rw [← hheap]
    rfl
  rw [hpool, hconstants, takeConstant, apply_ite (List.map s.heap.constantOf)]
  simp only [hmem, List.map_append, List.map_singleton]
  rfl

/-- Interning a text takes nothing. -/
theorem State.Steady.takes_intern {content : String} {r : Handle} (hs : s.Steady before)
    (h : Compile.intern content s = .ok r s') : s.Keeps before s' ∧ s'.heap.Covers [r] ∧
      s'.body.pool = s.body.pool ∧ s'.heap.constantOf (.ofHandle r) = .text content := by
  obtain ⟨hadds, hsite, hcovers, text, htext, rfl⟩ := hs.intern h
  obtain ⟨-, h', rfl, -⟩ := (does_intern hs.live).run h
  refine ⟨hadds.keeps hsite, hcovers, List.map_congr_left fun v hv => ?_,
    Heap.constantOf_text htext⟩
  refine Heap.constantOf_congr fun x hx => hadds.kept x (.root ?_)
  exact State.mem_roots.mpr (.inl ⟨s.draft, List.mem_cons_self,
    Draft.mem_handles.mpr (.inr ⟨v, Array.mem_toList_iff.mp hv, hx⟩)⟩)

/-- A name is taken as a constant. -/
theorem State.Steady.takes_nameConstant {k : UInt16} (hs : s.Steady before)
    (h : nameConstant name s = .ok k s') :
    s.Keeps before s' ∧ s'.body.pool = takeConstant s.body.pool (.text name) := by
  obtain ⟨r, s₁, hintern, hconstant⟩ := run_bind.mp h
  obtain ⟨hkeeps, hcovers, hpool, htext⟩ := hs.takes_intern hintern
  obtain ⟨hkeeps', hpool'⟩ := hkeeps.steady.takes_makeConstant (fun x hx => by
    rw [Value.toHandle?_ofHandle, Option.some.injEq] at hx
    exact hx ▸ hcovers) hconstant
  exact ⟨hkeeps.trans hkeeps', by rw [hpool', hpool, htext]⟩

/-- A name takes one constant. -/
theorem takes_nameConstant : Takes before (nameConstant name) fun _ => [.text name] :=
  fun _ _ _ hs h => ⟨(hs.takes_nameConstant h).1, fun _ _ _ _ => (hs.takes_nameConstant h).2⟩

/-- A number is taken as a constant. -/
theorem takes_number {x : Float} :
    Takes before (emitConstant (.ofFloat x)) fun _ => [.value (.ofFloat x)] := by
  refine Takes.before_ (fun s k s' hs h => ?_) fun _ => takes_emit
  obtain ⟨hkeeps, hpool⟩ := hs.takes_makeConstant (fun r hr => by
    rw [Value.toHandle?_ofFloat] at hr
    cases hr) h
  exact ⟨hkeeps, fun _ _ _ _ => hpool.trans (by rw [Heap.constantOf_ofFloat]; rfl)⟩

/-- A text is taken as a constant. -/
theorem takes_text {content : String} : Takes before (do
      let r ← intern content
      emitConstant (.ofHandle r) : Compiler Unit) fun _ => [.text content] := by
  have hassoc : (intern content >>= fun r => emitConstant (.ofHandle r)) =
      nameConstant content >>= fun k => emit (.constant k) := by
    simp [nameConstant, emitConstant]
  rw [hassoc]
  exact takes_nameConstant.before_ fun _ => takes_emit

/-- Looking for a variable takes the name of a global. -/
theorem takes_resolve : Takes before (resolve name) fun place => Expr.nameUse place name := by
  intro s a s' hs h
  obtain ⟨w, hadds, hw⟩ := gives_resolve s a s' hs rfl trivial h
  obtain ⟨hsite, -⟩ := hw s'.body s'.body_completes
  refine ⟨hadds.keeps hsite, fun B place hB hplace => ?_⟩
  show s'.body.pool = (Expr.nameUse place name).foldl takeConstant s.body.pool
  rw [Expr.nameUse, hplace name a (hw B hB).2.2]
  obtain ⟨found, _, hlook, h⟩ := run_bind.mp h
  obtain ⟨hfind, rfl⟩ := run_look.mp hlook
  rcases found with _ | ⟨slot, _ | _⟩
  · obtain ⟨index, s₁, hcapture, h⟩ := run_bind.mp h
    obtain ⟨hadds₁, -⟩ := hs.captureVariable hcapture
    have hpool : s₁.body.pool = s.body.pool := by
      obtain ⟨-, draft, enclosing, rfl, hcaptured⟩ := (does_captureVariable hs.live).run hcapture
      obtain ⟨captures, rfl, -⟩ := hcaptured.innermost
      rfl
    cases index with
    | some i =>
      obtain ⟨rfl, rfl⟩ := run_pure.mp h
      exact hpool
    | none =>
      obtain ⟨k, s₂, hname, h⟩ := run_bind.mp h
      obtain ⟨rfl, rfl⟩ := run_pure.mp h
      rw [(hadds₁.steady.takes_nameConstant hname).2, hpool]
      rfl
  · exact (run_failBefore.mp h).elim
  · obtain ⟨rfl, rfl⟩ := run_pure.mp h
    rfl

/-- A variable takes a constant if it is global. -/
theorem takes_readVariable :
    Takes before (readVariable name) fun place => Expr.nameUse place name :=
  takes_resolve.before_ fun _ => takes_emit

/-- Code that may be skipped takes what it takes otherwise. -/
theorem takes_skipping {body : Compiler Unit} (h : Takes before body U) :
    Takes before (skipping body) U :=
  takes_emitJump.after fun _ => h.before_ fun _ => takes_patchJump

/-- Both branches take their constants, in order. -/
theorem takes_branching {yes no : Compiler Unit} (hyes : Takes before yes U)
    (hno : Takes before no V) : Takes before (branching yes no) fun place => U place ++ V place :=
  takes_emitJump.after fun _ => hyes.then_ fun _ => takes_emitJump.after fun _ =>
    takes_patchJump.after fun _ => hno.before_ fun _ => takes_patchJump

end Compile

/-! ### The constants of an expression -/

section Constants

variable {before : Heap}

/-- Arguments take their constants, in order. -/
theorem Expr.takes_arguments {args : List Expr}
    (hargs : ∀ e ∈ args, Takes before e.translate fun place => e.uses place) :
    Takes before (listTranslate args) fun place => listUses place args := by
  induction args with
  | nil => exact takes_pure
  | cons e es ih =>
    obtain ⟨he, hes⟩ := List.forall_mem_cons.mp hargs
    cases es with
    | nil =>
      rw [listTranslate]
      exact he.congr fun place => (List.append_nil _).symm
    | cons e' es =>
      rw [listTranslate]
      · exact he.then_ fun _ => takes_advance.after fun _ => ih hes
      · simp

/-- Translating an expression takes the constants of its tree. -/
theorem Expr.takes (e : Expr) : Takes before e.translate fun place => e.uses place := by
  induction e with
  | number x =>
    rw [translate]
    exact takes_advance.after fun _ => takes_number
  | text content =>
    rw [translate]
    exact takes_advance.after fun _ => takes_text
  | true_ | false_ | null =>
    rw [translate, seqRight_eq_bind]
    exact takes_advance.after fun _ => takes_emit
  | group e ih =>
    rw [translate]
    exact takes_advance.after fun _ => ih.before_ fun _ => takes_advance
  | negate e ih | not e ih =>
    rw [translate]
    exact takes_advance.after fun _ => ih.before_ fun _ => takes_emit
  | variable_ name | this =>
    rw [translate, seqRight_eq_bind]
    exact takes_advance.after fun _ => takes_readVariable
  | assign name e ih =>
    rw [translate]
    exact takes_advance.after fun _ => takes_resolve.then_ fun _ => takes_advance.after fun _ =>
      ih.before_ fun _ => takes_emit
  | update name op e ih =>
    rw [translate]
    exact takes_advance.after fun _ => takes_resolve.then_ fun _ => takes_advance.after fun _ =>
      takes_emit.after fun _ => ih.before_ fun _ => takes_emit.after fun _ => takes_emit
  | superGet name =>
    rw [translate]
    exact takes_advance.after fun _ => takes_advance.after fun _ => takes_advance.after fun _ =>
      takes_nameConstant.then_ fun _ => takes_readVariable.then_ fun _ =>
        takes_readVariable.before_ fun _ => takes_emit
  | superCall name args ih =>
    rw [translate]
    refine (takes_advance.after fun _ => takes_advance.after fun _ => takes_advance.after fun _ =>
      takes_nameConstant.then_ fun _ => takes_readVariable.then_ fun _ => takes_advance.after fun _ =>
        takes_checkArguments.after fun _ => (takes_arguments ih).then_ fun _ =>
          takes_advance.after fun _ => takes_readVariable.before_ fun _ => takes_emit).congr
            fun place => ?_
    simp [uses]
  | binary op l r hl hr =>
    rw [translate]
    exact hl.then_ fun _ => takes_advance.after fun _ => hr.before_ fun _ => takes_emitAll
  | both l r hl hr =>
    rw [translate]
    exact hl.then_ fun _ => takes_advance.after fun _ => takes_skipping <|
      takes_emit.after fun _ => hr
  | either l r hl hr =>
    rw [translate]
    exact hl.then_ fun _ => takes_advance.after fun _ => takes_branching takes_pure <|
      takes_emit.after fun _ => hr
  | call f args hf hargs =>
    rw [translate]
    exact hf.then_ fun _ => takes_advance.after fun _ => takes_checkArguments.after fun _ =>
      (takes_arguments hargs).before_ fun _ => takes_advance.after fun _ => takes_emit
  | get o name ho =>
    rw [translate]
    exact ho.then_ fun _ => takes_advance.after fun _ => takes_advance.after fun _ =>
      takes_nameConstant.before_ fun _ => takes_emit
  | set o name e ho he =>
    rw [translate]
    exact ho.then_ fun _ => takes_advance.after fun _ => takes_advance.after fun _ =>
      takes_nameConstant.then_ fun _ => takes_advance.after fun _ => he.before_ fun _ => takes_emit
  | updateField o name op e ho he =>
    rw [translate]
    exact ho.then_ fun _ => takes_advance.after fun _ => takes_advance.after fun _ =>
      takes_nameConstant.then_ fun _ => takes_advance.after fun _ => takes_emit.after fun _ =>
        takes_emit.after fun _ => he.before_ fun _ => takes_emit.after fun _ => takes_emit
  | invoke o name args ho hargs =>
    rw [translate]
    exact ho.then_ fun _ => takes_advance.after fun _ => takes_advance.after fun _ =>
      takes_nameConstant.then_ fun _ => takes_advance.after fun _ => takes_checkArguments.after
        fun _ => (takes_arguments hargs).before_ fun _ => takes_advance.after fun _ => takes_emit

end Constants

/-! ### What an expression adds -/

/-- The constants that a function has so far are the first of those that it may become one with. -/
theorem Body.Completes.pool {B : Body} {s : State} (hB : B.Completes s) :
    s.body.pool <+: B.pool := by
  have hsame : s.body.pool = s.draft.chunk.constants.toList.map B.heap.constantOf :=
    List.map_congr_left fun v hv => (Heap.constantOf_congr fun r hr => hB.heap r (.root
      (State.mem_roots.mpr (.inl ⟨s.draft, List.mem_cons_self,
        Draft.mem_handles.mpr (.inr ⟨v, Array.mem_toList_iff.mp hv, hr⟩)⟩)))).symm
  rw [hsame]
  exact hB.constants.map _

end ScriptMachine
