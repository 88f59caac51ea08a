import ScriptMachine.Proofs.Code.Shape
import ScriptMachine.Proofs.Heap.Reachability
import ScriptMachine.Proofs.Value.Numbers
import Mathlib.Logic.Relator

/-!
# Handles of two heaps paired

Two machines that do the same keep their objects in different slots. A pairing tells which handle
of the one stands for which handle of the other; no handle stands for two. Values, tables and
objects correspond if they differ in paired handles only, slot by slot: what a program can see of
them is the same.
-/

namespace ScriptMachine

/-- A script that is run: its closure, its code, and where a passage of it starts. -/
structure ScriptRun where
  closure : Handle
  chunk : Chunk
  start : Nat

/-- A passage that the code of two different scripts has in common, up to which constants stand for
which. -/
structure Passage where
  left : ScriptRun
  right : ScriptRun
  links : UInt16 → UInt16 → Prop

/-- The passage seen from the other script. -/
def Passage.symm (e : Passage) : Passage := ⟨e.right, e.left, fun k l => e.links l k⟩

/-- What is asked of two machines that are compared: whether code has the same source lines on both
sides, whether they run the same scripts or a passage of different ones, and which functions may
stand for which. -/
structure Terms where
  sameLines : Prop
  passage : Option Passage
  functions : Handle → Handle → Prop

namespace Terms

variable {t : Terms} {i j : Nat}

/-- The terms seen from the other machine. -/
def symm (t : Terms) : Terms :=
  ⟨t.sameLines, t.passage.map Passage.symm, fun x y => t.functions y x⟩

/-- A slot of the stack is compared. The one of the script itself is not if the scripts differ. -/
def Above (t : Terms) (slot : Nat) : Prop := t.passage = none ∨ 0 < slot

/-- What is compared from a slot on is compared above it. -/
theorem Above.mono (h : t.Above i) (hle : i ≤ j) : t.Above j :=
  h.imp_right fun hi => Nat.lt_of_lt_of_le hi hle

/-- The same slots are compared from the other side. -/
theorem Above.symm (h : t.Above i) : t.symm.Above i :=
  h.imp_left fun hnone => by rw [Terms.symm, hnone]; rfl

/-- The same scripts are run, and any function may stand for any. -/
structure Exact (t : Terms) : Prop where
  lines : t.sameLines
  whole : t.passage = none
  functions : ∀ x y, t.functions x y

/-- An exact comparison is exact from the other side. -/
theorem Exact.symm (h : t.Exact) : t.symm.Exact :=
  ⟨h.lines, by rw [Terms.symm, h.whole]; rfl, fun x y => h.functions y x⟩

/-- An exact comparison compares every slot. -/
theorem Exact.above (h : t.Exact) : t.Above i := .inl h.whole

end Terms

/-- Which handles of one heap stand for which of another, and on what terms. -/
structure Pairing where
  Pairs : Handle → Handle → Prop
  unique : Relator.BiUnique Pairs
  terms : Terms

namespace Pairing

variable {p q : Pairing} {v v' w w' : Value} {x y : Handle} {k l : Key}

/-- The pairing seen from the other heap. -/
def symm (p : Pairing) : Pairing where
  Pairs x y := p.Pairs y x
  unique := ⟨fun _ _ _ h h' => p.unique.2 h h', fun _ _ _ h h' => p.unique.1 h h'⟩
  terms := p.terms.symm

/-- Paired handles are equal on the one side exactly if they are on the other. -/
theorem pairs_inj {x' y' : Handle} (h : p.Pairs x y) (h' : p.Pairs x' y') : x = x' ↔ y = y' :=
  ⟨fun heq => p.unique.2 h (heq ▸ h'), fun heq => p.unique.1 h (heq ▸ h')⟩

/-! ### Values -/

/-- Values correspond if they are the same and no reference, or refer by paired handles. -/
inductive Values (p : Pairing) : Value → Value → Prop
  | plain {v : Value} (at_ : v.toHandle? = none) : Values p v v
  | reference {x y : Handle} (pair : p.Pairs x y) : Values p (.ofHandle x) (.ofHandle y)

/-- Paired values are paired from the other side. -/
theorem Values.symm (h : p.Values v w) : p.symm.Values w v := by
  cases h with
  | plain at_ => exact .plain at_
  | reference pair => exact .reference pair

/-- What values refer to decides whether they correspond. -/
theorem Values.carry (h : p.Values v w)
    (hc : ∀ x y, v.toHandle? = some x → p.Pairs x y → q.Pairs x y) : q.Values v w := by
  cases h with
  | plain at_ => exact .plain at_
  | reference pair => exact .reference (hc _ _ (Value.toHandle?_ofHandle _) pair)

/-- Paired values refer to paired objects, or to none. -/
theorem Values.toHandle? (h : p.Values v w) : Option.Rel p.Pairs v.toHandle? w.toHandle? := by
  cases h with
  | plain at_ =>
    rw [at_]
    exact .none
  | reference pair =>
    rw [Value.toHandle?_ofHandle, Value.toHandle?_ofHandle]
    exact .some pair

/-- A handle that a value refers by is paired with one that the other value refers by. -/
theorem Values.exists_handle (h : p.Values v w) (hx : v.toHandle? = some x) :
    ∃ y, w.toHandle? = some y ∧ p.Pairs x y := by
  have hrel := h.toHandle?
  rw [hx] at hrel
  generalize w.toHandle? = found at hrel
  cases hrel with
  | some pair => exact ⟨_, rfl, pair⟩

/-- What tells no reference from another is the same for corresponding values. -/
theorem Values.apply_eq {α : Type} {f : Value → α} (h : p.Values v w)
    (hf : ∀ x y, f (.ofHandle x) = f (.ofHandle y)) : f v = f w := by
  cases h with
  | plain _ => rfl
  | reference _ => exact hf _ _

/-- Corresponding values are equal on the one side exactly if they are on the other. -/
theorem values_inj (h : p.Values v w) (h' : p.Values v' w') : v = v' ↔ w = w' := by
  cases h with
  | plain at_ =>
    cases h' with
    | plain _ => rfl
    | reference _ => exact iff_of_false (Value.ofHandle_ne at_).symm (Value.ofHandle_ne at_).symm
  | reference pair =>
    cases h' with
    | plain at_ => exact iff_of_false (Value.ofHandle_ne at_) (Value.ofHandle_ne at_)
    | reference pair' =>
      rw [Value.ofHandle_inj, Value.ofHandle_inj]
      exact pairs_inj pair pair'

/-- Paired values are the same number, or none. -/
theorem Values.toFloat? (h : p.Values v w) : v.toFloat? = w.toFloat? :=
  h.apply_eq fun x y => by simp [Value.toFloat?]

/-- Paired values have a type of the same name, unless they are objects. -/
theorem Values.typeName? (h : p.Values v w) : v.typeName? = w.typeName? :=
  h.apply_eq fun x y => by simp [Value.typeName?]

/-- Paired values are false alike. -/
theorem Values.isFalsey (h : p.Values v w) : v.isFalsey = w.isFalsey :=
  h.apply_eq fun x y => by simp

/-- The language's equality does not tell corresponding values apart. -/
theorem Values.same (h : p.Values v w) (h' : p.Values v' w') : v.same v' = w.same w' := by
  have hbits {a b : Value} : a.bits = b.bits ↔ a = b :=
    ⟨fun heq => by cases a; cases b; simp_all, congrArg Value.bits⟩
  have hnumber : v.isNumber = w.isNumber := h.apply_eq fun x y => by simp
  have hnumber' : v'.isNumber = w'.isNumber := h'.apply_eq fun x y => by simp
  simp only [Value.same, hnumber, hnumber', hbits, values_inj h h']
  split
  · next hboth =>
    -- numbers are no references, so the values are the same
    obtain ⟨hw, hw'⟩ := Bool.and_eq_true_iff.mp hboth
    cases h with
    | plain _ =>
      cases h' with
      | plain _ => rfl
      | reference _ => simp at hw'
    | reference _ => simp at hw
  · rfl

/-! ### Tables -/

/-- Keys correspond if their texts are paired and hash alike. -/
structure Keys (p : Pairing) (k l : Key) : Prop where
  string : p.Pairs k.string l.string
  hash : k.hash = l.hash

/-- Paired keys are paired from the other side. -/
theorem Keys.symm (h : p.Keys k l) : p.symm.Keys l k := ⟨h.string, h.hash.symm⟩

/-- Corresponding slots of tables. -/
inductive Entries (p : Pairing) : Entry → Entry → Prop
  | empty : Entries p .empty .empty
  | tombstone : Entries p .tombstone .tombstone
  | live {k l : Key} {v w : Value} (key : p.Keys k l) (value : p.Values v w) :
    Entries p (.live k v) (.live l w)

/-- Paired entries are paired from the other side. -/
theorem Entries.symm {e f : Entry} (h : p.Entries e f) : p.symm.Entries f e := by
  cases h with
  | empty => exact .empty
  | tombstone => exact .tombstone
  | live key value => exact .live key.symm value.symm

/-- Tables correspond if they do slot by slot. -/
structure Tables (p : Pairing) (t u : Table) : Prop where
  used : t.used = u.used
  entries : List.Forall₂ p.Entries t.entries.toList u.entries.toList

variable {t u : Table}

/-- Paired tables are paired from the other side. -/
theorem Tables.symm (h : p.Tables t u) : p.symm.Tables u t :=
  ⟨h.used.symm, (h.entries.imp fun _ _ => Entries.symm).flip⟩

/-- What tables store decides whether they correspond. -/
theorem Tables.carry (h : p.Tables t u) (hc : ∀ x y, t.Stores x → p.Pairs x y → q.Pairs x y) :
    q.Tables t u := by
  refine ⟨h.used, ((List.forall₂_and_left _ _).mpr ⟨fun _ he => he, h.entries⟩).imp ?_⟩
  rintro e f ⟨he, hef⟩
  have hmem := Array.mem_toList_iff.mp he
  cases hef with
  | empty => exact .empty
  | tombstone => exact .tombstone
  | live key value =>
    exact .live ⟨hc _ _ (.key hmem rfl) key.string, key.hash⟩
      (value.carry fun x y hx => hc x y (.value hmem hx))

/-- What a table stores is paired with what the other one stores. -/
theorem Tables.stores (h : p.Tables t u) (hx : t.Stores x) : ∃ y, u.Stores y ∧ p.Pairs x y := by
  rcases hx with ⟨hmem, rfl⟩ | ⟨hmem, hat⟩ <;>
    obtain ⟨f, hf, hef⟩ := exists_of_mem_left h.entries (Array.mem_toList_iff.mpr hmem) <;>
    have hmem' := Array.mem_toList_iff.mp hf
  · cases hef with
    | live key value => exact ⟨_, .key hmem' rfl, key.string⟩
  · cases hef with
    | live key value =>
      obtain ⟨y, hy, hpair⟩ := value.exists_handle hat
      exact ⟨y, .value hmem' hy, hpair⟩

/-! ### Objects -/

/-- Chunks correspond if they have the same code and corresponding constants. -/
structure Chunks (p : Pairing) (c d : Chunk) : Prop where
  code : c.code = d.code
  lines : p.terms.sameLines → c.lines = d.lines
  constants : List.Forall₂ p.Values c.constants.toList d.constants.toList

/-- Functions correspond if they differ in handles only. -/
structure Prototypes (p : Pairing) (f g : Prototype) : Prop where
  arity : f.arity = g.arity
  upvalueCount : f.upvalueCount = g.upvalueCount
  name : Option.Rel p.Pairs f.name g.name
  chunk : p.Chunks f.chunk g.chunk

/-- Objects correspond if they are of one kind and differ in handles only. -/
inductive Objects (p : Pairing) : Object → Object → Prop
  | string {s : Interned} : Objects p (.string s) (.string s)
  | function {f g : Prototype} (function : p.Prototypes f g) : Objects p (.function f) (.function g)
  | native {n : Native} : Objects p (.native n) (.native n)
  | closure {c d : Closure} (function : p.Pairs c.function d.function)
      (upvalues : List.Forall₂ p.Pairs c.upvalues.toList d.upvalues.toList) :
      Objects p (.closure c) (.closure d)
  | onStack {slot : Nat} (above : p.terms.Above slot) :
      Objects p (.upvalue (.onStack slot)) (.upvalue (.onStack slot))
  | closed {v w : Value} (value : p.Values v w) :
      Objects p (.upvalue (.closed v)) (.upvalue (.closed w))
  | class_ {c d : ClassObject} (name : p.Pairs c.name d.name)
      (methods : p.Tables c.methods d.methods) : Objects p (.class_ c) (.class_ d)
  | instance_ {i j : InstanceObject} (class_ : p.Pairs i.class_ j.class_)
      (fields : p.Tables i.fields j.fields) : Objects p (.instance_ i) (.instance_ j)
  | boundMethod {b c : BoundMethod} (receiver : p.Values b.receiver c.receiver)
      (method : p.Pairs b.method c.method) : Objects p (.boundMethod b) (.boundMethod c)

variable {o o' : Object} {c d : Chunk}

/-- Paired objects that may be missing are paired from the other side. -/
theorem option_symm {a b : Option Handle} (h : Option.Rel p.Pairs a b) :
    Option.Rel p.symm.Pairs b a := by
  cases h with
  | none => exact .none
  | some pair => exact .some pair

/-- Paired code is paired from the other side. -/
theorem Chunks.symm (h : p.Chunks c d) : p.symm.Chunks d c :=
  ⟨h.code.symm, fun hl => (h.lines hl).symm, (h.constants.imp fun _ _ => Values.symm).flip⟩

/-- Paired functions are paired from the other side. -/
theorem Prototypes.symm {f g : Prototype} (h : p.Prototypes f g) : p.symm.Prototypes g f :=
  ⟨h.arity.symm, h.upvalueCount.symm, option_symm h.name, h.chunk.symm⟩

/-- Paired objects are paired from the other side. -/
theorem Objects.symm (h : p.Objects o o') : p.symm.Objects o' o := by
  cases h with
  | string => exact .string
  | function function => exact .function function.symm
  | native => exact .native
  | closure function upvalues => exact .closure function upvalues.flip
  | onStack above => exact .onStack above.symm
  | closed value => exact .closed value.symm
  | class_ name methods => exact .class_ name methods.symm
  | instance_ class_ fields => exact .instance_ class_ fields.symm
  | boundMethod receiver method => exact .boundMethod receiver.symm method

/-- Lists of values correspond by what they refer to. -/
theorem forall₂_values_carry {vs ws : List Value} (h : List.Forall₂ p.Values vs ws)
    (hc : ∀ v ∈ vs, ∀ x y, v.toHandle? = some x → p.Pairs x y → q.Pairs x y) :
    List.Forall₂ q.Values vs ws :=
  ((List.forall₂_and_left _ _).mpr ⟨fun _ hv => hv, h⟩).imp fun v _ hvw =>
    hvw.2.carry fun x y => hc v hvw.1 x y

/-- Lists of handles are paired where each handle is. -/
theorem forall₂_pairs_carry {xs ys : List Handle} (h : List.Forall₂ p.Pairs xs ys)
    (hc : ∀ x ∈ xs, ∀ y, p.Pairs x y → q.Pairs x y) : List.Forall₂ q.Pairs xs ys :=
  ((List.forall₂_and_left _ _).mpr ⟨fun _ hx => hx, h⟩).imp fun x y hxy => hc x hxy.1 y hxy.2

/-- What may be missing stays paired if what is there does. -/
theorem option_carry {a b : Option Handle} (h : Option.Rel p.Pairs a b)
    (hc : ∀ x, a = some x → ∀ y, p.Pairs x y → q.Pairs x y) : Option.Rel q.Pairs a b := by
  cases h with
  | none => exact .none
  | some pair => exact .some (hc _ rfl _ pair)

/-- What objects store, and what is asked of them, decides whether they correspond. -/
theorem Objects.weaken (ho : p.Objects o o') (hlines : q.terms.sameLines → p.terms.sameLines)
    (habove : ∀ slot, o = .upvalue (.onStack slot) → q.terms.Above slot)
    (hc : ∀ x y, o.Stores x → p.Pairs x y → q.Pairs x y) : q.Objects o o' := by
  cases ho with
  | string => exact .string
  | function function =>
    refine .function { function with
      name := option_carry function.name fun x hx y => hc x y (.functionName hx)
      chunk := { function.chunk with
        lines := fun hq => function.chunk.lines (hlines hq)
        constants := forall₂_values_carry function.chunk.constants fun v hv x y hx => ?_ } }
    exact hc x y (.functionConstant (Array.mem_toList_iff.mp hv) hx)
  | native => exact .native
  | closure function upvalues =>
    exact .closure (hc _ _ .closureFunction function) (forall₂_pairs_carry upvalues fun x hx y =>
      hc x y (.closureUpvalue (Array.mem_toList_iff.mp hx)))
  | onStack _ => exact .onStack (habove _ rfl)
  | closed value => exact .closed (value.carry fun x y hx => hc x y (.closedValue hx))
  | class_ name methods =>
    exact .class_ (hc _ _ .className name) (methods.carry fun x y hx => hc x y (.classMethod hx))
  | instance_ class_ fields =>
    exact .instance_ (hc _ _ .instanceClass class_)
      (fields.carry fun x y hx => hc x y (.instanceField hx))
  | boundMethod receiver method =>
    exact .boundMethod (receiver.carry fun x y hx => hc x y (.receiver hx))
      (hc _ _ .boundMethod method)

/-- What objects store decides whether they correspond. -/
theorem Objects.carry (h : p.Objects o o') (hterms : q.terms = p.terms)
    (hc : ∀ x y, o.Stores x → p.Pairs x y → q.Pairs x y) : q.Objects o o' := by
  refine h.weaken (fun hq => hterms ▸ hq) (fun slot heq => ?_) hc
  subst heq
  cases h with
  | onStack above => exact hterms ▸ above

/-- What an object stores is paired with what the other one stores. -/
theorem Objects.stores (h : p.Objects o o') (hx : o.Stores x) :
    ∃ y, o'.Stores y ∧ p.Pairs x y := by
  cases hx with
  | functionName at_ =>
    cases h with
    | function function =>
      have hname := function.name
      rw [at_] at hname
      generalize heq : Prototype.name _ = found at hname
      cases hname with
      | some pair => exact ⟨_, .functionName heq, pair⟩
  | functionConstant mem at_ =>
    cases h with
    | function function =>
      obtain ⟨w, hw, hvw⟩ := exists_of_mem_left function.chunk.constants
        (Array.mem_toList_iff.mpr mem)
      obtain ⟨y, hy, hpair⟩ := hvw.exists_handle at_
      exact ⟨y, .functionConstant (Array.mem_toList_iff.mp hw) hy, hpair⟩
  | closureFunction =>
    cases h with
    | closure function _ => exact ⟨_, .closureFunction, function⟩
  | closureUpvalue mem =>
    cases h with
    | closure _ upvalues =>
      obtain ⟨y, hy, hpair⟩ := exists_of_mem_left upvalues (Array.mem_toList_iff.mpr mem)
      exact ⟨y, .closureUpvalue (Array.mem_toList_iff.mp hy), hpair⟩
  | closedValue at_ =>
    cases h with
    | closed value =>
      obtain ⟨y, hy, hpair⟩ := value.exists_handle at_
      exact ⟨y, .closedValue hy, hpair⟩
  | className =>
    cases h with
    | class_ name _ => exact ⟨_, .className, name⟩
  | classMethod at_ =>
    cases h with
    | class_ _ methods =>
      obtain ⟨y, hy, hpair⟩ := methods.stores at_
      exact ⟨y, .classMethod hy, hpair⟩
  | instanceClass =>
    cases h with
    | instance_ class_ _ => exact ⟨_, .instanceClass, class_⟩
  | instanceField at_ =>
    cases h with
    | instance_ _ fields =>
      obtain ⟨y, hy, hpair⟩ := fields.stores at_
      exact ⟨y, .instanceField hy, hpair⟩
  | receiver at_ =>
    cases h with
    | boundMethod receiver _ =>
      obtain ⟨y, hy, hpair⟩ := receiver.exists_handle at_
      exact ⟨y, .receiver hy, hpair⟩
  | boundMethod =>
    cases h with
    | boundMethod _ method => exact ⟨_, .boundMethod, method⟩

end Pairing

end ScriptMachine
