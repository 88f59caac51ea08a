import ScriptMachine.Compile.Scope

/-!
# Scopes and the variables that names stand for

While code runs, the part of the stack that belongs to its function holds the visible locals in
the order of their declaration. A scope lists them with the latest first, so the slot of a local
is the number of locals behind it in the list. A name stands for the innermost visible local of
the function, else for a variable that is captured step by step from the nearest function around
that has a visible local of the name, else for a global.
-/

namespace ScriptMachine

open Compile (Access FunctionKind)

/-- A visible local: its name, and whether a nested function captured it. -/
structure Binding where
  name : String
  captured : Bool

/-- The visible locals of a function, the latest first. -/
abbrev Scope := List Binding

/-- The captures take the local in a slot of the function around. -/
def takesSlot (captures : List Capture) (slot : Nat) : Bool :=
  captures.any fun c => c.isLocal && c.index.toNat == slot

/-- The instruction that takes a local off the stack at the end of its scope. -/
def Binding.leave (b : Binding) : Instr := if b.captured then .closeUpvalue else .pop

namespace Scope

/-- The innermost visible local of a name is in a slot. -/
inductive Declares : Scope → String → Nat → Prop
  | here {b : Binding} {rest : Scope} : Declares (b :: rest) b.name rest.length
  | behind {b : Binding} {rest : Scope} {name : String} {slot : Nat} (other : b.name ≠ name)
      (behind : Declares rest name slot) : Declares (b :: rest) name slot

/-- No visible local has a name. -/
def Lacks (scope : Scope) (name : String) : Prop := ∀ b ∈ scope, b.name ≠ name

/-- The scope after a closure with some captures was made. -/
def mark (captures : List Capture) : Scope → Scope
  | [] => []
  | b :: rest =>
    { b with captured := b.captured || takesSlot captures rest.length } :: mark captures rest

/-- Marking leaves the size of the scope. -/
@[simp] theorem length_mark (captures : List Capture) (scope : Scope) :
    (scope.mark captures).length = scope.length := by
  induction scope with
  | nil => rfl
  | cons b rest ih => simp [mark, ih]

/-- The scope in which the body of a function starts. -/
def start (kind : FunctionKind) (params : List String) : Scope :=
  (params.map fun name => ⟨name, false⟩).reverse ++ [⟨kind.slotZero, false⟩]

/-- A scope declares a name once or lacks it. -/
theorem Declares.unique {scope : Scope} {name : String} {slot slot' : Nat}
    (h : scope.Declares name slot) (h' : scope.Declares name slot') : slot = slot' := by
  induction h with
  | here =>
    cases h' with
    | here => rfl
    | behind other _ => exact absurd rfl other
  | behind other _ ih =>
    cases h' with
    | here => exact absurd rfl other
    | behind _ behind => exact ih behind

/-- A name that a scope declares is not lacking. -/
theorem Declares.not_lacks {scope : Scope} {name : String} {slot : Nat}
    (h : scope.Declares name slot) : ¬ scope.Lacks name := by
  intro hlacks
  induction h with
  | here => exact hlacks _ List.mem_cons_self rfl
  | behind _ _ ih => exact ih fun b hb => hlacks b (List.mem_cons_of_mem _ hb)

/-- Which slot a name stands for does not depend on marks. -/
theorem Declares.congr {scope scope' : Scope} {name : String} {slot : Nat}
    (h : scope.Declares name slot) (hnames : scope'.map Binding.name = scope.map Binding.name) :
    scope'.Declares name slot := by
  induction h generalizing scope' with
  | @here b rest =>
    obtain ⟨b', rest', rfl, hb, hrest⟩ := List.map_eq_cons_iff.mp hnames
    have hlength : rest'.length = rest.length := by simpa using congrArg List.length hrest
    rw [← hb, ← hlength]
    exact .here
  | behind other _ ih =>
    obtain ⟨b', rest', rfl, hb, hrest⟩ := List.map_eq_cons_iff.mp hnames
    exact .behind (hb ▸ other) (ih hrest)

/-- Which names a scope lacks depends on its names. -/
theorem Lacks.congr {scope scope' : Scope} {name : String} (h : scope.Lacks name)
    (hnames : scope'.map Binding.name = scope.map Binding.name) : scope'.Lacks name := by
  intro b hb hname
  have hmem : name ∈ scope.map Binding.name := hnames ▸ List.mem_map.mpr ⟨b, hb, hname⟩
  obtain ⟨b', hb', hname'⟩ := List.mem_map.mp hmem
  exact h b' hb' hname'

end Scope

/-- A function around the innermost one: its visible locals where the inner function stands, and
its captures. -/
structure Level where
  scope : Scope
  captures : List Capture

/-- Following a capture outward through the functions around, until a local one is met, leads to
the innermost visible local of a name in the nearest function that has one. -/
inductive Reaches (name : String) : List Capture → List Level → Nat → Prop
  | local_ {captures : List Capture} {level : Level} {levels : List Level} {i : Nat} {slot : UInt8}
      (capture : captures[i]? = some ⟨true, slot⟩)
      (declares : level.scope.Declares name slot.toNat) : Reaches name captures (level :: levels) i
  | upvalue {captures : List Capture} {level : Level} {levels : List Level} {i : Nat} {j : UInt8}
      (capture : captures[i]? = some ⟨false, j⟩) (lacks : level.scope.Lacks name)
      (further : Reaches name level.captures levels j.toNat) :
      Reaches name captures (level :: levels) i

/-- The capture that leads to a variable is only one, if no function lists a capture twice. -/
theorem Reaches.unique {name : String} {captures : List Capture} {levels : List Level} {i j : Nat}
    (hcaptures : captures.Nodup) (hlevels : ∀ level ∈ levels, level.captures.Nodup)
    (h : Reaches name captures levels i) (h' : Reaches name captures levels j) : i = j := by
  have hsame {captures : List Capture} {c : Capture} {i j : Nat} (hcaptures : captures.Nodup)
      (hi : captures[i]? = some c) (hj : captures[j]? = some c) : i = j :=
    (List.getElem?_inj (List.getElem?_eq_some_iff.mp hi).1 hcaptures).mp (hi.trans hj.symm)
  induction h generalizing j with
  | local_ capture declares =>
    cases h' with
    | local_ capture' declares' =>
      obtain rfl := UInt8.toNat_inj.mp (declares.unique declares')
      exact hsame hcaptures capture capture'
    | upvalue _ lacks _ => exact absurd lacks declares.not_lacks
  | upvalue capture lacks further ih =>
    cases h' with
    | local_ _ declares => exact absurd lacks declares.not_lacks
    | upvalue capture' _ further' =>
      obtain ⟨hlevel, hrest⟩ := List.forall_mem_cons.mp hlevels
      obtain rfl := UInt8.toNat_inj.mp (ih hlevel hrest further')
      exact hsame hcaptures capture capture'

/-- What the code of a function is read with: the heap, the kind of function, its constants, its
captures and the functions around it, the innermost first. -/
structure Body where
  heap : Heap
  kind : FunctionKind
  constants : List Value
  captures : List Capture
  outer : List Level

namespace Body

/-- The constant `k` is a text. -/
def Names (B : Body) (k : UInt16) (name : String) : Prop :=
  ∃ r text, B.constants[k.toNat]? = some (.ofHandle r) ∧
    B.heap.object? r = some (.string text) ∧ text.chars = name

/-- Where the variable that a name stands for is kept. -/
inductive Finds (B : Body) (scope : Scope) (name : String) : Access → Prop
  | local_ {slot : UInt8} (declares : scope.Declares name slot.toNat) :
      Finds B scope name (.local_ slot)
  | upvalue {i : UInt8} (lacks : scope.Lacks name)
      (reaches : Reaches name B.captures B.outer i.toNat) : Finds B scope name (.upvalue i)
  | global {k : UInt16} (lacks : scope.Lacks name)
      (around : ∀ level ∈ B.outer, level.scope.Lacks name) (names : B.Names k name) :
      Finds B scope name (.global k)

/-- The number of captures of the function that a constant is. -/
def captureCount (B : Body) (k : UInt16) : Nat :=
  ((B.constants[k.toNat]?.bind Value.toHandle?).bind fun r =>
    match B.heap.object? r with
    | some (.function g) => some g.upvalueCount
    | _ => none).getD 0

end Body

end ScriptMachine
