import ScriptMachine.Proofs.Meaning.Evaluation
import ScriptMachine.Proofs.Scoping.Stretches
import ScriptMachine.Proofs.Session.Lookups
import ScriptMachine.Proofs.Session.Methods
import ScriptMachine.Proofs.Value.Numbers

/-!
# The machine beside an evaluation

A value of the machine stands for a value of the core: a reference to a text for the text, and a
reference to a native function for the one of that name. The machine asks of a value what the
evaluation asks of what it stands for, and gets the same answer: whether it is false, whether it is
the same as another one, its type, and its printed form.

While a script of the core runs, its frame is the only one. Above the script itself, the stack has
the values of the variables of the blocks in the order of their declaration, and then those of the
operands. So an evaluation and a run go side by side: the globals and the sink are the same, and
each variable has its value in the slot that the scope says. `Mimics` says of the result of an
action that it is like the one of an evaluation.
-/

namespace ScriptMachine

/-- A value stands for one of the core. Which values the native functions are is given by name. -/
inductive Heap.Denotes (h : Heap) (natives : String → Option Value) : Value → Datum → Prop
  | number {x : Float} : Denotes h natives (.ofFloat x) (.number x)
  | truth {b : Bool} : Denotes h natives (.ofBool b) (.truth b)
  | null : Denotes h natives .null .null
  | text {r : Handle} {s : Interned} (object : h.object? r = some (.string s)) :
      Denotes h natives (.ofHandle r) (.text s.chars)
  | native {r : Handle} {n : Native} (object : h.object? r = some (.native n))
      (defined : natives n.name = some (.ofHandle r)) : Denotes h natives (.ofHandle r) (.native n.name)

namespace Datum

/-- The number that a value is. -/
def number? : Datum → Option Float
  | number x => some x
  | _ => none

/-- The text that a value is. -/
def text? : Datum → Option String
  | text chars => some chars
  | _ => none

end Datum

namespace Heap.Denotes

variable {h h' : Heap} {natives : String → Option Value} {v w : Value} {d e : Datum}

/-- What a value stands for depends on the object it refers to only. -/
theorem carry (hd : h.Denotes natives v d)
    (hsame : ∀ r, v.toHandle? = some r → h'.object? r = h.object? r) : h'.Denotes natives v d := by
  cases hd with
  | number => exact .number
  | truth => exact .truth
  | null => exact .null
  | text object => exact .text ((hsame _ (Value.toHandle?_ofHandle _)).trans object)
  | native object defined =>
    exact .native ((hsame _ (Value.toHandle?_ofHandle _)).trans object) defined

/-- A value is false if what it denotes is. -/
theorem isFalsey (hd : h.Denotes natives v d) : v.isFalsey = d.isFalsey := by
  have hno {v : Value} (hnull : v ≠ .null) (hfalse : v ≠ .ofBool false) : v.isFalsey = false := by
    simp [Value.isFalsey, hnull, hfalse]
  cases hd with
  | number =>
    exact hno (Value.ne_of_isNumber (by simp) (by simp)) (Value.ne_of_isNumber (by simp) (by simp))
  | @truth b => cases b <;> rfl
  | null => rfl
  | text | native => exact hno (Value.ofHandle_ne (by simp)) (Value.ofHandle_ne (by simp))

/-- A value is the number that it denotes. -/
theorem toFloat? (hd : h.Denotes natives v d) : v.toFloat? = d.number? := by
  cases hd with
  | number => exact Value.toFloat?_ofFloat _
  | truth | null | text | native => exact Value.toFloat?_of_isNumber (by simp)

/-- A value is a string of the text that it denotes. -/
theorem string? (hd : h.Denotes natives v d) :
    ∃ found, h.string? v = .ok found ∧ found.map Interned.chars = d.text? := by
  unfold Heap.string?
  cases hd with
  | number => exact ⟨none, by simp, rfl⟩
  | truth => exact ⟨none, by simp, rfl⟩
  | null => exact ⟨none, by simp, rfl⟩
  | @text r s object => exact ⟨some s, by simp [Heap.object, object], rfl⟩
  | native object => exact ⟨none, by simp [Heap.object, object], rfl⟩

/-- A value has the type of what it denotes. -/
theorem typeName (hd : h.Denotes natives v d) : h.typeName v = .ok d.typeName := by
  cases hd with
  | number => simp [Heap.typeName, Value.typeName?, Datum.typeName]
  | @truth b => cases b <;> rfl
  | null => rfl
  | text object | native object =>
    simp [Heap.typeName, Value.typeName?, Heap.kind?, Heap.object, object]
    rfl

/-- A value is shown as what it denotes. -/
theorem display (hd : h.Denotes natives v d) : h.display v = .ok d.shown := by
  cases hd with
  | number => simp [Heap.display, Value.text, Value.bits_ofFloat, Float.ofBits_toBits, Datum.shown]
  | @truth b => cases b <;> rfl
  | null => rfl
  | text object | native object =>
    simp [Heap.display, Heap.displayObject, Heap.object, object]
    rfl

/-- The machine compares what it has as the evaluation compares what that stands for: there is one
object for each text and one for each native function. -/
theorem same (hs : h.Sound) (hv : h.Denotes natives v d) (hw : h.Denotes natives w e) :
    v.same w = d.same e := by
  cases hv with
  | number =>
    cases hw with
    | number => exact Value.same_ofFloat _ _
    | truth | null | text | native =>
      rw [Value.same_of_isNumber (.inr (by simp))]
      exact decide_eq_false (Value.ne_of_isNumber (by simp) (by simp))
  | @truth b =>
    rw [Value.same_of_isNumber (.inl (by simp))]
    cases hw with
    | number => exact decide_eq_false (Value.ne_of_isNumber (by simp) (by simp)).symm
    | @truth c => cases b <;> cases c <;> rfl
    | null => cases b <;> rfl
    | text | native => exact decide_eq_false (Value.ofHandle_ne (by simp)).symm
  | null =>
    rw [Value.same_of_isNumber (.inl (by simp))]
    cases hw with
    | number => exact decide_eq_false (Value.ne_of_isNumber (by simp) (by simp)).symm
    | @truth c => cases c <;> rfl
    | null => rfl
    | text | native => exact decide_eq_false (Value.ofHandle_ne (by simp)).symm
  | @text r s object =>
    rw [Value.same_of_isNumber (.inl (by simp))]
    cases hw with
    | number => exact decide_eq_false (Value.ne_of_isNumber (by simp) (by simp)).symm
    | truth | null => exact decide_eq_false (Value.ofHandle_ne (by simp))
    | @text x t other =>
      show _ = decide (s.chars = t.chars)
      refine decide_eq_decide.mpr (Value.ofHandle_inj.trans ⟨?_, fun hchars => ?_⟩)
      · rintro rfl
        rw [Object.string.inj (Option.some.inj (object.symm.trans other))]
      · exact hs.interning.unique _ _ _ _ object other hchars
    | native other =>
      refine decide_eq_false fun heq => ?_
      cases (Value.ofHandle_inj.mp heq ▸ object).symm.trans other
  | @native r n object defined =>
    rw [Value.same_of_isNumber (.inl (by simp))]
    cases hw with
    | number => exact decide_eq_false (Value.ne_of_isNumber (by simp) (by simp)).symm
    | truth | null => exact decide_eq_false (Value.ofHandle_ne (by simp))
    | text other =>
      refine decide_eq_false fun heq => ?_
      cases (Value.ofHandle_inj.mp heq ▸ object).symm.trans other
    | @native x k other defined' =>
      show _ = decide (n.name = k.name)
      refine decide_eq_decide.mpr ⟨fun heq => ?_, fun heq => ?_⟩
      · rw [Value.ofHandle_inj.mp heq] at object
        rw [Object.native.inj (Option.some.inj (object.symm.trans other))]
      · exact Option.some.inj (defined.symm.trans (heq ▸ defined'))

end Heap.Denotes

end ScriptMachine

namespace ScriptMachine

/-! ### Stores and scopes -/

/-- The scope of a script inside blocks that declare some names. -/
def Scope.ofBlocks (vars : List (List String)) : Scope :=
  (vars.flatten.map fun name => ⟨name, false⟩) ++ Scope.start .script []

namespace Store

/-- The variables of the blocks around, the latest first. -/
def locals (σ : Store) : Environment := σ.blocks.flatten

/-- The values of the variables of the blocks around, the latest first. -/
def values (σ : Store) : List Datum := σ.locals.map Prod.snd

/-- The names that the blocks around declare, the innermost block first. -/
def declared (σ : Store) : List (List String) := σ.blocks.map (List.map Prod.fst)

/-- Searching blocks from the inside is searching all they declare. -/
theorem findSome?_lookup (blocks : List Environment) (name : String) :
    blocks.findSome? (List.lookup name) = blocks.flatten.lookup name := by
  induction blocks with
  | nil => rfl
  | cons env blocks ih =>
    rw [List.flatten_cons, List.lookup_append, ← ih, List.findSome?_cons]
    cases env.lookup name <;> rfl

/-- A variable is a local, or else a global. -/
theorem find?_eq (σ : Store) (name : String) :
    σ.find? name = (σ.locals.lookup name).or (σ.globals name) := by
  rw [find?, findSome?_lookup, locals]

end Store

namespace Environment

variable {name : String} {d old : Datum} {env pre post : Environment}

/-- An assignment is to the inner variable, or else to the outer one. -/
theorem assign?_append (name : String) (d : Datum) (env env' : Environment) :
    assign? name d (env ++ env') =
      ((env.assign? name d).map (· ++ env')).or ((env'.assign? name d).map (env ++ ·)) := by
  induction env with
  | nil => cases h : assign? name d env' <;> simp [assign?, h]
  | cons e env ih =>
    obtain ⟨other, old⟩ := e
    rw [List.cons_append, assign?, assign?]
    split
    · rfl
    · rw [ih]
      cases assign? name d env <;> cases assign? name d env' <;> rfl

/-- An assignment leaves the names. -/
theorem map_fst_of_assign? {env' : Environment} (h : env.assign? name d = some env') :
    env'.map Prod.fst = env.map Prod.fst := by
  induction env generalizing env' with
  | nil => cases h
  | cons e env ih =>
    obtain ⟨other, old⟩ := e
    rw [assign?] at h
    split at h
    · rw [← Option.some.inj h]
      rfl
    · obtain ⟨rest, hrest, rfl⟩ := Option.map_eq_some_iff.mp h
      rw [List.map_cons, List.map_cons, ih hrest]

/-- Where a name is missing, nothing is found and nothing is assigned. -/
theorem lookup_of_lacks (h : ∀ e ∈ env, e.1 ≠ name) :
    env.lookup name = none ∧ env.assign? name d = none := by
  induction env with
  | nil => exact ⟨rfl, rfl⟩
  | cons e env ih =>
    obtain ⟨hne, hrest⟩ := List.forall_mem_cons.mp h
    obtain ⟨other, old⟩ := e
    obtain ⟨hlookup, hassign⟩ := ih hrest
    have hbeq : (name == other) = false := beq_eq_false_iff_ne.mpr (Ne.symm hne)
    exact ⟨by rw [List.lookup_cons, hbeq, hlookup], by rw [assign?, if_neg hne, hassign]; rfl⟩

/-- The latest variable of a name is found and assigned. -/
theorem lookup_of_latest (h : ∀ e ∈ pre, e.1 ≠ name) :
    (pre ++ (name, old) :: post).lookup name = some old ∧
      assign? name d (pre ++ (name, old) :: post) = some (pre ++ (name, d) :: post) := by
  obtain ⟨hlookup, hassign⟩ := lookup_of_lacks h
  rw [List.lookup_append, hlookup, assign?_append, hassign, assign?, if_pos rfl, List.lookup_cons_self]
  exact ⟨rfl, rfl⟩

end Environment

namespace Store

variable {σ : Store} {name : String} {d : Datum} {slot : Nat}

/-- Assigning in blocks is assigning in all they declare. -/
theorem map_flatten_assignLocal? (name : String) (d : Datum) (blocks : List Environment) :
    (assignLocal? name d blocks).map List.flatten =
      Environment.assign? name d (blocks.flatten : Environment) := by
  induction blocks with
  | nil => rfl
  | cons env blocks ih =>
    rw [List.flatten_cons, Environment.assign?_append, ← ih, assignLocal?]
    cases env.assign? name d <;> cases assignLocal? name d blocks <;> rfl

/-- The scope of a store has its locals above slot zero. -/
theorem scope_eq (σ : Store) : Scope.ofBlocks σ.declared =
    (σ.locals.map fun e => ⟨e.1, false⟩) ++ Scope.start .script [] := by
  rw [Scope.ofBlocks, declared, ← List.map_flatten, List.map_map]
  rfl

/-- A name that the scope declares is the one of a variable of the blocks around, whose slot is
above the slots of the variables that were declared before. -/
theorem exists_local (hd : (Scope.ofBlocks σ.declared).Declares name slot) (hname : Proper name) :
    ∃ pre d post, σ.locals = pre ++ (name, d) :: post ∧ (∀ e ∈ pre, e.1 ≠ name) ∧
      slot = post.length + 1 := by
  rw [scope_eq] at hd
  generalize σ.locals = env at hd ⊢
  induction env with
  | nil =>
    cases hd with
    | here => exact absurd rfl hname.nonempty
    | behind _ behind => cases behind
  | cons e env ih =>
    cases hd with
    | here =>
      refine ⟨[], e.2, env, rfl, List.forall_mem_nil _, ?_⟩
      show (env.map _ ++ Scope.start .script []).length = _
      rw [List.length_append, List.length_map]
      rfl
    | behind other behind =>
      obtain ⟨pre, d, post, rfl, hpre, hslot⟩ := ih behind
      exact ⟨e :: pre, d, post, rfl, List.forall_mem_cons.mpr ⟨other, hpre⟩, hslot⟩

/-- An assignment leaves what the blocks declare. -/
theorem declared_of_assignLocal? {blocks blocks' : List Environment}
    (h : assignLocal? name d blocks = some blocks') :
    blocks'.map (List.map Prod.fst) = blocks.map (List.map Prod.fst) := by
  induction blocks generalizing blocks' with
  | nil => cases h
  | cons env blocks ih =>
    rw [assignLocal?] at h
    split at h
    · next henv =>
      rw [← Option.some.inj h, List.map_cons, List.map_cons, Environment.map_fst_of_assign? henv]
    · obtain ⟨rest, hrest, rfl⟩ := Option.map_eq_some_iff.mp h
      rw [List.map_cons, List.map_cons, ih hrest]

/-- A name that the scope lacks is the one of a global. -/
theorem lacks_locals (hl : (Scope.ofBlocks σ.declared).Lacks name) : ∀ e ∈ σ.locals, e.1 ≠ name := by
  intro e he
  rw [scope_eq] at hl
  exact hl ⟨e.1, false⟩ (List.mem_append_left _ (List.mem_map_of_mem he))

/-- Assigning to a variable of the blocks around changes its value alone. -/
theorem exists_assigned {pre post : Environment} {old : Datum}
    (hlocals : σ.locals = pre ++ (name, old) :: post) (hpre : ∀ e ∈ pre, e.1 ≠ name) (d : Datum) :
    ∃ blocks, σ.assign? name d = some { σ with blocks := blocks } ∧
      blocks.flatten = pre ++ (name, d) :: post ∧
      Store.declared { σ with blocks := blocks } = σ.declared := by
  have hassigned := map_flatten_assignLocal? name d σ.blocks
  rw [show σ.blocks.flatten = _ from hlocals, (Environment.lookup_of_latest hpre).2,
    Option.map_eq_some_iff] at hassigned
  obtain ⟨blocks, hblocks, hflatten⟩ := hassigned
  exact ⟨blocks, by rw [assign?, hblocks], hflatten, declared_of_assignLocal? hblocks⟩

/-- Assigning to a name that no block declares is assigning to a global. -/
theorem assign?_of_lacks (hl : ∀ e ∈ σ.locals, e.1 ≠ name) : σ.assign? name d =
    if (σ.globals name).isSome then some (σ.setGlobal name d) else none := by
  have hassigned := map_flatten_assignLocal? name d σ.blocks
  rw [show σ.blocks.flatten = σ.locals from rfl, (Environment.lookup_of_lacks hl).2,
    Option.map_eq_none_iff] at hassigned
  rw [assign?, hassigned]

end Store

/-- What a global is. -/
def Machine.global? (m : Machine) (name : String) : Option Value := m.heap.under? m.globals name

/-- The globals of a machine stand for those of a store, both have printed the same, and no variable
is captured. -/
structure Machine.Reflects (natives : String → Option Value) (m : Machine) (σ : Store) : Prop where
  globals : ∀ name, Option.Rel (m.heap.Denotes natives) (m.global? name) (σ.globals name)
  sink : m.sink = σ.sink
  closed : m.openUpvalues = []

/-- The machine shows something. -/
def Machine.Shown (m : Machine) : Prop := ∃ W O, m.Shows W O

/-- A script that captures nothing: its closure, its code, what its code is read with, and which
values the native functions are. -/
structure Script where
  natives : String → Option Value
  body : Body
  closure : Handle
  chunk : Chunk
  constants : body.constants = chunk.constants.toList
  captures : body.captures = []
  outer : body.outer = []

namespace Script

variable {S : Script} {m m' : Machine} {ip n : Nat} {vars : List (List String)} {σ σ' : Store}
  {d a b : Datum} {ds : List Datum} {v : Value} {heap : Heap} {i : Instr} {ws vs : List UInt32}

/-- Some words are at an offset of the code. -/
def Has (S : Script) (ip : Nat) (ws : List UInt32) : Prop :=
  ∀ k w, ws[k]? = some w → S.chunk.code[ip + k]? = some w

/-- No words are anywhere. -/
@[simp] theorem has_nil : S.Has ip [] := fun k w hw => by simp at hw

/-- Words are where the first is and the others behind it. -/
@[simp] theorem has_cons {w : UInt32} :
    S.Has ip (w :: ws) ↔ S.chunk.code[ip]? = some w ∧ S.Has (ip + 1) ws := by
  constructor
  · intro h
    refine ⟨h 0 w rfl, fun k w' hw => ?_⟩
    rw [Nat.add_assoc, Nat.add_comm 1]
    exact h (k + 1) w' hw
  · rintro ⟨hfirst, hrest⟩ k w' hw
    cases k with
    | zero => exact Option.some.inj hw ▸ hfirst
    | succ k =>
      rw [Nat.add_comm k, ← Nat.add_assoc]
      exact hrest k w' hw

/-- Words are where both parts are, one behind the other. -/
@[simp] theorem has_append : S.Has ip (vs ++ ws) ↔ S.Has ip vs ∧ S.Has (ip + vs.length) ws := by
  induction vs generalizing ip with
  | nil => simp
  | cons w vs ih =>
    rw [List.cons_append, has_cons, has_cons, ih, List.length_cons, and_assoc, Nat.add_assoc,
      Nat.add_comm 1]

/-- The script runs at an offset, beside an evaluation with a store, with values of operands on top
of the stack. -/
structure Holds (S : Script) (ip : Nat) (vars : List (List String)) (σ : Store) (ds : List Datum)
    (m : Machine) : Prop extends m.Reflects S.natives σ where
  declared : σ.declared = vars
  frames : m.frames = #[⟨S.closure, S.chunk, ip, 0⟩]
  values : ∃ c vs, m.stack.toList = c :: vs.reverse ∧
    List.Forall₂ (m.heap.Denotes S.natives) vs (ds ++ σ.values)
  names : ∀ k name, S.body.Names k name → ({ S.body with heap := m.heap } : Body).Names k name

/-- The result of an action is like the one of an evaluation, or no space is left. -/
inductive Mimics {α β : Type} (S : Script) (b : β) (P : α → Store → Machine → Prop) :
    EStateM.Result Halt Machine β → EStateM.Result Stop Store α → Prop
  | ok {a : α} {σ : Store} {m : Machine} (holds : P a σ m) : Mimics S b P (.ok b m) (.ok a σ)
  | error {e : RuntimeError} {σ : Store} {m : Machine} (reflects : m.Reflects S.natives σ) :
      Mimics S b P (.error (.error e) m) (.error (.error e) σ)
  | full {m : Machine} {r : EStateM.Result Stop Store α} :
      Mimics S b P (.error (.fault .arenaFull) m) r
  | unfinished {result : EStateM.Result Halt Machine β} {σ : Store} :
      Mimics S b P result (.error .unfinished σ)

/-- A run from a machine comes to what an evaluation comes to. -/
def Runs {α : Type} (S : Script) (m : Machine) (r : EStateM.Result Stop Store α)
    (P : α → Store → Machine → Prop) : Prop :=
  ∃ n, S.Mimics .running P (Exec.run n m) r

end Script

namespace Exec

variable {m m' : Machine}

/-- A run of one step is the step. -/
theorem run_one (m : Machine) : run 1 m = step m := by
  rw [run]
  show EStateM.bind step _ m = step m
  unfold EStateM.bind
  cases step m with
  | ok progress m' => cases progress <;> rfl
  | error e m' => rfl

/-- A run goes on where a shorter one has come to. -/
theorem run_add {k n : Nat} (hrun : run k m = .ok .running m') : run (k + n) m = run n m' := by
  induction k generalizing m with
  | zero =>
    obtain ⟨-, rfl⟩ := EStateM.Result.ok.inj hrun
    rw [Nat.zero_add]
  | succ k ih =>
    obtain ⟨progress, m₁, hstep, hrest⟩ := exists_of_bind_ok hrun
    rw [Nat.add_right_comm, run, bind_eq hstep]
    cases progress with
    | finished =>
      obtain ⟨hfinished, -⟩ := EStateM.Result.ok.inj hrest
      cases hfinished
    | running => exact ih hrest

end Exec

namespace Script

variable {S : Script} {m m' : Machine} {α β : Type} {P : α → Store → Machine → Prop}
  {Q : β → Store → Machine → Prop} {r : EStateM.Result Stop Store β} {a : α} {σ : Store}

/-- Nothing has to be done for what holds already. -/
theorem Runs.ok (h : P a σ m) : S.Runs m (.ok a σ) P := ⟨0, .ok h⟩

/-- One run after another. -/
theorem Runs.bind {x : Eval α} {f : α → Eval β} (hx : S.Runs m (x σ) P)
    (hf : ∀ a σ' m', P a σ' m' → S.Runs m' (f a σ') Q) : S.Runs m ((x >>= f) σ) Q := by
  obtain ⟨n, hx⟩ := hx
  have hbind : (x >>= f) σ = EStateM.bind x f σ := rfl
  rw [hbind, EStateM.bind]
  generalize hresult : Exec.run n m = result at hx
  generalize x σ = evaluated at hx
  cases hx with
  | ok holds =>
    obtain ⟨k, hk⟩ := hf _ _ _ holds
    exact ⟨n + k, by rwa [Exec.run_add hresult]⟩
  | error reflects => exact ⟨n, hresult ▸ .error reflects⟩
  | full => exact ⟨n, hresult ▸ .full⟩
  | unfinished => exact ⟨n, .unfinished⟩

/-- A run that the evaluation takes no part in comes before. -/
theorem Runs.andThen (hx : S.Runs m (.ok a σ) P) (hf : ∀ m', P a σ m' → S.Runs m' r Q) :
    S.Runs m r Q := by
  obtain ⟨n, hx⟩ := hx
  generalize hresult : Exec.run n m = result at hx
  cases hx with
  | ok holds =>
    obtain ⟨k, hk⟩ := hf _ holds
    exact ⟨n + k, by rwa [Exec.run_add hresult]⟩
  | full => exact ⟨n, hresult ▸ .full⟩

/-- A run goes on after the evaluation has ended. -/
theorem Runs.finish {Q : α → Store → Machine → Prop} {r : EStateM.Result Stop Store α}
    (hx : S.Runs m r P) (hf : ∀ a σ' m', P a σ' m' → S.Runs m' (.ok a σ') Q) : S.Runs m r Q := by
  obtain ⟨n, hx⟩ := hx
  generalize hresult : Exec.run n m = result at hx
  cases hx with
  | ok holds =>
    obtain ⟨k, hk⟩ := hf _ _ _ holds
    exact ⟨n + k, by rwa [Exec.run_add hresult]⟩
  | error reflects => exact ⟨n, hresult ▸ .error reflects⟩
  | full => exact ⟨n, hresult ▸ .full⟩
  | unfinished => exact ⟨n, .unfinished⟩

/-- Less may be said of what is reached. -/
theorem Runs.imp {Q : α → Store → Machine → Prop} {r : EStateM.Result Stop Store α}
    (h : S.Runs m r P) (himp : ∀ a σ m, P a σ m → Q a σ m) : S.Runs m r Q := by
  obtain ⟨n, h⟩ := h
  refine ⟨n, ?_⟩
  generalize Exec.run n m = result at h ⊢
  cases h with
  | ok holds => exact .ok (himp _ _ _ holds)
  | error reflects => exact .error reflects
  | full => exact .full
  | unfinished => exact .unfinished

end Script

end ScriptMachine
