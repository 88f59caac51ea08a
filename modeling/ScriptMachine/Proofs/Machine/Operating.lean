import ScriptMachine.Machine.Session
import ScriptMachine.Proofs.Compile.Operating

/-!
# Running works by heap operations

The machine changes its heap and its globals by single operations of the heap: when an
instruction allocates, sets a field, a method or a global, or an upvalue closes. None of them
allocates a function. So does every part of a session. Only a fault may leave another heap behind.
-/

namespace ScriptMachine

/-- Whether a halt is a fault. -/
def Halt.IsFault : Halt → Prop
  | .error _ => False
  | .fault _ => True

/-- The heap and the globals of a machine. -/
def Machine.memory (m : Machine) : Memory := ⟨m.heap, m.globals⟩

/-- The machines follow whose memories a machine's memory evolves into. -/
@[reducible] def Machine.evolving : Preorder Machine where
  le m m' := m.memory.Evolves m'.memory
  le_refl m := .refl m.memory
  le_trans _ _ _ h h' := Memory.Evolves.trans h h'

namespace Exec

/-- A step of the machine works by heap operations, unless it faults. -/
abbrev Works {α : Type} (x : Exec α) : Prop := Operates Halt.IsFault Machine.evolving x

variable {α : Type}

/-! ### Steps -/

instance works_look (f : Machine → α) : Works (look f) := operates_of_ok fun m =>
  ⟨f m, m, rfl, Memory.Evolves.refl _⟩

instance works_raise (e : RuntimeError) : Works (raise e : Exec α) where
  ok h := by cases h
  error h _ := by
    cases h
    exact Memory.Evolves.refl _

instance works_fault (f : Fault) : Works (fault f : Exec α) where
  ok h := by cases h
  error h hkept := by
    cases h
    exact absurd trivial hkept

/-- A step that faults or keeps the memory. -/
theorem works_of_or {x : Exec α} (hx : ∀ m, (∃ a m', x m = .ok a m' ∧ m'.memory = m.memory) ∨
    ∃ f m', x m = .error (.fault f) m') : Works x where
  ok {m a m'} h := by
    rcases hx m with ⟨a', m'', hok, hmem⟩ | ⟨f, m'', herr⟩
    · obtain ⟨-, rfl⟩ := EStateM.Result.ok.inj (hok.symm.trans h)
      show Memory.Evolves _ _
      rw [hmem]
      exact .refl _
    · cases herr.symm.trans h
  error {m e m'} h hkept := by
    rcases hx m with ⟨a', m'', hok, -⟩ | ⟨f, m'', herr⟩
    · cases hok.symm.trans h
    · obtain ⟨rfl, -⟩ := EStateM.Result.error.inj (herr.symm.trans h)
      exact absurd trivial hkept

instance works_readHeap (f : Heap → Except Fault α) : Works (readHeap f) :=
  works_of_or fun m => by
    unfold readHeap
    split
    · exact .inl ⟨_, _, rfl, rfl⟩
    · exact .inr ⟨_, _, rfl⟩

/-- A change of the heap that is operating. -/
theorem works_changeHeap {f : Heap → Except Fault (α × Heap)}
    (hf : ∀ h g a h', f h = .ok (a, h') → Memory.Evolves ⟨h, g⟩ ⟨h', g⟩) :
    Works (changeHeap f) where
  ok {m a m'} h := by
    unfold changeHeap at h
    dsimp only at h
    split at h
    · next hdone =>
      obtain ⟨rfl, rfl⟩ := EStateM.Result.ok.inj h
      exact hf _ m.globals _ _ hdone
    · cases h
  error {m e m'} h hkept := by
    unfold changeHeap at h
    dsimp only at h
    split at h
    · cases h
    · cases h
      exact absurd trivial hkept

/-- A change of the heap with roots that is operating. -/
theorem works_changeHeapRooted {f : Heap → (Unit → List Handle) → Except Fault (α × Heap)}
    (hf : ∀ h roots g a h', f h roots = .ok (a, h') → Memory.Evolves ⟨h, g⟩ ⟨h', g⟩) :
    Works (changeHeapRooted f) where
  ok {m a m'} h := by
    unfold changeHeapRooted at h
    dsimp only at h
    split at h
    · next hdone =>
      obtain ⟨rfl, rfl⟩ := EStateM.Result.ok.inj h
      exact hf _ _ m.globals _ _ hdone
    · cases h
  error {m e m'} h hkept := by
    unfold changeHeapRooted at h
    dsimp only at h
    split at h
    · cases h
    · cases h
      exact absurd trivial hkept

/-- The machine allocates all kinds of objects but functions. -/
theorem works_alloc {o : Object} (ho : o.LinesFromOne) : Works (alloc o) :=
  works_changeHeapRooted fun _ _ g _ _ hdone => Memory.evolves_alloc g hdone ho

instance works_allocUpvalue (u : Upvalue) : Works (alloc (.upvalue u)) := works_alloc trivial

instance works_allocClosure (c : Closure) : Works (alloc (.closure c)) := works_alloc trivial

instance works_allocNative (n : Native) : Works (alloc (.native n)) := works_alloc trivial

instance works_allocClass (c : ClassObject) : Works (alloc (.class_ c)) := works_alloc trivial

instance works_allocInstance (i : InstanceObject) : Works (alloc (.instance_ i)) :=
  works_alloc trivial

instance works_allocBound (b : BoundMethod) : Works (alloc (.boundMethod b)) := works_alloc trivial

instance works_intern (chars : String) : Works (intern chars) :=
  works_changeHeapRooted fun _ _ g _ _ hdone => Memory.evolves_intern g hdone

instance works_setField (r : Handle) (key : Key) (v : Value) :
    Works (changeHeap fun heap => heap.setField r key v) :=
  works_changeHeap fun _ g _ _ hdone => Memory.evolves_setField g hdone

instance works_setMethod (r : Handle) (key : Key) (v : Value) :
    Works (changeHeap fun heap => do
      let heap ← heap.setMethod r key v
      return ((), heap)) :=
  works_changeHeap fun h g _ h' hdone => by
    obtain ⟨h'', hset, hrest⟩ := exists_of_bind_eq_ok hdone
    obtain ⟨-, rfl⟩ := Prod.mk.inj (Except.ok.inj hrest)
    exact Memory.evolves_setMethod g hset

instance works_inheritMethods (subclass superclass : Handle) :
    Works (changeHeap fun heap => do
      let heap ← heap.inherit subclass superclass
      return ((), heap)) :=
  works_changeHeap fun h g _ h' hdone => by
    obtain ⟨h'', hset, hrest⟩ := exists_of_bind_eq_ok hdone
    obtain ⟨-, rfl⟩ := Prod.mk.inj (Except.ok.inj hrest)
    exact Memory.evolves_inherit g hset

instance works_setUpvalue (r : Handle) (v : Value) :
    Works (changeHeap fun heap => do
      let heap ← heap.setUpvalue r (.closed v)
      return ((), heap)) :=
  works_changeHeap fun h g _ h' hdone => by
    obtain ⟨h'', hset, hrest⟩ := exists_of_bind_eq_ok hdone
    obtain ⟨-, rfl⟩ := Prod.mk.inj (Except.ok.inj hrest)
    exact Memory.evolves_setUpvalue g hset

instance works_setGlobal (key : Key) (v : Value) : Works (setGlobal key v) where
  ok {m a m'} h := by
    obtain ⟨rfl, rfl⟩ := EStateM.Result.ok.inj h
    exact ⟨(Memory.Operation.setGlobal key v).path, id⟩
  error h _ := by cases h

instance works_eraseGlobal (key : Key) : Works (eraseGlobal key) where
  ok {m a m'} h := by
    obtain ⟨rfl, rfl⟩ := EStateM.Result.ok.inj h
    exact ⟨(Memory.Operation.eraseGlobal key).path, id⟩
  error h _ := by cases h

instance works_note (s : Severity) (text : Unit → String) :
    Works (modify fun m => { m with heap := m.heap.note s text }) where
  ok {m a m'} h := by
    obtain ⟨-, rfl⟩ := EStateM.Result.ok.inj h
    exact Memory.evolves_note m.heap m.globals _ _
  error h _ := by cases h

instance works_push (v : Value) : Works (push v) := operates_modify fun _ => Memory.Evolves.refl _

instance works_pop : Works pop := works_of_or fun m => by
  unfold pop
  split
  · exact .inl ⟨_, _, rfl, rfl⟩
  · exact .inr ⟨_, _, rfl⟩

instance works_drop : Works drop := by
  dsimp only [drop]
  infer_instance

instance works_peek (distance : Nat) : Works (peek distance) := works_of_or fun m => by
  unfold peek
  split
  · split
    · exact .inl ⟨_, _, rfl, rfl⟩
    · exact .inr ⟨_, _, rfl⟩
  · exact .inr ⟨_, _, rfl⟩

instance works_slotAt (distance : Nat) : Works (slotAt distance) := works_of_or fun m => by
  unfold slotAt
  split
  · exact .inl ⟨_, _, rfl, rfl⟩
  · exact .inr ⟨_, _, rfl⟩

instance works_readSlot (slot : Nat) : Works (readSlot slot) := works_of_or fun m => by
  unfold readSlot
  split
  · exact .inl ⟨_, _, rfl, rfl⟩
  · exact .inr ⟨_, _, rfl⟩

instance works_writeSlot (slot : Nat) (v : Value) : Works (writeSlot slot v) :=
  works_of_or fun m => by
    unfold writeSlot
    split
    · exact .inl ⟨_, _, rfl, rfl⟩
    · exact .inr ⟨_, _, rfl⟩

instance works_cutStack (size : Nat) : Works (cutStack size) :=
  operates_modify fun _ => Memory.Evolves.refl _

instance works_frame : Works frame := works_of_or fun m => by
  unfold frame
  split
  · exact .inl ⟨_, _, rfl, rfl⟩
  · exact .inr ⟨_, _, rfl⟩

instance works_setIp (ip : Nat) : Works (setIp ip) := operates_modify fun _ => Memory.Evolves.refl _

instance works_fetch : Works fetch :=
  works_frame.bind fun f => by split <;> infer_instance

instance works_skip (distance : Nat) : Works (skip distance) := by
  dsimp only [skip]
  infer_instance

instance works_goBack (distance : Nat) : Works (goBack distance) := by
  dsimp only [goBack]
  infer_instance

instance works_constant (index : UInt16) : Works (constant index) :=
  works_frame.bind fun f => by split <;> infer_instance

instance works_handleOf (v : Value) : Works (handleOf v) := by
  unfold handleOf
  split <;> infer_instance

instance works_constantHandle (index : UInt16) : Works (constantHandle index) := by
  dsimp only [constantHandle]
  infer_instance

instance works_textOf (r : Handle) : Works (textOf r) := by
  dsimp only [textOf]
  infer_instance

instance works_raiseMismatch (operator : Symbol) (rule : OperandRule) (found : List Value) :
    Works (raiseMismatch operator rule found : Exec α) := by
  dsimp only [raiseMismatch]
  infer_instance

instance works_printLine (line : String) : Works (printLine line) where
  ok {m a m'} h := by
    unfold printLine at h
    dsimp only at h
    split at h
    · obtain ⟨-, rfl⟩ := EStateM.Result.ok.inj h
      exact Memory.Evolves.refl _
    · cases h
  error {m e m'} h _ := by
    unfold printLine at h
    dsimp only at h
    split at h
    · cases h
    · cases h
      exact Memory.Evolves.refl _

/-! ### Captured variables -/

instance works_captureSlot (slot : Nat) : Works (captureSlot slot) := by
  dsimp only [captureSlot]
  refine (works_look _).bind fun listed => (works_readHeap _).bind fun parts =>
    (works_readHeap _).bind fun found => ?_
  split
  · infer_instance
  · exact (works_allocUpvalue _).bind fun r =>
      Operates.bind (operates_modify fun _ => Memory.Evolves.refl _) fun _ => operates_pure r

instance works_closeEach (rs : List Handle) : Works (closeEach rs) := by
  induction rs with
  | nil => exact operates_pure ()
  | cons r rest ih =>
    rw [closeEach]
    infer_instance

instance works_closeUpvalues (boundary : Nat) : Works (closeUpvalues boundary) := by
  dsimp only [closeUpvalues]
  exact (works_look _).bind fun listed => (works_readHeap _).bind fun parts =>
    (works_closeEach _).bind fun _ => operates_modify fun _ => Memory.Evolves.refl _

instance works_frameUpvalue (index : Nat) : Works (frameUpvalue index) :=
  works_frame.bind fun f => (works_readHeap _).bind fun c => by split <;> infer_instance

instance works_readUpvalue (r : Handle) : Works (readUpvalue r) :=
  (works_readHeap _).bind fun u => by split <;> infer_instance

instance works_writeUpvalue (r : Handle) (v : Value) : Works (writeUpvalue r v) :=
  (works_readHeap _).bind fun u => by split <;> infer_instance

instance works_captures (count : Nat) (done : Array Handle) : Works (captures count done) := by
  induction count generalizing done with
  | zero => exact operates_pure done
  | succ count ih =>
    rw [captures]
    infer_instance

instance works_makeClosure (index : UInt16) : Works (makeClosure index) := by
  dsimp only [makeClosure]
  infer_instance

/-! ### Calls -/

instance works_callClosure (closure : Handle) (count : UInt8) : Works (callClosure closure count) := by
  dsimp only [callClosure]
  refine (works_readHeap _).bind fun c => (works_readHeap _).bind fun f => ?_
  have hframe : Works (do
      let base ← slotAt count.toNat
      modify fun m => { m with frames := m.frames.push ⟨closure, f.chunk, 0, base⟩ }) :=
    (works_slotAt _).bind fun base => operates_modify fun _ => Memory.Evolves.refl _
  split
  · exact (works_raise _).bind fun _ => (works_look _).bind fun full => by split <;> infer_instance
  · exact (works_look _).bind fun full => by split <;> infer_instance

instance works_firstArgument (args : List Value) : Works (firstArgument args) := by
  unfold firstArgument
  split <;> infer_instance

instance works_runNative (n : Native) (args : List Value) : Works (runNative n args) := by
  unfold runNative
  split
  · infer_instance
  · infer_instance
  · exact (works_firstArgument args).bind fun v => (works_readHeap _).bind fun found => by
      split <;> infer_instance

instance works_callNative (native : Handle) (count : UInt8) : Works (callNative native count) := by
  dsimp only [callNative]
  refine (works_readHeap _).bind fun n => ?_
  split <;> infer_instance

instance works_findMethod (class_ name : Handle) : Works (findMethod class_ name) := by
  dsimp only [findMethod]
  infer_instance

instance works_callClass (class_ : Handle) (count : UInt8) : Works (callClass class_ count) := by
  dsimp only [callClass]
  exact (works_allocInstance _).bind fun r => (works_slotAt _).bind fun callee =>
    (works_writeSlot _ _).bind fun _ => (works_look _).bind fun init =>
    (works_findMethod _ _).bind fun method => by split <;> infer_instance

instance works_callValue (callee : Value) (count : UInt8) : Works (callValue callee count) := by
  dsimp only [callValue]
  split
  · infer_instance
  · exact (works_readHeap _).bind fun o => by split <;> infer_instance

instance works_raiseNotAnInstance (v : Value) : Works (raiseNotAnInstance v : Exec α) := by
  dsimp only [raiseNotAnInstance]
  infer_instance

instance works_raiseUndefinedProperty (name : Handle) :
    Works (raiseUndefinedProperty name : Exec α) := by
  dsimp only [raiseUndefinedProperty]
  infer_instance

instance works_invokeFromClass (class_ name : Handle) (count : UInt8) :
    Works (invokeFromClass class_ name count) :=
  (works_findMethod class_ name).bind fun method => by split <;> infer_instance

instance works_invoke (name : Handle) (count : UInt8) : Works (invoke name count) := by
  dsimp only [invoke]
  refine (works_peek _).bind fun receiver => (works_readHeap _).bind fun found => ?_
  split
  · infer_instance
  · exact (works_readHeap _).bind fun key => by split <;> infer_instance

instance works_bindMethod (class_ name : Handle) : Works (bindMethod class_ name) :=
  (works_findMethod class_ name).bind fun method => by split <;> infer_instance

/-! ### Instructions -/

instance works_popNumbers (operator : Symbol) : Works (popNumbers operator) :=
  (works_peek 0).bind fun b => (works_peek 1).bind fun a => by split <;> infer_instance

instance works_arithmetic (operator : Symbol) (f : Float → Float → Value) :
    Works (arithmetic operator f) := by
  dsimp only [arithmetic]
  infer_instance

instance works_add : Works add := by
  refine (works_peek 0).bind fun b => (works_peek 1).bind fun a => ?_
  split
  · infer_instance
  · exact (works_readHeap _).bind fun x => (works_readHeap _).bind fun y => by
      split <;> infer_instance

instance works_negate : Works negate :=
  (works_peek 0).bind fun v => by split <;> infer_instance

instance works_equal : Works equal := by
  dsimp only [equal]
  infer_instance

instance works_getGlobal (index : UInt16) : Works (getGlobal index) :=
  (works_constantHandle index).bind fun name => (works_readHeap _).bind fun key =>
    (works_look _).bind fun v => by split <;> infer_instance

instance works_defineGlobal (index : UInt16) : Works (defineGlobal index) := by
  dsimp only [defineGlobal]
  infer_instance

instance works_assignGlobal (index : UInt16) : Works (assignGlobal index) := by
  dsimp only [assignGlobal]
  infer_instance

instance works_getProperty (index : UInt16) : Works (getProperty index) := by
  dsimp only [getProperty]
  refine (works_peek 0).bind fun receiver => (works_readHeap _).bind fun found => ?_
  split
  · infer_instance
  · exact (works_constantHandle index).bind fun name => (works_readHeap _).bind fun key => by
      split <;> infer_instance

instance works_setProperty (index : UInt16) : Works (setProperty index) :=
  (works_peek 1).bind fun target => (works_readHeap _).bind fun found => by
    split <;> infer_instance

instance works_print : Works print := by
  dsimp only [print]
  infer_instance

instance works_inherit : Works inherit :=
  (works_peek 1).bind fun superclass => (works_readHeap _).bind fun kind => by
    split <;> infer_instance

instance works_addMethod (index : UInt16) : Works (addMethod index) := by
  dsimp only [addMethod]
  infer_instance

instance works_return : Works return_ := by
  dsimp only [return_]
  exact works_pop.bind fun result => works_frame.bind fun f =>
    Operates.bind (operates_modify fun _ => Memory.Evolves.refl _) fun _ =>
    (works_closeUpvalues _).bind fun _ =>
    (works_cutStack _).bind fun _ => (works_look _).bind fun last => by split <;> infer_instance

instance works_perform (i : Instr) : Works (perform i) := by
  cases i <;> dsimp only [perform] <;> infer_instance

instance works_noteInstruction : Works noteInstruction := by
  dsimp only [noteInstruction]
  refine (works_look _).bind fun fine => ?_
  split
  · exact works_frame.bind fun f => (works_look _).bind fun line => by split <;> infer_instance
  · infer_instance

instance works_step : Works step := by
  dsimp only [step]
  exact works_noteInstruction.bind fun _ => works_fetch.bind fun word => by
    split <;> infer_instance

/-- A run works by heap operations, however long it is. -/
instance works_run (fuel : Nat) : Works (run fuel) := by
  induction fuel with
  | zero => exact operates_pure _
  | succ fuel ih => exact works_step.bind fun progress => by split <;> infer_instance

/-! ### Sessions -/

instance works_enter (function : Handle) : Works (enter function) := by
  dsimp only [enter]
  infer_instance

instance works_traceEntry (f : Frame) : Works (traceEntry f) :=
  (works_readHeap _).bind fun c => (works_readHeap _).bind fun p => by split <;> infer_instance

instance works_failure (e : RuntimeError) : Works (failure e) := by
  dsimp only [failure]
  refine (works_look _).bind fun frames => (operates_mapM _ _).bind fun trace =>
    (works_note _ _).bind fun _ => (works_closeUpvalues 0).bind fun _ =>
    Operates.bind (operates_modify fun _ => Memory.Evolves.refl _) fun _ => operates_pure _

instance works_defineNative (n : Native) : Works (defineNative n) := by
  dsimp only [defineNative]
  infer_instance

instance works_defineNatives (ns : List Native) : Works (defineNatives ns) := by
  induction ns with
  | nil => exact operates_pure ()
  | cons n rest ih =>
    rw [defineNatives]
    infer_instance

end Exec

end ScriptMachine
