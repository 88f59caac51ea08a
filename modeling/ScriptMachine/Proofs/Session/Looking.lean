import ScriptMachine.Proofs.Session.Steps

/-!
# Looking before acting

Most of what an instruction does when its operands do not suit is to look at them. An action that
looks changes nothing, and one that refuses has changed nothing when an error of the script stops
it; nothing can stop what only acts.
-/

namespace ScriptMachine

/-- `m'` is `m` but for the sink, and the journal and the account of the heap. -/
structure Machine.Same (m m' : Machine) : Prop extends m.Untouched m' where
  openUpvalues : m'.openUpvalues = m.openUpvalues
  globals : m'.globals = m.globals
  initName : m'.initName = m.initName
  heap : m.heap.Alike m'.heap

/-- Every machine is the same as itself. -/
theorem Machine.Same.refl (m : Machine) : m.Same m := ⟨⟨rfl, rfl, rfl⟩, rfl, rfl, rfl, .refl _⟩

/-- What stays the same twice stays the same. -/
theorem Machine.Same.trans {m m₁ m' : Machine} (h : m.Same m₁) (h' : m₁.Same m') : m.Same m' :=
  ⟨⟨h'.stack.trans h.stack, h'.frames.trans h.frames, h'.limit.trans h.limit⟩,
    h'.openUpvalues.trans h.openUpvalues, h'.globals.trans h.globals, h'.initName.trans h.initName,
    ⟨h'.heap.slots.trans h.heap.slots, h'.heap.marks.trans h.heap.marks,
      h'.heap.free.trans h.heap.free, h'.heap.gray.trans h.heap.gray,
      h'.heap.strings.trans h.heap.strings⟩⟩

namespace Exec

variable {α β : Type} {m m' : Machine}

/-! ### Actions that look only -/

/-- An action that changes nothing, whether it succeeds or an error stops it. -/
class Looks (x : Exec α) : Prop where
  ok {m : Machine} {a : α} {m' : Machine} : x m = .ok a m' → m.Same m'
  error {m : Machine} {e : RuntimeError} {m' : Machine} : x m = .error (.error e) m' → m.Same m'

/-- What stops two steps in sequence stops the first of them or the second. -/
theorem error_of_bind {x : Exec α} {f : α → Exec β} {e : Halt}
    (hstop : (x >>= f) m = .error e m') :
    x m = .error e m' ∨ ∃ a m₁, x m = .ok a m₁ ∧ f a m₁ = .error e m' := by
  rw [show (x >>= f) m = EStateM.bind x f m from rfl, EStateM.bind] at hstop
  split at hstop
  · next a m₁ hx => exact .inr ⟨a, m₁, hx, hstop⟩
  · next e' m₁ hx =>
    obtain ⟨rfl, rfl⟩ := EStateM.Result.error.inj hstop
    exact .inl hx

/-- Looking and then looking again is looking. -/
theorem Looks.bind {x : Exec α} {f : α → Exec β} (hx : Looks x) (hf : ∀ a, Looks (f a)) :
    Looks (x >>= f) where
  ok hdone := by
    obtain ⟨a, m₁, hfirst, hrest⟩ := exists_of_bind_ok hdone
    exact (hx.ok hfirst).trans ((hf a).ok hrest)
  error hstop := by
    rcases error_of_bind hstop with hfirst | ⟨a, m₁, hfirst, hrest⟩
    · exact hx.error hfirst
    · exact (hx.ok hfirst).trans ((hf a).error hrest)

/-- Sequences of looks are looks, also for instance search. -/
instance looks_bind (x : Exec α) (f : α → Exec β) [hx : Looks x] [hf : ∀ a, Looks (f a)] :
    Looks (x >>= f) := hx.bind hf

/-- An action that leaves the machine as it is and that no error stops. -/
theorem looks_of_quiet {x : Exec α} (hx : Quiet x) (hsame : ∀ m a m', x m = .ok a m' → m' = m) :
    Looks x where
  ok hdone := by
    obtain rfl := hsame _ _ _ hdone
    exact .refl _
  error hstop := absurd hstop (hx _ _ _)

/-- Giving a value back changes nothing. -/
instance looks_pure (a : α) : Looks (pure a : Exec α) :=
  looks_of_quiet (quiet_pure a) fun _ _ _ hdone => by
    cases hdone
    rfl

/-- Reading the state changes nothing. -/
instance looks_look (f : Machine → α) : Looks (look f) :=
  looks_of_quiet (quiet_look f) fun _ _ _ hdone => by
    cases hdone
    rfl

/-- Raising an error changes nothing. -/
instance looks_raise (e : RuntimeError) : Looks (raise e : Exec α) where
  ok hdone := by cases hdone
  error hstop := by
    cases hstop
    exact .refl _

/-- An internal fault is no error of the script. -/
instance looks_fault (f : Fault) : Looks (fault f : Exec α) :=
  looks_of_quiet (quiet_fault f) fun _ _ _ hdone => by cases hdone

/-- Reading the heap changes nothing. -/
instance looks_readHeap (f : Heap → Except Fault α) : Looks (readHeap f) :=
  looks_of_quiet (quiet_readHeap f) fun _ _ _ hdone => (readHeap_eq_ok hdone).1

/-- No error stops a look at a value of the stack: a missing value is a fault. -/
theorem quiet_peek (n : Nat) : Quiet (peek n) := by
  intro m e m' hstop
  unfold peek at hstop
  split at hstop
  · split at hstop <;> cases hstop
  · cases hstop

/-- Looking at a value of the stack changes nothing. -/
instance looks_peek (n : Nat) : Looks (peek n) :=
  looks_of_quiet (quiet_peek n) fun _ _ _ hdone => (peek_eq_ok hdone).1

/-- No error stops the count of a slot from the top. -/
theorem quiet_slotAt (n : Nat) : Quiet (slotAt n) := by
  intro m e m' hstop
  unfold slotAt at hstop
  split at hstop <;> cases hstop

/-- Counting a slot from the top changes nothing. -/
instance looks_slotAt (n : Nat) : Looks (slotAt n) :=
  looks_of_quiet (quiet_slotAt n) fun _ _ _ hdone => (slotAt_eq_ok hdone).1

/-- No error stops the reading of a slot. -/
theorem quiet_readSlot (j : Nat) : Quiet (readSlot j) := by
  intro m e m' hstop
  unfold readSlot at hstop
  split at hstop <;> cases hstop

/-- Reading a slot changes nothing. -/
instance looks_readSlot (j : Nat) : Looks (readSlot j) :=
  looks_of_quiet (quiet_readSlot j) fun _ _ _ hdone => (readSlot_eq_ok hdone).1

/-- Reading the running frame changes nothing. -/
instance looks_frame : Looks frame :=
  looks_of_quiet quiet_frame fun _ _ _ hdone => (frame_eq_ok hdone).1

/-- Reading a constant of the running code changes nothing. -/
instance looks_constant (k : UInt16) : Looks (constant k) :=
  looks_frame.bind fun f => by split <;> infer_instance

/-- Taking a value for a handle changes nothing. -/
instance looks_handleOf (v : Value) : Looks (handleOf v) := by
  unfold handleOf
  split <;> infer_instance

/-- Reading a constant that names something changes nothing. -/
instance looks_constantHandle (k : UInt16) : Looks (constantHandle k) :=
  (looks_constant k).bind fun v => looks_handleOf v

/-- Reading the text of a name changes nothing. -/
instance looks_textOf (r : Handle) : Looks (textOf r) :=
  (looks_readHeap _).bind fun _ => looks_pure _

/-- An error over operands names their types and changes nothing. -/
instance looks_raiseMismatch (operator : Symbol) (rule : OperandRule) (found : List Value) :
    Looks (raiseMismatch operator rule found : Exec α) :=
  (looks_readHeap _).bind fun _ => looks_raise _

/-- Reading which upvalue the closure holds changes nothing. -/
instance looks_frameUpvalue (index : Nat) : Looks (frameUpvalue index) :=
  looks_frame.bind fun _ => (looks_readHeap _).bind fun _ => by split <;> infer_instance

/-- Reading a captured variable changes nothing, open or closed. -/
instance looks_readUpvalue (r : Handle) : Looks (readUpvalue r) :=
  (looks_readHeap _).bind fun u => by split <;> infer_instance

/-- Reading the first argument changes nothing. -/
instance looks_firstArgument (args : List Value) : Looks (firstArgument args) := by
  unfold firstArgument
  split <;> infer_instance

/-- Looking for a method changes nothing. -/
instance looks_findMethod (class_ name : Handle) : Looks (findMethod class_ name) :=
  (looks_readHeap _).bind fun _ => (looks_readHeap _).bind fun _ => looks_pure _

/-- The error over a value without properties changes nothing. -/
instance looks_raiseNotAnInstance (v : Value) : Looks (raiseNotAnInstance v : Exec α) :=
  (looks_readHeap _).bind fun _ => looks_raise _

/-- The error over a property that is not found changes nothing. -/
instance looks_raiseUndefinedProperty (name : Handle) :
    Looks (raiseUndefinedProperty name : Exec α) :=
  (looks_textOf name).bind fun _ => looks_raise _

/-! ### Actions that look first -/

/-- An action that has changed nothing when an error stops it. -/
class Refuses (x : Exec α) : Prop where
  error {m : Machine} {e : RuntimeError} {m' : Machine} : x m = .error (.error e) m' → m.Same m'

/-- What looks only has changed nothing when it is stopped. -/
theorem Looks.refuses {x : Exec α} (hx : Looks x) : Refuses x := ⟨hx.error⟩

/-- What no error stops has, trivially, changed nothing by then. -/
theorem Quiet.refuses {x : Exec α} (hx : Quiet x) : Refuses x :=
  ⟨fun hstop => absurd hstop (hx _ _ _)⟩

/-- Looking may come before what refuses. -/
theorem Looks.before {x : Exec α} {f : α → Exec β} (hx : Looks x) (hf : ∀ a, Refuses (f a)) :
    Refuses (x >>= f) where
  error hstop := by
    rcases error_of_bind hstop with hfirst | ⟨a, m₁, hfirst, hrest⟩
    · exact hx.error hfirst
    · exact (hx.ok hfirst).trans ((hf a).error hrest)

/-- What no error stops may come behind what refuses. -/
theorem Refuses.before {x : Exec α} {f : α → Exec β} (hx : Refuses x) (hf : ∀ a, Quiet (f a)) :
    Refuses (x >>= f) where
  error hstop := by
    rcases error_of_bind hstop with hfirst | ⟨a, m₁, -, hrest⟩
    · exact hx.error hfirst
    · exact absurd hrest (hf a _ _ _)

/-- No error stops the taking of a value: an empty stack is a fault. -/
theorem quiet_pop : Quiet pop := by
  intro m e m' hstop
  unfold pop at hstop
  split at hstop <;> cases hstop

/-- No error stops the writing of a slot. -/
theorem quiet_writeSlot (j : Nat) (v : Value) : Quiet (writeSlot j v) := by
  intro m e m' hstop
  unfold writeSlot at hstop
  split at hstop <;> cases hstop

/-- No error stops a change of the heap: the heap knows faults only. -/
theorem quiet_changeHeap (f : Heap → Except Fault (α × Heap)) : Quiet (changeHeap f) := by
  intro m e m' hstop
  unfold changeHeap at hstop
  dsimp only at hstop
  split at hstop <;> cases hstop

/-- No error stops a change of the state. -/
theorem quiet_modify (f : Machine → Machine) : Quiet (modify f : Exec Unit) :=
  fun _ _ _ hstop => by cases hstop

/-- Two values are dropped and one is pushed. -/
theorem quiet_dropTwo (v : Value) : Quiet (do drop; drop; push v) :=
  .bind quiet_drop fun _ => .bind quiet_drop fun _ => quiet_push v

/-- A line that the writer refuses leaves everything but the sink. -/
theorem refuses_printLine (line : String) : Refuses (printLine line) where
  error hstop := by
    unfold printLine at hstop
    dsimp only at hstop
    split at hstop
    · cases hstop
    · cases hstop
      exact ⟨⟨rfl, rfl, rfl⟩, rfl, rfl, rfl, .refl _⟩

/-- A call with the wrong count of arguments, or one too deep, has entered no frame. -/
theorem refuses_callClosure (closure : Handle) (count : UInt8) :
    Refuses (callClosure closure count) := by
  refine (looks_readHeap _).before fun c => (looks_readHeap _).before fun f => ?_
  have henter : Refuses (do
      let full ← look fun m =>
        m.framesMax ≤ m.frames.size || m.framesMax * Machine.stackPerFrame ≤ m.stack.size
      if full then raise .stackOverflow
      let base ← slotAt count.toNat
      modify fun m => { m with frames := m.frames.push ⟨closure, f.chunk, 0, base⟩ }) := by
    have hpush : Refuses (do
        let base ← slotAt count.toNat
        modify fun m => { m with frames := m.frames.push ⟨closure, f.chunk, 0, base⟩ }) :=
      (looks_slotAt _).before fun base => (quiet_modify _).refuses
    refine (looks_look _).before fun full => ?_
    dsimp only
    split
    · exact (looks_raise _).before fun _ => hpush
    · exact hpush
  dsimp only
  split
  · exact (looks_raise _).before fun _ => henter
  · exact henter

/-- A built-in function refuses its argument before it allocates. -/
theorem refuses_runNative (n : Native) (args : List Value) : Refuses (runNative n args) := by
  unfold runNative
  split
  · exact (looks_look _).before fun _ => (looks_pure _).refuses
  · exact (looks_firstArgument _).before fun _ => (looks_readHeap _).before fun _ =>
      (quiet_changeHeapRooted _).refuses.before fun _ => quiet_pure _
  · refine (looks_firstArgument _).before fun _ => (looks_readHeap _).before fun found => ?_
    split
    · exact (looks_pure _).refuses
    · exact (looks_readHeap _).before fun _ => (looks_raise _).refuses

/-- A call of a built-in function that fails has left the arguments on the stack. -/
theorem refuses_callNative (native : Handle) (count : UInt8) :
    Refuses (callNative native count) := by
  have hanswer (n : Native) : Refuses (do
      let callee ← slotAt count.toNat
      let args ← look fun m => (m.stack.extract (callee + 1) m.stack.size).toList
      let result ← runNative n args
      cutStack callee
      push result) :=
    (looks_slotAt _).before fun callee => (looks_look _).before fun args =>
      (refuses_runNative n args).before fun result => .bind (quiet_modify _) fun _ => quiet_push _
  refine (looks_readHeap _).before fun n => ?_
  dsimp only
  split
  · split
    · exact (looks_raise _).before fun _ => hanswer n
    · exact hanswer n
  · exact hanswer n

/-- A method that is not found, or not called as it is to be, leaves the stack. -/
theorem refuses_invokeFromClass (class_ name : Handle) (count : UInt8) :
    Refuses (invokeFromClass class_ name count) :=
  (looks_findMethod _ _).before fun method => by
    split
    · exact (looks_handleOf _).before fun _ => refuses_callClosure _ _
    · exact (looks_raiseUndefinedProperty name).refuses

/-- A method that is not found leaves the object on the stack. -/
theorem refuses_bindMethod (class_ name : Handle) : Refuses (bindMethod class_ name) :=
  (looks_findMethod _ _).before fun method => by
    split
    · exact (looks_raiseUndefinedProperty name).refuses
    · exact (looks_peek 0).before fun _ => (looks_handleOf _).before fun _ =>
        (quiet_changeHeapRooted _).refuses.before fun _ => .bind quiet_drop fun _ => quiet_push _

/-- Operands that are no numbers are left on the stack. -/
theorem refuses_arithmetic (operator : Symbol) (f : Float → Float → Value) :
    Refuses (arithmetic operator f) := by
  have hpop : Refuses (popNumbers operator) :=
    (looks_peek 0).before fun _ => (looks_peek 1).before fun _ => by
      split
      · exact Quiet.refuses (.bind quiet_drop fun _ => .bind quiet_drop fun _ => quiet_pure _)
      · exact (looks_raiseMismatch _ _ _).refuses
  exact hpop.before fun _ => quiet_push _

/-- Operands that cannot be added are left on the stack. -/
theorem refuses_add : Refuses add :=
  (looks_peek 0).before fun _ => (looks_peek 1).before fun _ => by
    split
    · exact (quiet_dropTwo _).refuses
    · refine (looks_readHeap _).before fun _ => (looks_readHeap _).before fun _ => ?_
      split
      · exact Quiet.refuses (.bind (quiet_changeHeapRooted _) fun _ => quiet_dropTwo _)
      · exact (looks_raiseMismatch _ _ _).refuses

/-- An operand that is no number is left on the stack. -/
theorem refuses_negate : Refuses negate :=
  (looks_peek 0).before fun _ => by
    split
    · exact Quiet.refuses (.bind quiet_drop fun _ => quiet_push _)
    · exact (looks_raiseMismatch _ _ _).refuses

/-- Reading a global variable that is not defined changes nothing. -/
theorem refuses_getGlobal (k : UInt16) : Refuses (getGlobal k) :=
  (looks_constantHandle k).before fun name => (looks_readHeap _).before fun _ =>
    (looks_look _).before fun _ => by
      split
      · exact (quiet_push _).refuses
      · exact ((looks_textOf name).bind fun _ => looks_raise _).refuses

/-- No error stops the definition of a global variable. -/
theorem refuses_defineGlobal (k : UInt16) : Refuses (defineGlobal k) :=
  (looks_constantHandle k).before fun _ => (looks_readHeap _).before fun _ =>
    (looks_peek 0).before fun _ =>
      Quiet.refuses (.bind (quiet_setGlobal _ _) fun _ => quiet_drop)

/-- Reading a property that the value does not have leaves the value on the stack. -/
theorem refuses_getProperty (k : UInt16) : Refuses (getProperty k) :=
  (looks_peek 0).before fun v => (looks_readHeap _).before fun found => by
    split
    · exact (looks_raiseNotAnInstance v).refuses
    · refine (looks_constantHandle k).before fun _ => (looks_readHeap _).before fun _ => ?_
      split
      · exact Quiet.refuses (.bind quiet_drop fun _ => quiet_push _)
      · exact refuses_bindMethod _ _

/-- Writing a property of what is no instance leaves both values on the stack. -/
theorem refuses_setProperty (k : UInt16) : Refuses (setProperty k) :=
  (looks_peek 1).before fun target => (looks_readHeap _).before fun _ => by
    split
    · exact (looks_constantHandle k).before fun _ => (looks_readHeap _).before fun _ =>
        (looks_peek 0).before fun _ =>
          Quiet.refuses (.bind (quiet_changeHeap _) fun _ => quiet_dropTwo _)
    · exact (looks_raiseNotAnInstance target).refuses

/-- A superclass that is no class leaves both values on the stack. -/
theorem refuses_inherit : Refuses inherit :=
  (looks_peek 1).before fun _ => (looks_readHeap _).before fun kind => by
    split
    · exact (looks_peek 0).before fun _ => (looks_handleOf _).before fun _ =>
        (looks_handleOf _).before fun _ =>
          Quiet.refuses (.bind (quiet_changeHeap _) fun _ => quiet_drop)
    · exact ((looks_readHeap _).bind fun _ => looks_raise _).refuses

/-- No error stops the definition of a method. -/
theorem refuses_addMethod (k : UInt16) : Refuses (addMethod k) :=
  (looks_constantHandle k).before fun _ => (looks_readHeap _).before fun _ =>
    (looks_peek 0).before fun _ => (looks_peek 1).before fun _ => (looks_handleOf _).before
    fun _ => Quiet.refuses (.bind (quiet_changeHeap _) fun _ => quiet_drop)

/-! ### Actions that no error stops -/

/-- A value that is no object is a fault where an object has to be. -/
theorem quiet_handleOf (v : Value) : Quiet (handleOf v) := by
  unfold handleOf
  split
  · exact quiet_pure _
  · exact quiet_fault _

/-- A constant that names nothing is a fault. -/
theorem quiet_constantHandle (k : UInt16) : Quiet (constantHandle k) :=
  .bind (.bind quiet_frame fun f => by
    split
    · exact quiet_pure _
    · exact quiet_fault _) fun _ => quiet_handleOf _

/-- A closure without the upvalue its code names is a fault. -/
theorem quiet_frameUpvalue (index : Nat) : Quiet (frameUpvalue index) :=
  .bind quiet_frame fun _ => .bind (quiet_readHeap _) fun _ => by
    split
    · exact quiet_pure _
    · exact quiet_fault _

/-- No error stops the capture of a slot: a full heap is a fault. -/
theorem quiet_captureSlot (slot : Nat) : Quiet (captureSlot slot) :=
  .bind (quiet_look _) fun _ => .bind (quiet_readHeap _) fun _ => .bind (quiet_readHeap _)
    fun found => by
      split
      · exact quiet_pure _
      · exact .bind (quiet_changeHeapRooted _) fun _ => .bind (quiet_modify _) fun _ => quiet_pure _

/-- No error stops the captures of a closure, by induction on how many are left. -/
theorem quiet_captures (count : Nat) (done : Array Handle) : Quiet (captures count done) := by
  induction count generalizing done with
  | zero => exact quiet_pure done
  | succ count ih =>
    refine .bind quiet_fetch fun word => ?_
    dsimp only
    split
    · exact .bind quiet_frame fun _ => .bind (quiet_captureSlot _) fun _ => ih _
    · exact .bind (quiet_frameUpvalue _) fun _ => ih _

/-- No error stops the making of a closure. -/
theorem quiet_makeClosure (k : UInt16) : Quiet (makeClosure k) :=
  .bind (quiet_constantHandle k) fun _ => .bind (quiet_readHeap _) fun _ =>
    .bind (quiet_captures _ _) fun _ => .bind (quiet_changeHeapRooted _) fun _ => quiet_push _

/-- No error stops the closing of upvalues, by induction on them. -/
theorem quiet_closeEach (rs : List Handle) : Quiet (closeEach rs) := by
  induction rs with
  | nil => exact quiet_pure ()
  | cons r rest ih =>
    exact .bind (quiet_readHeap _) fun _ => .bind (quiet_readSlot _) fun _ =>
      .bind (quiet_changeHeap _) fun _ => ih

/-- No error stops the closing of the upvalues above a slot. -/
theorem quiet_closeUpvalues (boundary : Nat) : Quiet (closeUpvalues boundary) :=
  .bind (quiet_look _) fun _ => .bind (quiet_readHeap _) fun _ => .bind (quiet_closeEach _)
    fun _ => quiet_modify _

/-- No error stops the writing of a captured variable, open or closed. -/
theorem quiet_writeUpvalue (r : Handle) (v : Value) : Quiet (writeUpvalue r v) :=
  .bind (quiet_readHeap _) fun u => by
    split
    · exact quiet_writeSlot _ _
    · exact quiet_changeHeap _

/-- No error stops a jump forward. -/
theorem quiet_skip (distance : Nat) : Quiet (skip distance) :=
  .bind quiet_frame fun _ => quiet_modify _

/-- No error stops a jump backward: one out of the code is a fault. -/
theorem quiet_goBack (distance : Nat) : Quiet (goBack distance) :=
  .bind quiet_frame fun f => by
    dsimp only
    split
    · exact .bind (quiet_fault _) fun _ => quiet_modify _
    · exact quiet_modify _

/-- No error stops a return, neither the closing of captures nor the last one of a script. -/
theorem quiet_return : Quiet return_ :=
  .bind quiet_pop fun _ => .bind quiet_frame fun f => .bind (quiet_modify _) fun _ =>
    .bind (quiet_closeUpvalues f.base) fun _ => .bind (quiet_modify _) fun _ =>
    .bind (quiet_look _) fun last => by
      split
      · exact quiet_pure _
      · exact .bind (quiet_push _) fun _ => quiet_pure _

end Exec

end ScriptMachine
