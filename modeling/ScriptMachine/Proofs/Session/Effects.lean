import ScriptMachine.Proofs.Session.Captured

/-!
# What a step does to the stack and the frames

An instruction works on the values on top of the stack and leaves its results in their place; the
slots below and the functions that wait stay as they are. `Moves n k` says of an action that it
takes the `n` topmost values and leaves `k`, and it composes like the actions do. Only assigning a
variable reaches below the operands, and only calls and returns change which functions are active.
-/

namespace ScriptMachine

/-- A frame regardless of where its function is. -/
def Frame.rewound (f : Frame) : Frame := { f with ip := 0 }

/-- `m'` has of `m` the slots below `low`, the functions that wait, and the function that runs,
wherever it is by now. -/
structure Machine.Keeping (low : Nat) (m m' : Machine) : Prop where
  outer : m'.frames.pop = m.frames.pop
  inner : m'.frames.back?.map Frame.rewound = m.frames.back?.map Frame.rewound
  limit : m'.framesMax = m.framesMax
  slots : ∀ j < low, m'.stack[j]? = m.stack[j]?

namespace Machine.Keeping

variable {m m₁ m' : Machine} {low : Nat}

/-- What is kept twice is kept. -/
theorem trans (h : Keeping low m m₁) (h' : Keeping low m₁ m') : Keeping low m m' :=
  ⟨h'.outer.trans h.outer, h'.inner.trans h.inner, h'.limit.trans h.limit,
    fun j hj => (h'.slots j hj).trans (h.slots j hj)⟩

/-- Fewer slots are kept too. -/
theorem mono {fewer : Nat} (h : Keeping low m m') (hle : fewer ≤ low) : Keeping fewer m m' :=
  { h with slots := fun j hj => h.slots j (Nat.lt_of_lt_of_le hj hle) }

end Machine.Keeping

/-- `m'` has the stack and the frames of `m`. -/
structure Machine.Untouched (m m' : Machine) : Prop where
  stack : m'.stack = m.stack
  frames : m'.frames = m.frames
  limit : m'.framesMax = m.framesMax

/-- A machine whose stack and frames are untouched keeps every slot. -/
theorem Machine.Untouched.keeping {m m' : Machine} (h : m.Untouched m') (low : Nat) :
    Machine.Keeping low m m' :=
  ⟨by rw [h.frames], by rw [h.frames], h.limit, fun _ _ => by rw [h.stack]⟩

namespace Exec

variable {α β : Type} {m m' : Machine}

/-! ### Actions beside the stack -/

/-- An action that does nothing to the stack and to the frames. -/
class Steady (x : Exec α) : Prop where
  ok {m : Machine} {a : α} {m' : Machine} : x m = .ok a m' → m.Untouched m'

/-- Actions that leave the stack do so one after the other. -/
theorem Steady.bind {x : Exec α} {f : α → Exec β} (hx : Steady x) (hf : ∀ a, Steady (f a)) :
    Steady (x >>= f) where
  ok hdone := by
    obtain ⟨a, m₁, hfirst, hrest⟩ := exists_of_bind_ok hdone
    have h := hx.ok hfirst
    have h' := (hf a).ok hrest
    exact ⟨h'.stack.trans h.stack, h'.frames.trans h.frames, h'.limit.trans h.limit⟩

instance steady_bind (x : Exec α) (f : α → Exec β) [hx : Steady x] [hf : ∀ a, Steady (f a)] :
    Steady (x >>= f) := hx.bind hf

instance steady_pure (a : α) : Steady (pure a : Exec α) where
  ok hdone := by
    cases hdone
    exact ⟨rfl, rfl, rfl⟩

instance steady_look (f : Machine → α) : Steady (look f) where
  ok hdone := by
    cases hdone
    exact ⟨rfl, rfl, rfl⟩

/-- What never succeeds does nothing. -/
theorem steady_of_not_ok {x : Exec α} (hx : ∀ m a m', x m ≠ .ok a m') : Steady x :=
  ⟨fun hdone => absurd hdone (hx _ _ _)⟩

instance steady_raise (e : RuntimeError) : Steady (raise e : Exec α) :=
  steady_of_not_ok fun _ _ _ hdone => by cases hdone

instance steady_fault (f : Fault) : Steady (fault f : Exec α) :=
  steady_of_not_ok fun _ _ _ hdone => by cases hdone

/-- What leaves the machine as it is does nothing. -/
theorem steady_of_same {x : Exec α} (hx : ∀ m a m', x m = .ok a m' → m' = m) : Steady x where
  ok hdone := by
    obtain rfl := hx _ _ _ hdone
    exact ⟨rfl, rfl, rfl⟩

/-- Reading the heap changes nothing. -/
theorem readHeap_eq_ok {f : Heap → Except Fault α} {a : α} (hdone : readHeap f m = .ok a m') :
    m' = m ∧ f m.heap = .ok a := by
  unfold readHeap at hdone
  split at hdone
  · next hread =>
    obtain ⟨rfl, rfl⟩ := EStateM.Result.ok.inj hdone
    exact ⟨rfl, hread⟩
  · cases hdone

instance steady_readHeap (f : Heap → Except Fault α) : Steady (readHeap f) :=
  steady_of_same fun _ _ _ hdone => (readHeap_eq_ok hdone).1

instance steady_changeHeap (f : Heap → Except Fault (α × Heap)) : Steady (changeHeap f) where
  ok hdone := by
    unfold changeHeap at hdone
    dsimp only at hdone
    split at hdone
    · cases hdone
      exact ⟨rfl, rfl, rfl⟩
    · cases hdone

instance steady_changeHeapRooted (f : Heap → (Unit → List Handle) → Except Fault (α × Heap)) :
    Steady (changeHeapRooted f) where
  ok hdone := by
    unfold changeHeapRooted at hdone
    dsimp only at hdone
    split at hdone
    · cases hdone
      exact ⟨rfl, rfl, rfl⟩
    · cases hdone

instance steady_alloc (o : Object) : Steady (alloc o) := steady_changeHeapRooted _

instance steady_intern (chars : String) : Steady (intern chars) := steady_changeHeapRooted _

/-- The value below the top of the stack, which stays there. -/
theorem peek_eq_ok {n : Nat} {v : Value} (hdone : peek n m = .ok v m') :
    m' = m ∧ m.stack[m.stack.size - 1 - n]? = some v := by
  unfold peek at hdone
  split at hdone
  · split at hdone
    · next hget =>
      obtain ⟨rfl, rfl⟩ := EStateM.Result.ok.inj hdone
      exact ⟨rfl, hget⟩
    · cases hdone
  · cases hdone

instance steady_peek (n : Nat) : Steady (peek n) :=
  steady_of_same fun _ _ _ hdone => (peek_eq_ok hdone).1

/-- A slot below the top of the stack. -/
theorem slotAt_eq_ok {n j : Nat} (hdone : slotAt n m = .ok j m') :
    m' = m ∧ j = m.stack.size - 1 - n := by
  unfold slotAt at hdone
  split at hdone
  · obtain ⟨rfl, rfl⟩ := EStateM.Result.ok.inj hdone
    exact ⟨rfl, rfl⟩
  · cases hdone

instance steady_slotAt (n : Nat) : Steady (slotAt n) :=
  steady_of_same fun _ _ _ hdone => (slotAt_eq_ok hdone).1

/-- The value of a slot, which stays there. -/
theorem readSlot_eq_ok {j : Nat} {v : Value} (hdone : readSlot j m = .ok v m') :
    m' = m ∧ m.stack[j]? = some v := by
  unfold readSlot at hdone
  split at hdone
  · next hget =>
    obtain ⟨rfl, rfl⟩ := EStateM.Result.ok.inj hdone
    exact ⟨rfl, hget⟩
  · cases hdone

instance steady_readSlot (j : Nat) : Steady (readSlot j) :=
  steady_of_same fun _ _ _ hdone => (readSlot_eq_ok hdone).1

instance steady_frame : Steady frame := steady_of_same fun _ _ _ hdone => (frame_eq_ok hdone).1

instance steady_constant (k : UInt16) : Steady (constant k) :=
  steady_frame.bind fun f => by split <;> infer_instance

instance steady_handleOf (v : Value) : Steady (handleOf v) := by
  unfold handleOf
  split <;> infer_instance

instance steady_constantHandle (k : UInt16) : Steady (constantHandle k) :=
  (steady_constant k).bind fun v => steady_handleOf v

instance steady_textOf (r : Handle) : Steady (textOf r) :=
  (steady_readHeap _).bind fun _ => steady_pure _

instance steady_raiseMismatch (operator : Symbol) (rule : OperandRule) (found : List Value) :
    Steady (raiseMismatch operator rule found : Exec α) :=
  (steady_readHeap _).bind fun _ => steady_raise _

instance steady_setGlobal (k : Key) (v : Value) : Steady (setGlobal k v) where
  ok hdone := by
    cases hdone
    exact ⟨rfl, rfl, rfl⟩

instance steady_eraseGlobal (k : Key) : Steady (eraseGlobal k) where
  ok hdone := by
    cases hdone
    exact ⟨rfl, rfl, rfl⟩

instance steady_printLine (line : String) : Steady (printLine line) where
  ok hdone := by
    unfold printLine at hdone
    dsimp only at hdone
    split at hdone
    · cases hdone
      exact ⟨rfl, rfl, rfl⟩
    · cases hdone

instance steady_closeEach (rs : List Handle) : Steady (closeEach rs) := by
  induction rs with
  | nil => exact steady_pure ()
  | cons r rest ih =>
    exact (steady_readHeap _).bind fun _ => (steady_readSlot _).bind fun _ =>
      (steady_changeHeap _).bind fun _ => ih

instance steady_closeUpvalues (boundary : Nat) : Steady (closeUpvalues boundary) :=
  (steady_look _).bind fun _ => (steady_readHeap _).bind fun _ => (steady_closeEach _).bind fun _ =>
    ⟨fun hdone => by
      cases hdone
      exact ⟨rfl, rfl, rfl⟩⟩

instance steady_captureSlot (slot : Nat) : Steady (captureSlot slot) :=
  (steady_look _).bind fun _ => (steady_readHeap _).bind fun _ => (steady_readHeap _).bind fun found => by
    split
    · exact steady_pure _
    · exact (steady_alloc _).bind fun r => Steady.bind ⟨fun hdone => by
        cases hdone
        exact ⟨rfl, rfl, rfl⟩⟩ fun _ => steady_pure r

instance steady_frameUpvalue (index : Nat) : Steady (frameUpvalue index) :=
  steady_frame.bind fun _ => (steady_readHeap _).bind fun _ => by split <;> infer_instance

instance steady_readUpvalue (r : Handle) : Steady (readUpvalue r) :=
  (steady_readHeap _).bind fun u => by split <;> infer_instance

instance steady_firstArgument (args : List Value) : Steady (firstArgument args) := by
  unfold firstArgument
  split <;> infer_instance

instance steady_runNative (n : Native) (args : List Value) : Steady (runNative n args) := by
  unfold runNative
  split
  · infer_instance
  · infer_instance
  · exact (steady_firstArgument args).bind fun _ => (steady_readHeap _).bind fun found => by
      split <;> infer_instance

instance steady_findMethod (class_ name : Handle) : Steady (findMethod class_ name) :=
  (steady_readHeap _).bind fun _ => (steady_readHeap _).bind fun _ => steady_pure _

instance steady_raiseNotAnInstance (v : Value) : Steady (raiseNotAnInstance v : Exec α) :=
  (steady_readHeap _).bind fun _ => steady_raise _

instance steady_raiseUndefinedProperty (name : Handle) :
    Steady (raiseUndefinedProperty name : Exec α) :=
  (steady_textOf name).bind fun _ => steady_raise _

/-! ### Actions on the top of the stack -/

/-- An action that takes the `n` topmost values from the stack and leaves `k` in their place. -/
def Moves (n k : Nat) (x : Exec α) : Prop := ∀ m a m', n ≤ m.stack.size → x m = .ok a m' →
  Machine.Keeping (m.stack.size - n) m m' ∧ m'.stack.size = m.stack.size - n + k

/-- The values one action leaves are those the next one takes. -/
theorem Moves.bind {n l k : Nat} {x : Exec α} {f : α → Exec β} (hx : Moves n l x)
    (hf : ∀ a, Moves l k (f a)) : Moves n k (x >>= f) := by
  intro m b m' hn hdone
  obtain ⟨a, m₁, hfirst, hrest⟩ := exists_of_bind_ok hdone
  obtain ⟨hkeeps, hsize⟩ := hx m a m₁ hn hfirst
  obtain ⟨hkeeps', hsize'⟩ := hf a m₁ b m' (by omega) hrest
  rw [hsize, Nat.add_sub_cancel] at hkeeps' hsize'
  exact ⟨hkeeps.trans hkeeps', hsize'⟩

/-- With more values below, these stay. -/
theorem Moves.above {n k : Nat} {x : Exec α} (hx : Moves n k x) (d : Nat) :
    Moves (n + d) (k + d) x := by
  intro m a m' hn hdone
  obtain ⟨hkeeps, hsize⟩ := hx m a m' (by omega) hdone
  exact ⟨hkeeps.mono (by omega), by omega⟩

/-- What leaves the stack takes and leaves any number of values. -/
theorem Steady.moves {x : Exec α} (hx : Steady x) (n : Nat) : Moves n n x := fun m a m' hn hdone =>
  have h := hx.ok hdone
  ⟨h.keeping _, by rw [h.stack]; omega⟩

/-- What never succeeds moves whatever is asked for. -/
theorem moves_of_not_ok {x : Exec α} (n k : Nat) (hx : ∀ m a m', x m ≠ .ok a m') : Moves n k x :=
  fun _ _ _ _ hdone => absurd hdone (hx _ _ _)

/-- Pushing adds a value. -/
theorem moves_push (v : Value) : Moves 0 1 (push v) := by
  intro m a m' _ hdone
  obtain ⟨-, rfl⟩ := EStateM.Result.ok.inj hdone
  refine ⟨⟨rfl, rfl, rfl, fun j hj => ?_⟩, by simp⟩
  rw [Array.getElem?_push_lt hj, Array.getElem?_eq_getElem]

/-- The value on top of the stack, which is taken off. -/
theorem pop_eq_ok {v : Value} (hdone : pop m = .ok v m') :
    m' = { m with stack := m.stack.pop } ∧ m.stack.back? = some v := by
  unfold pop at hdone
  split at hdone
  · next hback =>
    obtain ⟨rfl, rfl⟩ := EStateM.Result.ok.inj hdone
    exact ⟨rfl, hback⟩
  · cases hdone

/-- Popping takes a value. -/
theorem moves_pop : Moves 1 0 pop := by
  intro m v m' _ hdone
  obtain ⟨rfl, -⟩ := pop_eq_ok hdone
  refine ⟨⟨rfl, rfl, rfl, fun j hj => ?_⟩, by simp⟩
  rw [Array.getElem?_pop, if_pos hj]

/-- Dropping takes a value. -/
theorem moves_drop : Moves 1 0 drop := moves_pop.bind fun _ => (steady_pure ()).moves 0

/-- Two values are dropped. -/
theorem moves_dropTwo {x : Exec α} {k : Nat} (hx : Moves 0 k x) :
    Moves 2 k (do drop; drop; x) :=
  (moves_drop.above 1).bind fun _ => moves_drop.bind fun _ => hx

/-- The first value looked at is the last pushed. -/
theorem peek_top {below : Array Value} {b : Value} (h : m.stack = below.push b) :
    peek 0 m = .ok b m := by
  have hsize : m.stack.size = below.size + 1 := by rw [h, Array.size_push]
  have htop : m.stack[m.stack.size - 1 - 0]? = some b := by
    rw [hsize, h]
    exact Array.getElem?_push_size
  rw [peek, if_pos (by omega), htop]

/-- The second value looked at is the one below it. -/
theorem peek_second {below : Array Value} {a b : Value} (h : m.stack = (below.push a).push b) :
    peek 1 m = .ok a m := by
  have hsize : m.stack.size = below.size + 1 + 1 := by rw [h, Array.size_push, Array.size_push]
  have hsecond : m.stack[m.stack.size - 1 - 1]? = some a := by
    rw [hsize, h, Array.getElem?_push, if_neg (by rw [Array.size_push]; omega)]
    exact Array.getElem?_push_size
  rw [peek, if_pos (by omega), hsecond]

/-- Popping takes the last value pushed. -/
theorem pop_top {below : Array Value} {b : Value} (h : m.stack = below.push b) :
    pop m = .ok b { m with stack := below } := by
  rw [pop, h]
  simp

/-- Dropping takes the last value pushed. -/
theorem drop_top {below : Array Value} {b : Value} (h : m.stack = below.push b) :
    drop m = .ok () { m with stack := below } := by
  rw [drop, bind_eq (pop_top h)]
  rfl

/-- Writing a slot changes no other one. -/
theorem writeSlot_eq_ok {j : Nat} {v : Value} (hdone : writeSlot j v m = .ok () m') :
    m' = { m with stack := m.stack.setIfInBounds j v } ∧ j < m.stack.size := by
  unfold writeSlot at hdone
  split at hdone
  · next hlt =>
    obtain ⟨-, rfl⟩ := EStateM.Result.ok.inj hdone
    exact ⟨rfl, hlt⟩
  · cases hdone

/-- Where a slot from a boundary on is written, those below it are kept. -/
theorem keeping_writeSlot {j low : Nat} {v : Value} (hdone : writeSlot j v m = .ok () m')
    (hle : low ≤ j) : Machine.Keeping low m m' := by
  obtain ⟨rfl, -⟩ := writeSlot_eq_ok hdone
  refine ⟨rfl, rfl, rfl, fun i hi => ?_⟩
  rw [Array.getElem?_setIfInBounds_ne (by omega)]

/-! ### Offsets -/

/-- A change of the last element is gone with that element. -/
theorem pop_modify_last {γ : Type} (xs : Array γ) (f : γ → γ) :
    (xs.modify (xs.size - 1) f).pop = xs.pop := by
  refine Array.ext_getElem? fun i => ?_
  rw [Array.getElem?_pop, Array.getElem?_pop, Array.size_modify]
  split
  · next hi => rw [Array.getElem?_modify, if_neg (by omega)]
  · rfl

/-- A change of the last element is seen at the back. -/
theorem back?_modify_last {γ : Type} (xs : Array γ) (f : γ → γ) :
    (xs.modify (xs.size - 1) f).back? = xs.back?.map f := by
  rw [Array.back?, Array.back?, Array.size_modify, Array.getElem?_modify, if_pos rfl]

/-- Going to another offset keeps everything else. -/
theorem moves_setIp (ip n : Nat) : Moves n n (setIp ip) := by
  intro m a m' hn hdone
  obtain ⟨-, rfl⟩ := EStateM.Result.ok.inj hdone
  refine ⟨⟨pop_modify_last _ _, ?_, rfl, fun _ _ => rfl⟩, (Nat.sub_add_cancel hn).symm⟩
  rw [back?_modify_last, Option.map_map]
  rfl

/-- Fetching a word leaves the stack. -/
theorem moves_fetch (n : Nat) : Moves n n fetch :=
  (steady_frame.moves n).bind fun f => by
    split
    · exact (moves_setIp _ n).bind fun _ => (steady_pure _).moves n
    · exact (steady_fault _).moves n

/-- A jump forward leaves the stack. -/
theorem moves_skip (d n : Nat) : Moves n n (skip d) := by
  refine (steady_frame.moves n).bind fun f => ?_
  exact moves_setIp (f.ip + d) n

/-- A jump backward leaves the stack. -/
theorem moves_goBack (d n : Nat) : Moves n n (goBack d) :=
  (steady_frame.moves n).bind fun f => by
    split
    · exact ((steady_fault _).moves n).bind fun _ => moves_setIp (f.ip - d) n
    · exact moves_setIp (f.ip - d) n

/-- The captures of a closure leave the stack, by induction on how many are left. -/
theorem moves_captures (count n : Nat) (done : Array Handle) : Moves n n (captures count done) := by
  induction count generalizing done with
  | zero => exact (steady_pure done).moves n
  | succ count ih =>
    refine (moves_fetch n).bind fun word => ?_
    dsimp only
    split
    · exact (steady_frame.moves n).bind fun _ => ((steady_captureSlot _).moves n).bind fun _ => ih _
    · exact ((steady_frameUpvalue _).moves n).bind fun _ => ih _

/-- A closure is pushed. -/
theorem moves_makeClosure (k : UInt16) : Moves 0 1 (makeClosure k) :=
  ((steady_constantHandle k).moves 0).bind fun _ => ((steady_readHeap _).moves 0).bind fun _ =>
    (moves_captures _ 0 _).bind fun _ => ((steady_alloc _).moves 0).bind fun _ => moves_push _

/-! ### Instructions on values -/

/-- A bound method takes the place of its object. -/
theorem moves_bindMethod (class_ name : Handle) : Moves 1 1 (bindMethod class_ name) :=
  ((steady_findMethod class_ name).moves 1).bind fun method => by
    split
    · exact (steady_raiseUndefinedProperty name).moves 1
    · exact ((steady_peek 0).moves 1).bind fun _ => ((steady_handleOf _).moves 1).bind fun _ =>
        ((steady_alloc _).moves 1).bind fun _ => moves_drop.bind fun _ => moves_push _

/-- Two numbers are taken. -/
theorem moves_popNumbers (operator : Symbol) : Moves 2 0 (popNumbers operator) :=
  ((steady_peek 0).moves 2).bind fun _ => ((steady_peek 1).moves 2).bind fun _ => by
    split
    · exact moves_dropTwo ((steady_pure _).moves 0)
    · exact moves_of_not_ok 2 0 fun m a m' hdone => by
        obtain ⟨types, m₁, -, hrest⟩ := exists_of_bind_ok hdone
        cases hrest

/-- Arithmetic takes two numbers and leaves one value. -/
theorem moves_arithmetic (operator : Symbol) (f : Float → Float → Value) :
    Moves 2 1 (arithmetic operator f) :=
  (moves_popNumbers operator).bind fun _ => moves_push _

/-- An error over operands leaves no machine to go on with. -/
theorem moves_raiseMismatch (operator : Symbol) (rule : OperandRule) (found : List Value)
    (n k : Nat) : Moves n k (raiseMismatch operator rule found : Exec α) :=
  moves_of_not_ok n k fun m a m' hdone => by
    obtain ⟨types, m₁, -, hrest⟩ := exists_of_bind_ok hdone
    cases hrest

/-- An error over a value without properties leaves no machine to go on with. -/
theorem moves_raiseNotAnInstance (v : Value) (n k : Nat) :
    Moves n k (raiseNotAnInstance v : Exec α) :=
  moves_of_not_ok n k fun m a m' hdone => by
    obtain ⟨found, m₁, -, hrest⟩ := exists_of_bind_ok hdone
    cases hrest

/-- Addition takes two values and leaves one, of numbers as of strings. -/
theorem moves_add : Moves 2 1 add :=
  ((steady_peek 0).moves 2).bind fun _ => ((steady_peek 1).moves 2).bind fun _ => by
    split
    · exact moves_dropTwo (moves_push _)
    · refine ((steady_readHeap _).moves 2).bind fun _ => ((steady_readHeap _).moves 2).bind fun _ => ?_
      split
      · exact ((steady_intern _).moves 2).bind fun _ => moves_dropTwo (moves_push _)
      · exact moves_raiseMismatch _ _ _ 2 1

/-- A negated number takes the place of the number. -/
theorem moves_negate : Moves 1 1 negate :=
  ((steady_peek 0).moves 1).bind fun _ => by
    split
    · exact moves_drop.bind fun _ => moves_push _
    · exact moves_raiseMismatch _ _ _ 1 1

/-- A comparison takes two values and leaves one. -/
theorem moves_equal : Moves 2 1 equal :=
  (moves_pop.above 1).bind fun _ => moves_pop.bind fun _ => moves_push _

/-- The value of a global variable is pushed. -/
theorem moves_getGlobal (k : UInt16) : Moves 0 1 (getGlobal k) :=
  ((steady_constantHandle k).moves 0).bind fun name => ((steady_readHeap _).moves 0).bind fun _ =>
    ((steady_look _).moves 0).bind fun _ => by
      split
      · exact moves_push _
      · exact moves_of_not_ok 0 1 fun m a m' hdone => by
          obtain ⟨text, m₁, -, hrest⟩ := exists_of_bind_ok hdone
          cases hrest

/-- The value a global variable is defined with is taken. -/
theorem moves_defineGlobal (k : UInt16) : Moves 1 0 (defineGlobal k) :=
  ((steady_constantHandle k).moves 1).bind fun _ => ((steady_readHeap _).moves 1).bind fun _ =>
    ((steady_peek 0).moves 1).bind fun _ => ((steady_setGlobal _ _).moves 1).bind fun _ => moves_drop

instance steady_assignGlobal (k : UInt16) : Steady (assignGlobal k) :=
  (steady_constantHandle k).bind fun _ => (steady_readHeap _).bind fun _ =>
    (steady_peek 0).bind fun _ => (steady_setGlobal _ _).bind fun _ => by
      split
      · exact (steady_eraseGlobal _).bind fun _ => (steady_textOf _).bind fun _ => steady_raise _
      · exact steady_pure _

/-- A field or a bound method takes the place of its object. -/
theorem moves_getProperty (k : UInt16) : Moves 1 1 (getProperty k) :=
  ((steady_peek 0).moves 1).bind fun _ => ((steady_readHeap _).moves 1).bind fun found => by
    split
    · exact moves_raiseNotAnInstance _ 1 1
    · refine ((steady_constantHandle k).moves 1).bind fun _ =>
        ((steady_readHeap _).moves 1).bind fun _ => ?_
      split
      · exact moves_drop.bind fun _ => moves_push _
      · exact moves_bindMethod _ _

/-- An assignment to a field takes its object and leaves its value. -/
theorem moves_setProperty (k : UInt16) : Moves 2 1 (setProperty k) :=
  ((steady_peek 1).moves 2).bind fun _ => ((steady_readHeap _).moves 2).bind fun _ => by
    split
    · exact ((steady_constantHandle k).moves 2).bind fun _ => ((steady_readHeap _).moves 2).bind
        fun _ => ((steady_peek 0).moves 2).bind fun _ => ((steady_changeHeap _).moves 2).bind
        fun _ => moves_dropTwo (moves_push _)
    · exact moves_raiseNotAnInstance _ 2 1

/-- The value printed is taken. -/
theorem moves_print : Moves 1 0 print :=
  moves_pop.bind fun _ => ((steady_readHeap _).moves 0).bind fun _ => (steady_printLine _).moves 0

/-- A class is taken and its superclass left. -/
theorem moves_inherit : Moves 2 1 inherit :=
  ((steady_peek 1).moves 2).bind fun _ => ((steady_readHeap _).moves 2).bind fun kind => by
    split
    · exact ((steady_peek 0).moves 2).bind fun _ => ((steady_handleOf _).moves 2).bind fun _ =>
        ((steady_handleOf _).moves 2).bind fun _ => ((steady_changeHeap _).moves 2).bind
        fun _ => moves_drop.above 1
    · exact moves_of_not_ok 2 1 fun m a m' hdone => by
        obtain ⟨found, m₁, -, hrest⟩ := exists_of_bind_ok hdone
        cases hrest

/-- A method is taken and its class left. -/
theorem moves_addMethod (k : UInt16) : Moves 2 1 (addMethod k) :=
  ((steady_constantHandle k).moves 2).bind fun _ => ((steady_readHeap _).moves 2).bind fun _ =>
    ((steady_peek 0).moves 2).bind fun _ => ((steady_peek 1).moves 2).bind fun _ =>
    ((steady_handleOf _).moves 2).bind fun _ => ((steady_changeHeap _).moves 2).bind
    fun _ => moves_drop.above 1

/-! ### Calls -/

end Exec

/-- How a callee in the slot `callee` answers without a frame: a native function gives a value for
the arguments above the slot, and a class without an initializer a new instance. -/
inductive Machine.Answer (callee : Nat) (v : Value) : Prop
  | native (n : Native) (before after : Machine)
      (runs : Exec.runNative n (before.stack.extract (callee + 1) before.stack.size).toList before =
        .ok v after) : Answer callee v
  | instance_ (class_ r : Handle) (before after : Machine)
      (made : Exec.alloc (.instance_ ⟨class_, Table.empty⟩) before = .ok r after)
      (value : v = .ofHandle r) : Answer callee v

/-- What a call does whose callee is in the slot `callee`: the callee gets a frame whose slots begin
there, or it has answered and its answer is in that slot, on top of the stack. -/
inductive Machine.Called (callee : Nat) (m m' : Machine) : Prop
  | entered (f : Frame) (base : f.base = callee) (start : f.ip = 0)
      (room : m.frames.size < m.framesMax ∧ callee < m.framesMax * Machine.stackPerFrame)
      (frames : m'.frames = m.frames.push f) (limit : m'.framesMax = m.framesMax)
      (slots : ∀ j < callee, m'.stack[j]? = m.stack[j]?)
  | answered (v : Value) (answer : Answer callee v) (frames : m'.frames = m.frames)
      (limit : m'.framesMax = m.framesMax) (size : m'.stack.size = callee + 1)
      (result : m'.stack[callee]? = some v) (slots : ∀ j < callee, m'.stack[j]? = m.stack[j]?)

/-- A call from where the machine has the same frames and the slots below the callee. -/
theorem Machine.Called.after {m m₁ m' : Machine} {callee : Nat} (h : Called callee m₁ m')
    (frames : m₁.frames = m.frames) (limit : m₁.framesMax = m.framesMax)
    (slots : ∀ j < callee, m₁.stack[j]? = m.stack[j]?) : Called callee m m' := by
  cases h with
  | entered f base start room frames' limit' slots' =>
    rw [frames, limit] at room
    exact .entered f base start room (frames'.trans (by rw [frames])) (limit'.trans limit)
      fun j hj => (slots' j hj).trans (slots j hj)
  | answered v answer frames' limit' size result slots' =>
    exact .answered v answer (frames'.trans frames) (limit'.trans limit) size result
      fun j hj => (slots' j hj).trans (slots j hj)

namespace Exec

variable {α β : Type} {m m' : Machine}

/-- An action that, if it succeeds, makes a call with `count` arguments. -/
def Calling (count : UInt8) (x : Exec Unit) : Prop := ∀ m m', count.toNat < m.stack.size →
  x m = .ok () m' → Machine.Called (m.stack.size - 1 - count.toNat) m m'

/-- What does nothing to the stack may come before a call. -/
theorem Calling.after {count : UInt8} {x : Exec α} {f : α → Exec Unit} (hx : Steady x)
    (hf : ∀ a, Calling count (f a)) : Calling count (x >>= f) := by
  intro m m' hcount hdone
  obtain ⟨a, m₁, hfirst, hrest⟩ := exists_of_bind_ok hdone
  have h := hx.ok hfirst
  have hcalled := hf a m₁ m' (by rwa [h.stack]) hrest
  rw [h.stack] at hcalled
  exact hcalled.after h.frames h.limit fun j _ => by rw [h.stack]

/-- What does not succeed calls nothing. -/
theorem calling_of_not_ok {count : UInt8} {x : Exec Unit} (hx : ∀ m m', x m ≠ .ok () m') :
    Calling count x := fun _ _ _ hdone => absurd hdone (hx _ _)

/-- The callee's slot may be written before a call. -/
theorem Calling.writeAt {count : UInt8} {v : Value} {x : Exec Unit} (hx : Calling count x) :
    Calling count (do let slot ← slotAt count.toNat; writeSlot slot v; x) := by
  intro m m' hcount hdone
  obtain ⟨slot, m₁, hslot, hrest⟩ := exists_of_bind_ok hdone
  obtain ⟨rfl, rfl⟩ := slotAt_eq_ok hslot
  obtain ⟨_, m₂, hwrite, hrest⟩ := exists_of_bind_ok hrest
  have hkeeps := keeping_writeSlot hwrite (Nat.le_refl _)
  obtain ⟨rfl, -⟩ := writeSlot_eq_ok hwrite
  have hcalled := hx _ m' (by simpa using hcount) hrest
  rw [Array.size_setIfInBounds] at hcalled
  exact hcalled.after rfl rfl hkeeps.slots

/-- The call of a closure enters a frame over its arguments. -/
theorem calling_callClosure (closure : Handle) (count : UInt8) :
    Calling count (callClosure closure count) := by
  refine .after (steady_readHeap _) fun c => .after (steady_readHeap _) fun f => ?_
  have henter : Calling count (do
      let full ← look fun m =>
        m.framesMax ≤ m.frames.size || m.framesMax * Machine.stackPerFrame ≤ m.stack.size
      if full then raise .stackOverflow
      let base ← slotAt count.toNat
      modify fun m => { m with frames := m.frames.push ⟨closure, f.chunk, 0, base⟩ }) := by
    intro m m' hcount hdone
    obtain ⟨full, m₁, hlook, hrest⟩ := exists_of_bind_ok hdone
    obtain ⟨rfl, rfl⟩ := EStateM.Result.ok.inj hlook
    split at hrest
    · obtain ⟨_, m₂, hraise, -⟩ := exists_of_bind_ok hrest
      cases hraise
    · next hroom =>
      obtain ⟨base, m₃, hslot, hrest⟩ := exists_of_bind_ok hrest
      obtain ⟨rfl, rfl⟩ := slotAt_eq_ok hslot
      obtain ⟨-, rfl⟩ := EStateM.Result.ok.inj hrest
      refine .entered _ rfl rfl ?_ rfl rfl fun _ _ => rfl
      simp only [Bool.or_eq_true, decide_eq_true_eq, not_or, Nat.not_le] at hroom
      exact ⟨hroom.1, by omega⟩
  dsimp only
  split
  · exact .after (steady_raise _) fun _ => henter
  · exact henter

/-- The call of a built-in function leaves its result for its arguments. -/
theorem calling_callNative (native : Handle) (count : UInt8) :
    Calling count (callNative native count) := by
  have hanswer (n : Native) : Calling count (do
      let callee ← slotAt count.toNat
      let args ← look fun m => (m.stack.extract (callee + 1) m.stack.size).toList
      let result ← runNative n args
      cutStack callee
      push result) := by
    intro m m' hcount hdone
    obtain ⟨callee, m₁, hslot, hrest⟩ := exists_of_bind_ok hdone
    obtain ⟨rfl, rfl⟩ := slotAt_eq_ok hslot
    obtain ⟨args, m₂, hlook, hrest⟩ := exists_of_bind_ok hrest
    obtain ⟨rfl, rfl⟩ := EStateM.Result.ok.inj hlook
    obtain ⟨result, m₃, hrun, hrest⟩ := exists_of_bind_ok hrest
    have h := (steady_runNative n _).ok hrun
    obtain ⟨_, m₄, hcut, hpush⟩ := exists_of_bind_ok hrest
    obtain ⟨-, rfl⟩ := EStateM.Result.ok.inj hcut
    obtain ⟨-, rfl⟩ := EStateM.Result.ok.inj hpush
    have hsize : (m₃.stack.shrink (m₁.stack.size - 1 - count.toNat)).size =
        m₁.stack.size - 1 - count.toNat := by
      rw [Array.size_shrink, h.stack]
      omega
    refine .answered result (.native n m₁ m₃ hrun) h.frames h.limit (by rw [Array.size_push, hsize])
      (by rw [Array.getElem?_push, if_pos hsize.symm]) fun j hj => ?_
    rw [Array.getElem?_push_lt (by rwa [hsize]), Array.getElem_shrink, ← Array.getElem?_eq_getElem,
      h.stack]
  refine .after (steady_readHeap _) fun n => ?_
  dsimp only
  split
  · split
    · exact .after (steady_raise _) fun _ => hanswer n
    · exact hanswer n
  · exact hanswer n

/-- What a call of a class does with a new instance: its initializer is called if it has one. -/
def initialize_ (class_ : Handle) (count : UInt8) : Exec Unit := do
  let init ← look Machine.initName
  match ← findMethod class_ init with
  | some method => callClosure (← handleOf method) count
  | none => if count ≠ 0 then raise (.arityMismatch 0 count)

/-- The call of a class puts the new instance in its place and initializes it. -/
theorem callClass_eq (class_ : Handle) (count : UInt8) : callClass class_ count = (do
    let r ← alloc (.instance_ ⟨class_, Table.empty⟩)
    let callee ← slotAt count.toNat
    writeSlot callee (.ofHandle r)
    initialize_ class_ count) := rfl

/-- The call of a class is the call of its initializer, if it has one. -/
theorem calling_callClass (class_ : Handle) (count : UInt8) :
    Calling count (callClass class_ count) := by
  intro m m' hcount hdone
  rw [callClass_eq] at hdone
  obtain ⟨r, m₁, hmade, hrest⟩ := exists_of_bind_ok hdone
  have hsteady := (steady_alloc _).ok hmade
  have hcalling : Calling count (do
      let callee ← slotAt count.toNat
      writeSlot callee (.ofHandle r)
      initialize_ class_ count) := by
    intro m₁ m' hcount hdone
    obtain ⟨slot, m₂, hslot, hrest⟩ := exists_of_bind_ok hdone
    obtain ⟨rfl, rfl⟩ := slotAt_eq_ok hslot
    obtain ⟨_, m₃, hwrite, hfind⟩ := exists_of_bind_ok hrest
    have hkeeps := keeping_writeSlot hwrite (Nat.le_refl _)
    obtain ⟨rfl, hlt⟩ := writeSlot_eq_ok hwrite
    obtain ⟨init, m₄, hlook, hfind⟩ := exists_of_bind_ok hfind
    obtain ⟨-, rfl⟩ := EStateM.Result.ok.inj hlook
    obtain ⟨method, m₅, hmethod, hcall⟩ := exists_of_bind_ok hfind
    have hfound := (steady_findMethod _ _).ok hmethod
    have hsame (j : Nat) : m₅.stack[j]? =
        (m₂.stack.setIfInBounds (m₂.stack.size - 1 - count.toNat) (.ofHandle r))[j]? := by
      rw [hfound.stack]
    have hsize : m₅.stack.size = m₂.stack.size := by rw [hfound.stack, Array.size_setIfInBounds]
    cases method with
    | some method =>
      have hcalled := Calling.after (steady_handleOf method)
        (fun closure => calling_callClosure closure count) m₅ m' (hsize ▸ hcount) hcall
      rw [hsize] at hcalled
      exact hcalled.after hfound.frames hfound.limit fun j hj =>
        (hsame j).trans (hkeeps.slots j hj)
    | none =>
      dsimp only at hcall
      split at hcall
      · cases hcall
      · next hzero =>
        obtain rfl : count = 0 := not_not.mp hzero
        obtain ⟨-, rfl⟩ := EStateM.Result.ok.inj hcall
        simp only [UInt8.toNat_zero] at hcount hsame hlt hkeeps ⊢
        refine .answered (.ofHandle r) (.instance_ class_ r m m₁ hmade rfl) hfound.frames
          hfound.limit (by omega) ?_ fun j hj => (hsame j).trans (hkeeps.slots j hj)
        rw [hsame, Array.getElem?_setIfInBounds_self_of_lt hlt]
  have hcalled := hcalling m₁ m' (by rwa [hsteady.stack]) hrest
  rw [hsteady.stack] at hcalled
  exact hcalled.after hsteady.frames hsteady.limit fun j _ => by rw [hsteady.stack]

/-- A call is one of a closure, a method, a built-in function or a class, or it fails. -/
theorem calling_callValue (callee : Value) (count : UInt8) :
    Calling count (callValue callee count) := by
  have hnot : Calling count (do
      let found ← readHeap (·.typeName callee)
      raise (.notCallable found)) :=
    .after (steady_readHeap _) fun _ => calling_of_not_ok fun _ _ hdone => by cases hdone
  dsimp only [callValue]
  split
  · exact hnot
  · refine .after (steady_readHeap _) fun o => ?_
    split
    · exact calling_callClosure _ _
    · exact calling_callNative _ _
    · exact calling_callClass _ _
    · exact .writeAt (calling_callClosure _ _)
    all_goals exact hnot

/-- The call of a method found in a class is the call of its closure. -/
theorem calling_invokeFromClass (class_ name : Handle) (count : UInt8) :
    Calling count (invokeFromClass class_ name count) :=
  .after (steady_findMethod _ _) fun method => by
    split
    · exact .after (steady_handleOf _) fun _ => calling_callClosure _ _
    · exact .after (steady_textOf _) fun _ => calling_of_not_ok fun _ _ hdone => by cases hdone

/-- The call of a method is the call of a field of that name or of the method found. -/
theorem calling_invoke (name : Handle) (count : UInt8) : Calling count (invoke name count) := by
  refine .after (steady_peek _) fun receiver => .after (steady_readHeap _) fun found => ?_
  split
  · exact .after (steady_readHeap _) fun _ => calling_of_not_ok fun _ _ hdone => by cases hdone
  · refine .after (steady_readHeap _) fun key => ?_
    split
    · exact .writeAt (calling_callValue _ _)
    · exact calling_invokeFromClass _ _ _

end Exec

end ScriptMachine
