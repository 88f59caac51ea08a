import ScriptMachine.Proofs.Heap.Lasting
import ScriptMachine.Proofs.Session.Errors

/-!
# What running retains

Only four instructions make or change a closure or a class: the one that makes a closure, and those
that make a class, inherit methods and add one. Whatever else the machine does upholds them, whether
it succeeds or an error stops it, and opens no upvalue. `Calm` says so of actions that allocate
nothing, and `Mild` of actions that allocate once; only the start of a mild action has to be clear of
marks.
-/

namespace ScriptMachine

namespace Heap

variable {h h' : Heap}

/-- A heap with the same slots is as well kept. -/
theorem Arena.congr (ha : h.Arena) (halike : h.Alike h') : h'.Arena := by
  refine ⟨halike.slots ▸ ha.size, halike.free ▸ ha.nodup, fun r => ?_⟩
  rw [halike.free, halike.slots, halike.object?]
  exact ha.free r

/-- A heap with the same marks has none either. -/
theorem Unmarked.congr (hc : h.Unmarked) (halike : h.Alike h') : h'.Unmarked where
  marks := by rw [halike.marks, halike.slots]; exact hc.marks
  gray := by rw [halike.gray]; exact hc.gray

end Heap

namespace Machine

/-- `m'` has the closures and the classes of `m` but for `new`, and the same name of
initializers. -/
structure Retains (new : List Handle) (m m' : Machine) : Prop where
  heap : m.heap.Retains new m'.heap
  initName : m'.initName = m.initName

/-- What is retained twice is retained. -/
theorem Retains.trans {new new' : List Handle} {m m₁ m' : Machine} (h : Retains new m m₁)
    (h' : Retains new' m₁ m') : Retains (new ++ new') m m' :=
  ⟨h.heap.trans h'.heap, h'.initName.trans h.initName⟩

/-- No upvalue is open that was not before. -/
structure Upholds (m m' : Machine) : Prop extends Retains [] m m' where
  listed : ∀ r ∈ m'.openUpvalues, r ∈ m.openUpvalues

/-- The heap may be ready for an allocation also afterwards. -/
structure Calmed (m m' : Machine) : Prop extends Upholds m m' where
  arena : m.heap.Arena → m'.heap.Arena
  unmarked : m.heap.Unmarked → m'.heap.Unmarked

variable {m m₁ m' : Machine}

/-- Upholding twice is upholding. -/
theorem Upholds.trans (h : Upholds m m₁) (h' : Upholds m₁ m') : Upholds m m' :=
  ⟨h.toRetains.trans h'.toRetains, fun r hr => h.listed r (h'.listed r hr)⟩

/-- Calm steps in sequence are calm. -/
theorem Calmed.trans (h : Calmed m m₁) (h' : Calmed m₁ m') : Calmed m m' :=
  ⟨h.toUpholds.trans h'.toUpholds, fun ha => h'.arena (h.arena ha),
    fun hc => h'.unmarked (h.unmarked hc)⟩

/-- What changes no object is calm. -/
theorem calmed_of_alike (halike : m.heap.Alike m'.heap) (hinit : m'.initName = m.initName)
    (hopen : m'.openUpvalues = m.openUpvalues) : Calmed m m' where
  heap := .of_alike halike
  initName := hinit
  listed _ hr := hopen ▸ hr
  arena ha := ha.congr halike
  unmarked hc := hc.congr halike

/-- What leaves the heap is calm. -/
theorem calmed_of_heap_eq (hheap : m'.heap = m.heap) (hinit : m'.initName = m.initName)
    (hopen : m'.openUpvalues = m.openUpvalues) : Calmed m m' :=
  calmed_of_alike (hheap ▸ .refl _) hinit hopen

/-- What leaves the machine the same is calm. -/
theorem Same.calmed (h : m.Same m') : Calmed m m' := calmed_of_alike h.heap h.initName h.openUpvalues

/-- Replacing an object by one without code is calm. -/
theorem calmed_replace {r : Handle} {o o' : Object} {h' : Heap} (ho : m.heap.object? r = some o)
    (hb : o.Becomes o') (hcode : o'.hasCode = false) (halike : (m.heap.replace r o').Alike h') :
    Calmed m { m with heap := h' } where
  heap := by
    have hreplaced := Heap.retains_replace ho hb
    rw [Object.entry, hcode] at hreplaced
    exact hreplaced.congr halike
  initName := rfl
  listed _ hr := hr
  arena ha := (ha.replace o' ho).congr halike
  unmarked hc := by
    have hreplaced : (m.heap.replace r o').Unmarked :=
      ⟨by rw [Heap.replace, Array.size_setIfInBounds]; exact hc.marks, hc.gray⟩
    exact hreplaced.congr halike

end Machine

namespace Exec

variable {α β : Type} {m m' : Machine}

/-! ### Calm actions -/

/-- An action that allocates nothing and retains the closures and the classes. -/
class Calm (x : Exec α) : Prop where
  ok {m : Machine} {a : α} {m' : Machine} : x m = .ok a m' → m.Calmed m'
  error {m : Machine} {e : RuntimeError} {m' : Machine} : x m = .error (.error e) m' → m.Calmed m'

instance calm_of_looks (x : Exec α) [hx : Looks x] : Calm x where
  ok hdone := (hx.ok hdone).calmed
  error hstop := (hx.error hstop).calmed

/-- Calm actions are calm one after the other. -/
theorem Calm.bind {x : Exec α} {f : α → Exec β} (hx : Calm x) (hf : ∀ a, Calm (f a)) :
    Calm (x >>= f) where
  ok hdone := by
    obtain ⟨a, m₁, hfirst, hrest⟩ := exists_of_bind_ok hdone
    exact (hx.ok hfirst).trans ((hf a).ok hrest)
  error hstop := by
    rcases error_of_bind hstop with hfirst | ⟨a, m₁, hfirst, hrest⟩
    · exact hx.error hfirst
    · exact (hx.ok hfirst).trans ((hf a).error hrest)

instance calm_bind (x : Exec α) (f : α → Exec β) [hx : Calm x] [hf : ∀ a, Calm (f a)] :
    Calm (x >>= f) := hx.bind hf

instance calm_ite (p : Prop) [Decidable p] (x y : Exec α) [hx : Calm x] [hy : Calm y] :
    Calm (if p then x else y) := by
  split
  · exact hx
  · exact hy

/-- An action on the rest of the machine, which no error stops. -/
theorem calm_of_quiet {x : Exec α} (hx : Quiet x)
    (hok : ∀ (m : Machine) a (m' : Machine), x m = .ok a m' →
      m.heap.Alike m'.heap ∧ m'.initName = m.initName ∧ m'.openUpvalues = m.openUpvalues) : Calm x where
  ok hdone :=
    have ⟨halike, hinit, hopen⟩ := hok _ _ _ hdone
    Machine.calmed_of_alike halike hinit hopen
  error hstop := absurd hstop (hx _ _ _)

/-- A change of the rest of the machine. -/
theorem calm_modify {f : Machine → Machine} (hheap : ∀ m : Machine, m.heap.Alike (f m).heap)
    (hinit : ∀ m, (f m).initName = m.initName)
    (hopen : ∀ m, (f m).openUpvalues = m.openUpvalues) : Calm (modify f : Exec Unit) :=
  calm_of_quiet (quiet_modify f) fun m _ _ hdone => by
    obtain ⟨-, rfl⟩ := EStateM.Result.ok.inj hdone
    exact ⟨hheap m, hinit m, hopen m⟩

instance calm_push (v : Value) : Calm (push v) :=
  calm_modify (fun _ => .refl _) (fun _ => rfl) fun _ => rfl

instance calm_pop : Calm pop := calm_of_quiet quiet_pop fun _ _ _ hdone => by
  obtain ⟨rfl, -⟩ := pop_eq_ok hdone
  exact ⟨.refl _, rfl, rfl⟩

instance calm_drop : Calm drop := calm_pop.bind fun _ => inferInstance

instance calm_writeSlot (j : Nat) (v : Value) : Calm (writeSlot j v) :=
  calm_of_quiet (quiet_writeSlot j v) fun _ _ _ hdone => by
    obtain ⟨rfl, -⟩ := writeSlot_eq_ok hdone
    exact ⟨.refl _, rfl, rfl⟩

instance calm_cutStack (n : Nat) : Calm (cutStack n) :=
  calm_modify (fun _ => .refl _) (fun _ => rfl) fun _ => rfl

instance calm_setIp (n : Nat) : Calm (setIp n) :=
  calm_modify (fun _ => .refl _) (fun _ => rfl) fun _ => rfl

instance calm_skip (d : Nat) : Calm (skip d) :=
  (calm_of_looks frame).bind fun _ => calm_setIp _

instance calm_goBack (d : Nat) : Calm (goBack d) :=
  (calm_of_looks frame).bind fun f => by split <;> infer_instance

instance calm_setGlobal (k : Key) (v : Value) : Calm (setGlobal k v) :=
  calm_of_quiet (quiet_setGlobal k v) fun _ _ _ hdone => by
    obtain ⟨-, rfl⟩ := EStateM.Result.ok.inj hdone
    exact ⟨⟨rfl, rfl, rfl, rfl, rfl⟩, rfl, rfl⟩

instance calm_eraseGlobal (k : Key) : Calm (eraseGlobal k) :=
  calm_modify (fun _ => .refl _) (fun _ => rfl) fun _ => rfl

instance calm_printLine (line : String) : Calm (printLine line) where
  ok hdone := by
    unfold printLine at hdone
    dsimp only at hdone
    split at hdone
    · obtain ⟨-, rfl⟩ := EStateM.Result.ok.inj hdone
      exact Machine.calmed_of_heap_eq rfl rfl rfl
    · cases hdone
  error hstop := ((refuses_printLine line).error hstop).calmed

instance calm_setField (r : Handle) (k : Key) (v : Value) :
    Calm (changeHeap fun heap => heap.setField r k v) where
  ok hdone := by
    unfold changeHeap at hdone
    dsimp only at hdone
    split at hdone
    · next hset =>
      obtain ⟨-, rfl⟩ := EStateM.Result.ok.inj hdone
      obtain ⟨i, hi, -, rfl⟩ := Heap.exists_of_setField hset
      exact Machine.calmed_replace hi (Object.becomes_of_not_fixed rfl (by simp)) rfl
        ⟨rfl, rfl, rfl, rfl, rfl⟩
    · cases hdone
  error hstop := absurd hstop (quiet_changeHeap _ _ _ _)

instance calm_closeUpvalue (r : Handle) (v : Value) :
    Calm (changeHeap fun heap => do
      let heap ← heap.setUpvalue r (.closed v)
      return ((), heap)) where
  ok hdone := by
    unfold changeHeap at hdone
    dsimp only at hdone
    split at hdone
    · next hset =>
      obtain ⟨-, rfl⟩ := EStateM.Result.ok.inj hdone
      obtain ⟨h, hclosed, hpure⟩ := exists_of_bind_eq_ok hset
      obtain ⟨-, rfl⟩ := Prod.mk.inj (Except.ok.inj hpure)
      obtain ⟨u, hu, rfl⟩ := Heap.exists_of_setUpvalue hclosed
      exact Machine.calmed_replace hu (Object.becomes_of_not_fixed rfl (by simp)) rfl (.refl _)
    · cases hdone
  error hstop := absurd hstop (quiet_changeHeap _ _ _ _)

instance calm_closeEach (rs : List Handle) : Calm (closeEach rs) := by
  induction rs with
  | nil => exact inferInstanceAs (Calm (pure ()))
  | cons r rest ih =>
    rw [closeEach]
    infer_instance

/-- Closing upvalues leaves those of the list that are not closed. -/
instance calm_closeUpvalues (boundary : Nat) : Calm (closeUpvalues boundary) where
  ok hdone := by
    obtain ⟨listed, m₁, hlook, hsplits⟩ := exists_of_bind_ok hdone
    obtain ⟨rfl, rfl⟩ := EStateM.Result.ok.inj hlook
    obtain ⟨⟨above, below⟩, m₂, hread, hcloses⟩ := exists_of_bind_ok hsplits
    obtain ⟨rfl, hsplit⟩ := readHeap_eq_ok hread
    obtain ⟨_, m₃, hclose, hset⟩ := exists_of_bind_ok hcloses
    obtain ⟨-, rfl⟩ := EStateM.Result.ok.inj hset
    have hclosed := (calm_closeEach above).ok hclose
    have hlist : above.reverse ++ below = m₂.openUpvalues := Heap.splitOpen_append hsplit
    exact
      { heap := hclosed.heap
        initName := hclosed.initName
        listed := fun r hr => hlist ▸ List.mem_append_right _ hr
        arena := hclosed.arena
        unmarked := hclosed.unmarked }
  error hstop := absurd hstop (quiet_closeUpvalues boundary _ _ _)

instance calm_writeUpvalue (r : Handle) (v : Value) : Calm (writeUpvalue r v) :=
  (calm_of_looks _).bind fun u => by split <;> infer_instance

instance calm_callClosure (closure : Handle) (count : UInt8) : Calm (callClosure closure count) := by
  have henter (f : Prototype) : Calm (do
      let full ← look fun m =>
        m.framesMax ≤ m.frames.size || m.framesMax * Machine.stackPerFrame ≤ m.stack.size
      if full then raise .stackOverflow
      let base ← slotAt count.toNat
      modify fun m => { m with frames := m.frames.push ⟨closure, f.chunk, 0, base⟩ }) := by
    have hpush : Calm (do
        let base ← slotAt count.toNat
        modify fun m => { m with frames := m.frames.push ⟨closure, f.chunk, 0, base⟩ }) :=
      (calm_of_looks _).bind fun base =>
        calm_modify (fun _ => .refl _) (fun _ => rfl) fun _ => rfl
    refine (calm_of_looks _).bind fun full => ?_
    dsimp only
    split
    · exact (calm_of_looks _).bind fun _ => hpush
    · exact hpush
  refine (calm_of_looks _).bind fun c => (calm_of_looks _).bind fun f => ?_
  dsimp only
  split
  · exact (calm_of_looks _).bind fun _ => henter f
  · exact henter f

instance calm_invokeFromClass (class_ name : Handle) (count : UInt8) :
    Calm (invokeFromClass class_ name count) :=
  (calm_of_looks _).bind fun method => by split <;> infer_instance

/-! ### Mild actions -/

/-- An action that allocates once at most and upholds the closures and the classes. -/
class Mild (x : Exec α) : Prop where
  ok {m : Machine} {a : α} {m' : Machine} : m.heap.Arena → m.heap.Unmarked → x m = .ok a m' →
    m.Upholds m'
  error {m : Machine} {e : RuntimeError} {m' : Machine} : m.heap.Arena → m.heap.Unmarked →
    x m = .error (.error e) m' → m.Upholds m'

instance mild_of_calm (x : Exec α) [hx : Calm x] : Mild x where
  ok _ _ hdone := (hx.ok hdone).toUpholds
  error _ _ hstop := (hx.error hstop).toUpholds

/-- A calm action may come before a mild one. -/
theorem Mild.after {x : Exec α} {f : α → Exec β} (hx : Calm x) (hf : ∀ a, Mild (f a)) :
    Mild (x >>= f) where
  ok ha hc hdone := by
    obtain ⟨a, m₁, hfirst, hrest⟩ := exists_of_bind_ok hdone
    have h := hx.ok hfirst
    exact h.toUpholds.trans ((hf a).ok (h.arena ha) (h.unmarked hc) hrest)
  error ha hc hstop := by
    rcases error_of_bind hstop with hfirst | ⟨a, m₁, hfirst, hrest⟩
    · exact (hx.error hfirst).toUpholds
    · have h := hx.ok hfirst
      exact h.toUpholds.trans ((hf a).error (h.arena ha) (h.unmarked hc) hrest)

/-- A calm action may come behind a mild one. -/
theorem Mild.before {x : Exec α} {f : α → Exec β} (hx : Mild x) (hf : ∀ a, Calm (f a)) :
    Mild (x >>= f) where
  ok ha hc hdone := by
    obtain ⟨a, m₁, hfirst, hrest⟩ := exists_of_bind_ok hdone
    exact (hx.ok ha hc hfirst).trans ((hf a).ok hrest).toUpholds
  error ha hc hstop := by
    rcases error_of_bind hstop with hfirst | ⟨a, m₁, hfirst, hrest⟩
    · exact hx.error ha hc hfirst
    · exact (hx.ok ha hc hfirst).trans ((hf a).error hrest).toUpholds

/-- An allocation retains the closures and the classes. -/
theorem retains_alloc {o : Object} {r : Handle} (ha : m.heap.Arena) (hc : m.heap.Unmarked)
    (hdone : alloc o m = .ok r m') : m.Retains (o.entry r) m' := by
  obtain ⟨h', halloc, rfl⟩ := alloc_eq_ok hdone
  exact ⟨Heap.retains_alloc ha hc halloc, rfl⟩

/-- Making an object without code is mild. -/
theorem mild_alloc {o : Object} (hcode : o.hasCode = false) : Mild (alloc o) where
  ok ha hc hdone := by
    have h := retains_alloc ha hc hdone
    rw [Object.entry, hcode] at h
    obtain ⟨h', -, rfl⟩ := alloc_eq_ok hdone
    exact ⟨h, fun _ hr => hr⟩
  error _ _ hstop := absurd hstop (quiet_changeHeapRooted _ _ _ _)

instance mild_intern (chars : String) : Mild (intern chars) where
  ok ha hc hdone := by
    unfold intern changeHeapRooted at hdone
    dsimp only at hdone
    split at hdone
    · next hok =>
      obtain ⟨-, rfl⟩ := EStateM.Result.ok.inj hdone
      exact ⟨⟨Heap.retains_intern ha hc hok, rfl⟩, fun _ hr => hr⟩
    · cases hdone
  error _ _ hstop := absurd hstop (quiet_changeHeapRooted _ _ _ _)

instance mild_runNative (n : Native) (args : List Value) : Mild (runNative n args) := by
  unfold runNative
  split
  · infer_instance
  · exact .after inferInstance fun v => .after inferInstance fun text =>
      (mild_intern text).before inferInstance
  · exact .after inferInstance fun v => .after inferInstance fun found => by
      split <;> infer_instance

instance mild_callNative (native : Handle) (count : UInt8) : Mild (callNative native count) := by
  have hanswer (n : Native) : Mild (do
      let callee ← slotAt count.toNat
      let args ← look fun m => (m.stack.extract (callee + 1) m.stack.size).toList
      let result ← runNative n args
      cutStack callee
      push result) :=
    .after inferInstance fun callee => .after inferInstance fun args =>
      (mild_runNative n args).before inferInstance
  refine .after inferInstance fun n => ?_
  dsimp only
  split
  · split
    · exact .after inferInstance fun _ => hanswer n
    · exact hanswer n
  · exact hanswer n

instance mild_callClass (class_ : Handle) (count : UInt8) : Mild (callClass class_ count) :=
  (mild_alloc rfl).before fun r => (calm_of_looks _).bind fun callee =>
    (calm_writeSlot _ _).bind fun _ => (calm_of_looks _).bind fun init =>
    (calm_of_looks _).bind fun method => by split <;> infer_instance

instance mild_callValue (callee : Value) (count : UInt8) : Mild (callValue callee count) := by
  dsimp only [callValue]
  split
  · infer_instance
  · exact .after inferInstance fun o => by split <;> infer_instance

instance mild_invoke (name : Handle) (count : UInt8) : Mild (invoke name count) := by
  refine .after inferInstance fun receiver => .after inferInstance fun found => ?_
  split
  · infer_instance
  · refine .after inferInstance fun key => ?_
    split
    · exact .after inferInstance fun slot => .after inferInstance fun _ => mild_callValue _ _
    · infer_instance

instance mild_bindMethod (class_ name : Handle) : Mild (bindMethod class_ name) :=
  .after inferInstance fun method => by
    split
    · infer_instance
    · exact .after inferInstance fun receiver => .after inferInstance fun r =>
        (mild_alloc rfl).before fun _ => inferInstance

/-! ### Instructions -/

instance calm_popNumbers (operator : Symbol) : Calm (popNumbers operator) :=
  (calm_of_looks _).bind fun b => (calm_of_looks _).bind fun a => by split <;> infer_instance

instance calm_arithmetic (operator : Symbol) (f : Float → Float → Value) :
    Calm (arithmetic operator f) := by
  dsimp only [arithmetic]
  infer_instance

instance mild_add : Mild add :=
  .after inferInstance fun b => .after inferInstance fun a => by
    split
    · infer_instance
    · exact .after inferInstance fun x => .after inferInstance fun y => by
        split
        · exact (mild_intern _).before inferInstance
        · infer_instance

instance calm_negate : Calm negate :=
  (calm_of_looks _).bind fun v => by split <;> infer_instance

instance calm_equal : Calm equal := by
  dsimp only [equal]
  infer_instance

instance calm_getGlobal (k : UInt16) : Calm (getGlobal k) :=
  (calm_of_looks _).bind fun name => (calm_of_looks _).bind fun key =>
    (calm_of_looks _).bind fun v => by split <;> infer_instance

instance calm_defineGlobal (k : UInt16) : Calm (defineGlobal k) := by
  dsimp only [defineGlobal]
  infer_instance

instance calm_assignGlobal (k : UInt16) : Calm (assignGlobal k) := by
  dsimp only [assignGlobal]
  infer_instance

instance mild_getProperty (k : UInt16) : Mild (getProperty k) := by
  refine .after inferInstance fun receiver => .after inferInstance fun found => ?_
  split
  · infer_instance
  · exact .after inferInstance fun name => .after inferInstance fun key => by
      split <;> infer_instance

instance calm_setProperty (k : UInt16) : Calm (setProperty k) :=
  (calm_of_looks _).bind fun target => (calm_of_looks _).bind fun found => by
    split <;> infer_instance

instance calm_print : Calm print := by
  dsimp only [print]
  infer_instance

instance calm_return : Calm return_ := by
  have hleave : Calm (modify fun m => { m with frames := m.frames.pop }) :=
    calm_modify (fun _ => .refl _) (fun _ => rfl) fun _ => rfl
  dsimp only [return_]
  exact calm_pop.bind fun result => (calm_of_looks _).bind fun f => hleave.bind fun _ =>
    (calm_closeUpvalues _).bind fun _ => (calm_cutStack _).bind fun _ =>
    (calm_of_looks _).bind fun last => by split <;> infer_instance

end Exec

/-- Whether an instruction makes or changes a closure or a class. -/
def Instr.shapesCode : Instr → Bool
  | .closure _ | .class_ _ | .inherit | .method _ => true
  | _ => false

namespace Exec

/-- Whatever makes or changes no closure and no class retains them. -/
theorem mild_perform {i : Instr} (hi : i.shapesCode = false) : Mild (perform i) := by
  cases i with
  | closure | class_ | inherit | method => cases hi
  | superInvoke k count =>
    exact .after inferInstance fun name => .after inferInstance fun v =>
      .after inferInstance fun superclass => mild_of_calm _
  | getSuper k =>
    exact .after inferInstance fun name => .after inferInstance fun v =>
      .after inferInstance fun superclass => mild_bindMethod _ _
  | call count => exact .after inferInstance fun callee => mild_callValue _ _
  | invoke k count => exact .after inferInstance fun name => mild_invoke _ _
  | jumpIfFalse d => exact mild_of_calm (do if (← peek 0).isFalsey then skip d.toNat)
  | _ => dsimp only [perform]; infer_instance

end Exec

end ScriptMachine
