import ScriptMachine.Proofs.Machine.Retaining
import ScriptMachine.Proofs.Scoping.Heights
import ScriptMachine.Proofs.Session.Closures

/-!
# Calls and class declarations

An instruction on values leaves every function where it is, so the step that carries it out leads
to the instruction behind it. A jump moves the innermost function alone.

A call leaves the active functions as they are, or adds the function of a closure: the new frame has
the code of the closure, is at the start of it, and has its callee and as many arguments as the
function asks for on top of the stack.

The three instructions that make a class, give it the methods of another one and add a method to
it are described each with all that it changes. Only the table of the class on top of the stack, or
below the method, is not what it was.
-/

namespace ScriptMachine

namespace Exec

variable {α β : Type} {m m' : Machine}

/-- An action that leaves the active functions as they are when it succeeds. -/
class Stays (x : Exec α) : Prop where
  ok {m : Machine} {a : α} {m' : Machine} : x m = .ok a m' → m'.frames = m.frames

instance stays_of_steady (x : Exec α) [hx : Steady x] : Stays x := ⟨fun hdone => (hx.ok hdone).frames⟩

/-- Actions that leave the active functions do so one after the other. -/
theorem Stays.bind {x : Exec α} {f : α → Exec β} (hx : Stays x) (hf : ∀ a, Stays (f a)) :
    Stays (x >>= f) where
  ok hdone := by
    obtain ⟨a, m₁, hfirst, hrest⟩ := exists_of_bind_ok hdone
    exact ((hf a).ok hrest).trans (hx.ok hfirst)

instance stays_bind (x : Exec α) (f : α → Exec β) [hx : Stays x] [hf : ∀ a, Stays (f a)] :
    Stays (x >>= f) := hx.bind hf

instance stays_push (v : Value) : Stays (push v) where
  ok hdone := by
    obtain ⟨-, rfl⟩ := EStateM.Result.ok.inj hdone
    rfl

instance stays_pop : Stays pop where
  ok hdone := by
    obtain ⟨rfl, -⟩ := pop_eq_ok hdone
    rfl

instance stays_drop : Stays drop := stays_pop.bind fun _ => inferInstance

instance stays_writeSlot (j : Nat) (v : Value) : Stays (writeSlot j v) where
  ok hdone := by
    obtain ⟨rfl, -⟩ := writeSlot_eq_ok hdone
    rfl

instance stays_writeUpvalue (r : Handle) (v : Value) : Stays (writeUpvalue r v) :=
  (stays_of_steady _).bind fun u => by split <;> infer_instance

/-! ### Instructions on values -/

instance stays_bindMethod (class_ name : Handle) : Stays (bindMethod class_ name) :=
  (stays_of_steady _).bind fun method => by split <;> infer_instance

instance stays_popNumbers (operator : Symbol) : Stays (popNumbers operator) :=
  (stays_of_steady _).bind fun b => (stays_of_steady _).bind fun a => by split <;> infer_instance

instance stays_arithmetic (operator : Symbol) (f : Float → Float → Value) :
    Stays (arithmetic operator f) := (stays_popNumbers operator).bind fun _ => stays_push _

instance stays_add : Stays add :=
  (stays_of_steady _).bind fun b => (stays_of_steady _).bind fun a => by
    split
    · infer_instance
    · exact (stays_of_steady _).bind fun x => (stays_of_steady _).bind fun y => by
        split <;> infer_instance

instance stays_negate : Stays negate :=
  (stays_of_steady _).bind fun v => by split <;> infer_instance

instance stays_equal : Stays equal := stays_pop.bind fun _ => stays_pop.bind fun _ => stays_push _

instance stays_getGlobal (k : UInt16) : Stays (getGlobal k) :=
  (stays_of_steady _).bind fun name => (stays_of_steady _).bind fun key =>
    (stays_of_steady _).bind fun v => by split <;> infer_instance

instance stays_defineGlobal (k : UInt16) : Stays (defineGlobal k) := by
  dsimp only [defineGlobal]
  infer_instance

instance stays_getProperty (k : UInt16) : Stays (getProperty k) := by
  refine (stays_of_steady _).bind fun receiver => (stays_of_steady _).bind fun found => ?_
  split
  · infer_instance
  · exact (stays_of_steady _).bind fun name => (stays_of_steady _).bind fun key => by
      split <;> infer_instance

instance stays_setProperty (k : UInt16) : Stays (setProperty k) :=
  (stays_of_steady _).bind fun target => (stays_of_steady _).bind fun found => by
    split <;> infer_instance

instance stays_print : Stays print := by
  dsimp only [print]
  infer_instance

instance stays_inherit : Stays inherit :=
  (stays_of_steady _).bind fun superclass => (stays_of_steady _).bind fun kind => by
    split <;> infer_instance

instance stays_addMethod (k : UInt16) : Stays (addMethod k) := by
  dsimp only [addMethod]
  infer_instance

/-- An instruction on values leaves the active functions as they are. -/
theorem stays_perform {i : Instr} (hstraight : i.isStraight = true) (hcall : i.arguments? = none) :
    Stays (perform i) := by
  cases i with
  | call | invoke | superInvoke => cases hcall
  | jump | jumpIfFalse | loop | return_ | closure => cases hstraight
  | _ => dsimp only [perform]; infer_instance

end Exec

namespace Machine

/-- `m'` has the functions of `m` active, and perhaps one that was called. -/
inductive Entering (m m' : Machine) : Prop
  | stays (frames : m'.frames = m.frames)
  | enters {y : Handle} {c : Closure} {f : Prototype} {base : Nat}
      (closure : m'.heap.object? y = some (.closure c))
      (function : m'.heap.object? c.function = some (.function f))
      (frames : m'.frames = m.frames.push ⟨y, f.chunk, 0, base⟩)
      (size : m'.stack.size = base + f.arity.toNat + 1)

/-- Whatever leaves the active functions as they are may come before a call. -/
theorem Entering.after {m m₁ m' : Machine} (h : m₁.Entering m') (hframes : m₁.frames = m.frames) :
    m.Entering m' := by
  cases h with
  | stays frames => exact .stays (frames.trans hframes)
  | enters closure function frames size =>
    exact .enters closure function (by rw [frames, hframes]) size

end Machine

namespace Exec

variable {α : Type} {m m' : Machine} {y : Handle} {count : UInt8}

/-- A call of a closure that succeeds adds its frame. -/
theorem callClosure_eq_ok (hdone : callClosure y count m = .ok () m') : ∃ c f,
    m.heap.object? y = some (.closure c) ∧ m.heap.object? c.function = some (.function f) ∧
      f.arity = count ∧ count.toNat < m.stack.size ∧ m' = { m with
        frames := m.frames.push ⟨y, f.chunk, 0, m.stack.size - 1 - count.toNat⟩ } := by
  obtain ⟨c, m₁, hclosure, hrest⟩ := exists_of_bind_ok hdone
  obtain ⟨rfl, hc⟩ := readHeap_eq_ok hclosure
  obtain ⟨f, m₂, hfunction, hbody⟩ := exists_of_bind_ok hrest
  obtain ⟨rfl, hf⟩ := readHeap_eq_ok hfunction
  have henter (hdone : (do
      let full ← look fun m =>
        m.framesMax ≤ m.frames.size || m.framesMax * Machine.stackPerFrame ≤ m.stack.size
      if full then raise .stackOverflow
      let base ← slotAt count.toNat
      modify fun m => { m with frames := m.frames.push ⟨y, f.chunk, 0, base⟩ } : Exec Unit) m₂ =
        .ok () m') : count.toNat < m₂.stack.size ∧ m' = { m₂ with
        frames := m₂.frames.push ⟨y, f.chunk, 0, m₂.stack.size - 1 - count.toNat⟩ } := by
    obtain ⟨full, m₃, hlook, hrest⟩ := exists_of_bind_ok hdone
    obtain ⟨rfl, rfl⟩ := EStateM.Result.ok.inj hlook
    split at hrest
    · obtain ⟨_, m₄, hraise, -⟩ := exists_of_bind_ok hrest
      cases hraise
    · obtain ⟨base, m₄, hslot, hrest⟩ := exists_of_bind_ok hrest
      unfold slotAt at hslot
      split at hslot
      · next hlt =>
        obtain ⟨rfl, rfl⟩ := EStateM.Result.ok.inj hslot
        obtain ⟨-, rfl⟩ := EStateM.Result.ok.inj hrest
        exact ⟨hlt, rfl⟩
      · cases hslot
  dsimp only at hbody
  split at hbody
  · obtain ⟨_, m₃, hraise, -⟩ := exists_of_bind_ok hbody
    cases hraise
  · next harity =>
    obtain ⟨hlt, rfl⟩ := henter hbody
    exact ⟨c, f, Heap.object?_of_closure hc, Heap.object?_of_prototype hf, (not_not.mp harity).symm,
      hlt, rfl⟩

/-- An action that may end with a call of a function. -/
class Enters (x : Exec Unit) : Prop where
  ok {m m' : Machine} : x m = .ok () m' → m.Entering m'

instance enters_of_stays (x : Exec Unit) [hx : Stays x] : Enters x := ⟨fun hdone => .stays (hx.ok hdone)⟩

/-- A call may come behind what leaves the active functions. -/
theorem Enters.after {x : Exec α} {f : α → Exec Unit} (hx : Stays x) (hf : ∀ a, Enters (f a)) :
    Enters (x >>= f) where
  ok hdone := by
    obtain ⟨a, m₁, hfirst, hrest⟩ := exists_of_bind_ok hdone
    exact ((hf a).ok hrest).after (hx.ok hfirst)

instance enters_callClosure (y : Handle) (count : UInt8) : Enters (callClosure y count) where
  ok hdone := by
    obtain ⟨c, f, hclosure, hfunction, rfl, hlt, rfl⟩ := callClosure_eq_ok hdone
    exact .enters hclosure hfunction rfl (by simp; omega)

instance stays_cutStack (n : Nat) : Stays (cutStack n) where
  ok hdone := by
    obtain ⟨-, rfl⟩ := EStateM.Result.ok.inj hdone
    rfl

instance enters_callNative (native : Handle) (count : UInt8) : Enters (callNative native count) := by
  have hanswer (n : Native) : Stays (do
      let callee ← slotAt count.toNat
      let args ← look fun m => (m.stack.extract (callee + 1) m.stack.size).toList
      let result ← runNative n args
      cutStack callee
      push result) :=
    (stays_of_steady _).bind fun callee => (stays_of_steady _).bind fun args =>
      (stays_of_steady _).bind fun result => inferInstance
  refine .after (stays_of_steady _) fun n => ?_
  dsimp only
  split
  · split
    · exact .after (stays_of_steady _) fun _ => @enters_of_stays _ (hanswer n)
    · exact @enters_of_stays _ (hanswer n)
  · exact @enters_of_stays _ (hanswer n)

instance enters_invokeFromClass (class_ name : Handle) (count : UInt8) :
    Enters (invokeFromClass class_ name count) :=
  .after (stays_of_steady _) fun method => by
    split
    · exact .after (stays_of_steady _) fun _ => enters_callClosure _ _
    · infer_instance

instance enters_callClass (class_ : Handle) (count : UInt8) : Enters (callClass class_ count) :=
  .after (stays_of_steady _) fun r => .after (stays_of_steady _) fun callee =>
    .after (stays_writeSlot _ _) fun _ => .after (stays_of_steady _) fun init =>
    .after (stays_of_steady _) fun method => by
      split
      · exact .after (stays_of_steady _) fun _ => enters_callClosure _ _
      · split <;> infer_instance

instance enters_callValue (callee : Value) (count : UInt8) : Enters (callValue callee count) := by
  dsimp only [callValue]
  split
  · infer_instance
  · refine .after (stays_of_steady _) fun o => ?_
    split
    · infer_instance
    · infer_instance
    · infer_instance
    · exact .after (stays_of_steady _) fun slot => .after (stays_writeSlot _ _) fun _ =>
        enters_callClosure _ _
    all_goals infer_instance

instance enters_invoke (name : Handle) (count : UInt8) : Enters (invoke name count) := by
  refine .after (stays_of_steady _) fun receiver => .after (stays_of_steady _) fun found => ?_
  split
  · infer_instance
  · refine .after (stays_of_steady _) fun key => ?_
    split
    · exact .after (stays_of_steady _) fun slot => .after (stays_writeSlot _ _) fun _ =>
        enters_callValue _ _
    · infer_instance

/-- A call enters a function at most. -/
theorem enters_perform {i : Instr} (hcall : i.arguments?.isSome) : Enters (perform i) := by
  cases i with
  | call count => exact .after (stays_of_steady _) fun callee => enters_callValue _ _
  | invoke k count => exact .after (stays_of_steady _) fun name => enters_invoke _ _
  | superInvoke k count =>
    exact .after (stays_of_steady _) fun name => .after stays_pop fun v =>
      .after (stays_of_steady _) fun superclass => enters_invokeFromClass _ _ _
  | _ => cases hcall

end Exec

/-! ### Class declarations -/

namespace Heap

/-- A class may become any class. -/
theorem becomes_class (c c' : ClassObject) : (Object.class_ c).Becomes (.class_ c') :=
  Object.becomes_of_not_fixed rfl (by simp)

end Heap

namespace Machine

/-- `m'` is `m` with other methods of the class `r`, and with the top of the stack taken off. -/
structure Reshaped (m : Machine) (r : Handle) (c : ClassObject) (methods : Table) (m' : Machine) :
    Prop where
  before : m.heap.object? r = some (.class_ c)
  objects : ∀ x, m'.heap.object? x =
    if x = r then some (.class_ { c with methods := methods }) else m.heap.object? x
  rest : ∃ h, m' = { m with heap := h, stack := m.stack.pop }

variable {m m' : Machine} {r x : Handle} {c : ClassObject} {methods : Table}

/-- A class that is replaced is one with other methods. -/
theorem Reshaped.of_replace {before after : Nat} (hc : m.heap.object? r = some (.class_ c))
    (heq : m' = { m with
      heap := (m.heap.replace r (.class_ { c with methods := methods })).chargeGrowth before after
      stack := m.stack.pop }) : m.Reshaped r c methods m' where
  before := hc
  objects x := by
    rw [heq]
    exact Heap.object?_replace _ hc x
  rest := ⟨_, heq⟩

/-- Everything lasts where a class is reshaped. -/
theorem Reshaped.lasts (h : m.Reshaped r c methods m') (z : Handle) :
    m.heap.Lasts m'.heap z := by
  intro y o _ ho
  rw [h.objects]
  split
  · next heq =>
    subst heq
    obtain rfl := Option.some.inj (h.before.symm.trans ho)
    exact ⟨_, rfl, Heap.becomes_class _ _⟩
  · exact ⟨o, ho, .refl o⟩

/-- Only the class that is reshaped is not what it was. -/
theorem Reshaped.retains (h : m.Reshaped r c methods m') : m.Retains [r] m' where
  heap :=
    { object := fun x o hx _ hnew => by
        rw [List.mem_singleton] at hnew
        rwa [h.objects, if_neg hnew] at hx
      stored := fun _ _ z _ _ _ _ => h.lasts z }
  initName := by
    obtain ⟨h', rfl⟩ := h.rest
    rfl

end Machine

namespace Exec

variable {m m' : Machine} {h : Heap} {r : Handle}

/-- A change of the heap that succeeds changes nothing else. -/
theorem changeHeap_eq_ok {α : Type} {f : Heap → Except Fault (α × Heap)} {b : α}
    (hdone : changeHeap f m = .ok b m') : ∃ h, f m.heap = .ok (b, h) ∧ m' = { m with heap := h } := by
  unfold changeHeap at hdone
  dsimp only at hdone
  split at hdone
  · next hok =>
    obtain ⟨rfl, rfl⟩ := EStateM.Result.ok.inj hdone
    exact ⟨_, hok, rfl⟩
  · cases hdone

/-- Taking the value on top of the stack off. -/
theorem drop_eq_ok (hdone : drop m = .ok () m') : m' = { m with stack := m.stack.pop } := by
  obtain ⟨v, m₁, hpop, hpure⟩ := exists_of_bind_ok hdone
  obtain ⟨-, rfl⟩ := EStateM.Result.ok.inj hpure
  exact (pop_eq_ok hpop).1

/-- Inheriting gives the class on top of the stack the methods of the class below it. -/
theorem inherit_eq_ok (hdone : inherit m = .ok () m') : ∃ v w x r s c,
    m.stack[m.stack.size - 1 - 1]? = some v ∧ v.toHandle? = some x ∧
      m.stack[m.stack.size - 1 - 0]? = some w ∧ w.toHandle? = some r ∧
      m.heap.object? x = some (.class_ s) ∧
      m.Reshaped r c (c.methods.insertAll s.methods) m' := by
  obtain ⟨v, m₁, hpeek, hkinds⟩ := exists_of_bind_ok hdone
  obtain ⟨rfl, hv⟩ := peek_eq_ok hpeek
  obtain ⟨kind, m₂, hkind, hbody⟩ := exists_of_bind_ok hkinds
  obtain ⟨rfl, -⟩ := readHeap_eq_ok hkind
  split at hbody
  · obtain ⟨w, m₃, hpeek, hsub⟩ := exists_of_bind_ok hbody
    obtain ⟨rfl, hw⟩ := peek_eq_ok hpeek
    obtain ⟨r, m₄, hhandle, hsuper⟩ := exists_of_bind_ok hsub
    obtain ⟨rfl, hr⟩ := handleOf_eq_ok hhandle
    obtain ⟨x, m₅, hhandle, hchanges⟩ := exists_of_bind_ok hsuper
    obtain ⟨rfl, hx⟩ := handleOf_eq_ok hhandle
    obtain ⟨_, m₆, hchange, hdrop⟩ := exists_of_bind_ok hchanges
    obtain ⟨h, hinherit, rfl⟩ := changeHeap_eq_ok hchange
    obtain ⟨h', hinherited, hpure⟩ := exists_of_bind_eq_ok hinherit
    obtain ⟨-, rfl⟩ := Prod.mk.inj (Except.ok.inj hpure)
    obtain rfl := drop_eq_ok hdrop
    obtain ⟨s, c, hs, hc, rfl⟩ := Heap.exists_of_inherit hinherited
    exact ⟨v, w, x, r, s, c, hv, hx, hw, hr, hs, .of_replace hc rfl⟩
  · obtain ⟨found, m₃, -, hraise⟩ := exists_of_bind_ok hbody
    cases hraise

/-- Adding a method gives the class below the top of the stack the closure there under a name. -/
theorem addMethod_eq_ok {k : UInt16} (hdone : addMethod k m = .ok () m') : ∃ name key v w r c,
    constantHandle k m = .ok name m ∧ m.heap.key name = .ok key ∧
      m.stack[m.stack.size - 1 - 0]? = some v ∧ m.stack[m.stack.size - 1 - 1]? = some w ∧
      w.toHandle? = some r ∧ m.Reshaped r c (c.methods.insert key v).2 m' := by
  obtain ⟨name, m₁, hname, hkeys⟩ := exists_of_bind_ok hdone
  obtain rfl := constantHandle_eq_ok hname
  obtain ⟨key, m₂, hread, hpeeks⟩ := exists_of_bind_ok hkeys
  obtain ⟨rfl, hkey⟩ := readHeap_eq_ok hread
  obtain ⟨v, m₃, hpeek, hclasses⟩ := exists_of_bind_ok hpeeks
  obtain ⟨rfl, hv⟩ := peek_eq_ok hpeek
  obtain ⟨w, m₄, hpeek, hhandles⟩ := exists_of_bind_ok hclasses
  obtain ⟨rfl, hw⟩ := peek_eq_ok hpeek
  obtain ⟨r, m₅, hhandle, hchanges⟩ := exists_of_bind_ok hhandles
  obtain ⟨rfl, hr⟩ := handleOf_eq_ok hhandle
  obtain ⟨_, m₆, hchange, hdrop⟩ := exists_of_bind_ok hchanges
  obtain ⟨h, hset, rfl⟩ := changeHeap_eq_ok hchange
  obtain ⟨h', hadded, hpure⟩ := exists_of_bind_eq_ok hset
  obtain ⟨-, rfl⟩ := Prod.mk.inj (Except.ok.inj hpure)
  obtain rfl := drop_eq_ok hdrop
  obtain ⟨c, hc, rfl⟩ := Heap.exists_of_setMethod hadded
  exact ⟨name, key, v, w, r, c, hname, hkey, hv, hw, hr, .of_replace hc rfl⟩

end Exec

namespace Machine

variable {m m' : Machine} {W : World} {a : Activation} {rest : List Activation}
  {below : List Slot} {A : Shape} {k : UInt16}

/-- `m'` is `m` after a step that made the class `r`, which has no methods yet, and put it on the
stack. -/
structure Classed (m m' : Machine) (r : Handle) : Prop where
  retains : m.Retains [r] m'
  object : ∃ name, m'.heap.object? r = some (.class_ ⟨name, Table.empty⟩)
  fresh : ∀ x, m.Keeps x → x ≠ r
  objects : ∀ x, m.Keeps x → m'.heap.object? x = m.heap.object? x
  rest : ∃ f h, m.frames.back? = some f ∧
    m' = { m.fetched f h with stack := m.stack.push (.ofHandle r) }

/-- A step at the instruction makes the class. -/
theorem Shows.classed (hm : m.Shows W ⟨below ++ A.slots, A.known, a :: rest⟩)
    (hlands : a.layout.Lands none a.frame.ip A) (hi : m.next? = some (.class_ k))
    (hstep : Exec.step m = .ok .running m') : ∃ r, m.Classed m' r := by
  obtain ⟨f, h, hback, halike, hcarried⟩ := Exec.perform_of_step hi (by simp) hstep
  obtain rfl : a.frame = f := Option.some.inj ((hm.back_frames rfl).symm.trans hback)
  have hfetched := hm.fetched halike
  have hpreserves := fetched_preserves hback halike
  obtain ⟨name, m₁, hconstant, hallocates⟩ := Exec.exists_of_bind_ok hcarried
  obtain ⟨r, m₂, hmade, hpush⟩ := Exec.exists_of_bind_ok hallocates
  obtain ⟨-, rfl⟩ := EStateM.Result.ok.inj hpush
  obtain ⟨i, E, hword, hfits, hlaid⟩ := Exec.exists_step (hm.runs a List.mem_cons_self) hlands
  obtain rfl : i = .class_ k := Option.some.inj ((hm.next?_eq hword).symm.trans hi)
  cases hlaid with
  | effect effect =>
    cases effect with
    | plain plain => cases plain
    | class_ names =>
      obtain ⟨rfl, htype, -⟩ := (Exec.does_constantHandle hfetched names).of_ok hconstant
      have hadds := Exec.alloc_adds ⟨hfetched.toTyped, hfetched.lists⟩
        (.class_ (c := ⟨name, Table.empty⟩) htype World.tableOk_empty) (by simp) hmade
      obtain ⟨h', rfl⟩ := hadds.rest
      exact ⟨r, ⟨(hpreserves.retains.trans hadds.retains).heap, rfl⟩, ⟨name, hadds.object⟩,
        fun x hx => hadds.fresh x (hpreserves.keeps x hx),
        fun x hx => (hadds.objects x (hpreserves.keeps x hx)).trans (hpreserves.objects x hx),
        a.frame, h', hback, rfl⟩

end Machine

end ScriptMachine
