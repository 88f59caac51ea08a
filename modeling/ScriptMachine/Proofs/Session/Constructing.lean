import ScriptMachine.Proofs.Session.Returns
import ScriptMachine.Proofs.Session.Standing

/-!
# Calls of initializers

An initializer returns its receiver, whatever happens in the course of its call: nothing assigns the
slot of its callee, and each of its returns reads it. What a class has under the name of
initializers was compiled as one, be it inherited or not. So a call of a class comes to the instance
that the call has made, and a call of a method of that name to the receiver.
-/

namespace ScriptMachine

open Compile (FunctionKind)

/-- An object that was made is there. -/
theorem Heap.object?_of_alloc {h h' : Heap} {o : Object} {roots : Unit → List Handle} {r : Handle}
    (ha : h.Arena) (hdone : h.alloc o roots = .ok (r, h')) : h'.object? r = some o := by
  have hinsert {h : Heap} (ha : h.Arena) (hdone : h.insert o = .ok (r, h')) :
      h'.object? r = some o := by
    rcases ha.insert o with ⟨x, h₁, hok, hinserted⟩ | hfull
    · obtain ⟨rfl, rfl⟩ := Prod.mk.inj (Except.ok.inj (hok.symm.trans hdone))
      rw [hinserted.object?, if_pos rfl]
    · cases hfull.symm.trans hdone
  unfold alloc at hdone
  split at hdone
  · exact hinsert (ha.collect _) hdone
  · exact hinsert ha hdone

namespace Heap.Alike

variable {h h₁ h' : Heap}

/-- Heaps that are alike twice are alike. -/
theorem trans (ha : h.Alike h₁) (ha' : h₁.Alike h') : h.Alike h' :=
  ⟨ha'.slots.trans ha.slots, ha'.marks.trans ha.marks, ha'.free.trans ha.free,
    ha'.gray.trans ha.gray, ha'.strings.trans ha.strings⟩

/-- A string makes the same key in heaps that are alike. -/
theorem key (ha : h.Alike h') (x : Handle) : h'.key x = h.key x := by
  simp only [Heap.key, Heap.string, Heap.object, ha.object?]

/-- A value is the same instance in heaps that are alike. -/
theorem instance? (ha : h.Alike h') (v : Value) : h'.instance? v = h.instance? v := by
  simp only [Heap.instance?, Heap.object, ha.object?]

end Heap.Alike

/-- A call of a property of an instance calls the field of the name, or else the method. -/
theorem Exec.invoke_of_instance {n m' : Machine} {name x : Handle} {count : UInt8}
    {receiver : Value} {o : InstanceObject} {key : Key}
    (hreceiver : n.stack[n.stack.size - 1 - count.toNat]? = some receiver)
    (hinstance : n.heap.instance? receiver = .ok (some (x, o))) (hkey : n.heap.key name = .ok key)
    (hdone : invoke name count n = .ok () m') :
    (∀ v, o.fields.get? key = some v → callValue v count { n with
      stack := n.stack.setIfInBounds (n.stack.size - 1 - count.toNat) v } = .ok () m') ∧
    (o.fields.get? key = none → invokeFromClass o.class_ name count n = .ok () m') := by
  obtain ⟨w, n₁, hpeek, hfinds⟩ := exists_of_bind_ok hdone
  obtain ⟨rfl, hw⟩ := peek_eq_ok hpeek
  obtain rfl : w = receiver := Option.some.inj (hw.symm.trans hreceiver)
  obtain ⟨found, n₂, hread, hcases⟩ := exists_of_bind_ok hfinds
  obtain ⟨rfl, hfound⟩ := readHeap_eq_ok hread
  obtain rfl : found = some (x, o) := Except.ok.inj (hfound.symm.trans hinstance)
  obtain ⟨key', n₃, hread, hcalls⟩ := exists_of_bind_ok hcases
  obtain ⟨rfl, hkey'⟩ := readHeap_eq_ok hread
  obtain rfl : key' = key := Except.ok.inj (hkey'.symm.trans hkey)
  refine ⟨fun v hv => ?_, fun hnone => ?_⟩
  · rw [hv] at hcalls
    obtain ⟨slot, n₄, hslot, hwrites⟩ := exists_of_bind_ok hcalls
    obtain ⟨rfl, rfl⟩ := slotAt_eq_ok hslot
    obtain ⟨_, n₅, hwrite, hcall⟩ := exists_of_bind_ok hwrites
    obtain ⟨rfl, -⟩ := writeSlot_eq_ok hwrite
    exact hcall
  · rw [hnone] at hcalls
    exact hcalls

namespace Machine

variable {settings : Settings} {journal : Journal} {sink : Sink} {m m₁ m' n : Machine} {W : World}
  {O : Outline} {f : Frame} {h : Heap} {x y r : Handle} {v : Value} {i : Instr} {k : UInt16}
  {count : UInt8} {depth callee : Nat} {text : String}

/-! ### What a call calls -/

/-- The constant `k` of the innermost function is a name, which reads `text`. -/
def Names (m : Machine) (k : UInt16) (text : String) (name : Handle) : Prop :=
  Exec.constantHandle k m = .ok name m ∧
    ∃ s, m.heap.object? name = some (.string s) ∧ s.chars = text

/-- The instruction calls a value, which is on the stack below its arguments or in a field of the
instance there. -/
inductive CallsValue (m : Machine) : Instr → Value → Prop
  | callee {count : UInt8} {v : Value} (there : Exec.peek count.toNat m = .ok v m) :
      CallsValue m (.call count) v
  | field {k : UInt16} {count : UInt8} {receiver v : Value} {x name : Handle} {o : InstanceObject}
      {key : Key} (there : Exec.peek count.toNat m = .ok receiver m)
      (found : m.heap.instance? receiver = .ok (some (x, o)))
      (named : Exec.constantHandle k m = .ok name m) (keyed : m.heap.key name = .ok key)
      (field : o.fields.get? key = some v) : CallsValue m (.invoke k count) v

/-- A value is an instance of the class, without a field of the name. -/
def Misses (m : Machine) (receiver : Value) (name class_ : Handle) : Prop :=
  ∃ x o key, m.heap.instance? receiver = .ok (some (x, o)) ∧ m.heap.key name = .ok key ∧
    o.fields.get? key = none ∧ o.class_ = class_

/-- The instruction calls the method of a name, of the class of the receiver below the arguments or
of the superclass on top of the stack. -/
inductive CallsMethod (m : Machine) (text : String) : Instr → Prop
  | own {k : UInt16} {count : UInt8} {receiver : Value} {name class_ : Handle}
      (there : Exec.peek count.toNat m = .ok receiver m) (names : m.Names k text name)
      (misses : m.Misses receiver name class_) : CallsMethod m text (.invoke k count)
  | super {k : UInt16} {count : UInt8} {name : Handle} (names : m.Names k text name) :
      CallsMethod m text (.superInvoke k count)

/-- The instruction reads the method of a name, and binds it to the receiver. -/
inductive ReadsMethod (m : Machine) (text : String) : Instr → Value → Prop
  | own {k : UInt16} {receiver : Value} {name class_ : Handle}
      (there : Exec.peek 0 m = .ok receiver m) (names : m.Names k text name)
      (misses : m.Misses receiver name class_) : ReadsMethod m text (.getProperty k) receiver
  | super {k : UInt16} {receiver : Value} {name : Handle}
      (there : Exec.peek 1 m = .ok receiver m) (names : m.Names k text name) :
      ReadsMethod m text (.getSuper k) receiver

/-- A step that has led to `m₁` made `r` as a new instance of the class `x`, without fields, and has
changed nothing else on the heap. -/
def Makes (m : Machine) (x r : Handle) (m₁ : Machine) : Prop :=
  ∃ n n', m.heap.Alike n.heap ∧ Exec.alloc (.instance_ ⟨x, Table.empty⟩) n = .ok r n' ∧
    n'.heap = m₁.heap

/-- A name that reads like the one of initializers is that one. -/
theorem Names.initial {name : Handle} (hn : m.Names k "init" name) (hm : m.Shows W O) :
    name = m.initName := by
  obtain ⟨-, s, hs, hchars⟩ := hn
  obtain ⟨o, ho, hdescribes⟩ := hm.fits _ _ hm.init
  cases hdescribes with
  | text => exact hm.sound.interning.unique _ _ _ _ hs ho hchars

/-- The class of an instance on the stack is known. -/
theorem Misses.knows {receiver : Value} {name class_ : Handle} {j : Nat}
    (hmiss : m.Misses receiver name class_) (hm : m.Shows W O)
    (hj : m.stack[j]? = some receiver) : W.Knows class_ := by
  obtain ⟨x, o, -, hfound, -, -, rfl⟩ := hmiss
  have hholds : W.Holds receiver .any := fun x hx =>
    hm.knows hm.lists (mem_roots.mpr (.inl ⟨_, Array.mem_of_getElem? hj, hx⟩))
  rcases hm.fits.instance? hholds with hnone | ⟨x', o', hsome, -, -, hclass, -⟩
  · cases hnone.symm.trans hfound
  · obtain ⟨-, rfl⟩ := Prod.mk.inj (Option.some.inj (Except.ok.inj (hsome.symm.trans hfound)))
    exact ⟨_, hclass⟩

/-- With the next word read, the constants are the same. -/
theorem constantHandle_fetched {name name' : Handle} (hback : m.frames.back? = some f)
    (hname : Exec.constantHandle k m = .ok name m)
    (hname' : Exec.constantHandle k (m.fetched f h) = .ok name' m') : name' = name := by
  obtain ⟨-, g, v, hg, hv, hat⟩ := Exec.constantHandle_found hname
  obtain ⟨-, g', v', hg', hv', hat'⟩ := Exec.constantHandle_found hname'
  obtain rfl : f = g := Option.some.inj (hback.symm.trans hg)
  obtain rfl : { f with ip := f.ip + 1 } = g' := Option.some.inj (Array.back?_push.symm.trans hg')
  obtain rfl : v = v' := Option.some.inj (hv.symm.trans hv')
  exact Option.some.inj (hat'.symm.trans hat)

/-! ### Initializers that are found -/

/-- An initializer whose closure is there in the machine that follows is one there. -/
theorem Initializes.retain {new : List Handle} (hy : m.Initializes y) (hr : m.Retains new m')
    (hclears : m.Clears m') (hnew : y ∉ new)
    (hthere : ∃ c, m'.heap.object? y = some (.closure c)) : m'.Initializes y := by
  obtain ⟨c, B, f, hc, hs, hkind⟩ := hy
  obtain ⟨c', hc'⟩ := hthere
  obtain rfl : c = c' :=
    Object.closure.inj (Option.some.inj (hc.symm.trans (hr.heap.object y _ hc' rfl hnew)))
  exact ⟨c, B, f, hc', hs.carry hclears fun z hz => hr.heap.stored y _ z hc' rfl hnew hz, hkind⟩

/-- What a known class has under the name of initializers is one. -/
theorem Sourced.initializes {class_ : Handle} {found : Value} (hs : m.Sourced) (hm : m.Shows W O)
    (hknown : W.Knows class_) (halike : m.heap.Alike n.heap)
    (hfound : Exec.findMethod class_ m.initName n = .ok (some found) m') :
    ∃ y, found = .ofHandle y ∧ m.Initializes y := by
  obtain ⟨-, key, c, hkey, hobject, hget⟩ := Exec.findMethod_eq_ok hfound
  rw [halike.key] at hkey
  rw [halike.object?] at hobject
  obtain ⟨t, ht⟩ := hknown
  obtain ⟨o, ho, hdescribes⟩ := hm.fits _ _ ht
  obtain rfl : o = .class_ c := Option.some.inj (ho.symm.trans hobject)
  cases hdescribes with
  | class_ _ methods =>
    obtain ⟨k, hmem, hk⟩ :=
      (methods.valid.get?_eq_some_iff (methods.agrees_of_key hm.fits hkey)).mp hget.symm
    exact hs.classes class_ c hobject k found hmem (hk.trans (Heap.string_of_key hkey))

/-! ### How a call starts -/

/-- A call of an initializer on `v` has started: it is answered with `v`, or the initializer has been
entered, with `v` in the slot of the callee. -/
inductive Starts (depth callee : Nat) (v : Value) (m₁ : Machine) : Prop
  | answered (size : m₁.frames.size = depth) (slot : m₁.stack[callee]? = some v)
  | entered {f : Frame} (size : m₁.frames.size = depth + 1) (back : m₁.frames.back? = some f)
      (initializes : m₁.Initializes f.closure) (slot : m₁.stack[callee]? = some v)

/-- A call of a closure that is an initializer. -/
theorem starts_callClosure (hslot : n.stack[callee]? = some v)
    (hy : (∃ c, m₁.heap.object? y = some (.closure c)) → m₁.Initializes y)
    (hdone : Exec.callClosure y count n = .ok () m₁) : Starts n.frames.size callee v m₁ := by
  obtain ⟨c, f, hc, -, -, -, heq⟩ := Exec.callClosure_eq_ok hdone
  have hheap : m₁.heap = n.heap := by rw [heq]
  have hframes : m₁.frames = n.frames.push ⟨y, f.chunk, 0, n.stack.size - 1 - count.toNat⟩ := by
    rw [heq]
  refine .entered (f := ⟨y, f.chunk, 0, n.stack.size - 1 - count.toNat⟩) ?_ ?_
    (hy ⟨c, hheap ▸ hc⟩) ?_
  · rw [hframes, Array.size_push]
  · rw [hframes, Array.back?_push]
  · rw [heq]
    exact hslot

/-- A call of a class makes an instance and starts its initializer on it, or is answered with it. -/
theorem starts_callClass (ha : n.heap.Arena) (hs : m₁.Sourced) (hm₁ : m₁.Ready)
    (hinit : m₁.initName = n.initName) (hcallee : n.stack.size = callee + count.toNat + 1)
    (hdone : Exec.callClass x count n = .ok () m₁) : ∃ r n',
      Exec.alloc (.instance_ ⟨x, Table.empty⟩) n = .ok r n' ∧ n'.heap = m₁.heap ∧
        Starts n.frames.size callee (.ofHandle r) m₁ := by
  obtain ⟨r, n₁, halloc, hplaces⟩ := Exec.exists_of_bind_ok hdone
  obtain ⟨h₁, hok, hn₁⟩ := Exec.alloc_eq_ok halloc
  have hobject : n₁.heap.object? r = some (.instance_ ⟨x, Table.empty⟩) := by
    rw [hn₁]
    exact Heap.object?_of_alloc ha hok
  obtain ⟨slot, n₂, hslot, hwrites⟩ := Exec.exists_of_bind_ok hplaces
  obtain ⟨rfl, hslot⟩ := Exec.slotAt_eq_ok hslot
  obtain rfl : callee = slot := by
    rw [hslot, hn₁]
    show callee = n.stack.size - 1 - count.toNat
    omega
  obtain ⟨_, n₃, hwrite, hlooks⟩ := Exec.exists_of_bind_ok hwrites
  obtain ⟨hn₃, hlt⟩ := Exec.writeSlot_eq_ok hwrite
  have hstack : n₃.stack[callee]? = some (.ofHandle r) := by
    rw [hn₃]
    exact Array.getElem?_setIfInBounds_self_of_lt hlt
  have hframes : n₃.frames.size = n.frames.size := by rw [hn₃, hn₁]
  have hheap : n₃.heap = n₂.heap := by rw [hn₃]
  have hsize : n₃.stack.size = callee + count.toNat + 1 := by
    rw [hn₃, Array.size_setIfInBounds, hn₁, hcallee]
  have hname : n₃.initName = m₁.initName := by rw [hn₃, hn₁, hinit]
  obtain ⟨init, n₄, hlook, hfinds⟩ := Exec.exists_of_bind_ok hlooks
  obtain ⟨hlooked, rfl⟩ := EStateM.Result.ok.inj hlook
  obtain ⟨found, n₅, hfind, hcalls⟩ := Exec.exists_of_bind_ok hfinds
  obtain ⟨rfl, -⟩ := Exec.findMethod_eq_ok hfind
  refine ⟨r, n₂, halloc, ?_⟩
  cases found with
  | none =>
    obtain rfl : n₅ = m₁ := by
      dsimp only at hcalls
      split at hcalls
      · cases hcalls
      · exact (EStateM.Result.ok.inj hcalls).2
    exact ⟨hheap.symm, .answered hframes hstack⟩
  | some found =>
    obtain ⟨y, n₆, hhandle, hcall⟩ := Exec.exists_of_bind_ok hcalls
    obtain ⟨rfl, hy⟩ := Exec.handleOf_eq_ok hhandle
    have hheap₁ : m₁.heap = n₆.heap := by
      obtain ⟨c, f, -, -, -, -, heq⟩ := Exec.callClosure_eq_ok hcall
      rw [heq]
    have hstack₁ : m₁.stack = n₆.stack := by
      obtain ⟨c, f, -, -, -, -, heq⟩ := Exec.callClosure_eq_ok hcall
      rw [heq]
    obtain ⟨W, O, hshows, -⟩ := hm₁
    -- the class is known because the instance is on the stack
    have hknown : W.Knows x := by
      have hroot : r ∈ m₁.roots := mem_roots.mpr
        (.inl ⟨_, Array.mem_of_getElem? (hstack₁ ▸ hstack), Value.toHandle?_ofHandle r⟩)
      obtain ⟨t, ht⟩ := hshows.knows hshows.lists hroot
      obtain ⟨o, ho, hdescribes⟩ := hshows.fits r t ht
      rw [hheap₁, hheap, hobject] at ho
      obtain rfl := Option.some.inj ho
      exact hdescribes.knows .instanceClass
    rw [← hlooked, hname] at hfind
    obtain ⟨z, rfl, hz⟩ := hs.initializes hshows hknown (hheap₁ ▸ .refl _) hfind
    rw [Value.toHandle?_ofHandle, Option.some.injEq] at hy
    subst hy
    exact ⟨(hheap₁.trans hheap).symm, hframes ▸ starts_callClosure hstack (fun _ => hz) hcall⟩

/-- A class that is called makes an instance. -/
theorem callValue_class {c : ClassObject} (hx : v.toHandle? = some x)
    (hc : n.heap.object? x = some (.class_ c)) :
    Exec.callValue v count n = Exec.callClass x count n := by
  have hread : Exec.readHeap (·.object x) n = .ok (.class_ c) n :=
    Exec.readHeap_eq (by rw [Heap.object, hc])
  dsimp only [Exec.callValue]
  rw [hx]
  dsimp only
  rw [Exec.bind_eq hread]

/-- A call of a bound method starts the method on the receiver. -/
theorem starts_callBound {b : BoundMethod} (hx : v.toHandle? = some x)
    (hb : n.heap.object? x = some (.boundMethod b))
    (hy : (∃ c, m₁.heap.object? b.method = some (.closure c)) → m₁.Initializes b.method)
    (hcallee : n.stack.size = callee + count.toNat + 1)
    (hdone : Exec.callValue v count n = .ok () m₁) :
    Starts n.frames.size callee b.receiver m₁ := by
  have hread : Exec.readHeap (·.object x) n = .ok (.boundMethod b) n :=
    Exec.readHeap_eq (by rw [Heap.object, hb])
  dsimp only [Exec.callValue] at hdone
  rw [hx] at hdone
  dsimp only at hdone
  rw [Exec.bind_eq hread] at hdone
  obtain ⟨slot, n₁, hslot, hwrites⟩ := Exec.exists_of_bind_ok hdone
  obtain ⟨rfl, hslot⟩ := Exec.slotAt_eq_ok hslot
  obtain ⟨_, n₂, hwrite, hcall⟩ := Exec.exists_of_bind_ok hwrites
  obtain ⟨hn₂, hlt⟩ := Exec.writeSlot_eq_ok hwrite
  obtain rfl : callee = slot := by omega
  have hframes : n₂.frames.size = n₁.frames.size := by rw [hn₂]
  rw [← hframes]
  refine starts_callClosure ?_ hy hcall
  rw [hn₂]
  exact Array.getElem?_setIfInBounds_self_of_lt hlt

/-- Fetching leaves the count of frames. -/
theorem size_fetched (hback : m.frames.back? = some f) :
    (m.fetched f h).frames.size = m.frames.size := by
  have hsize := congrArg Array.size (Exec.eq_pop_push hback)
  rw [Array.size_push] at hsize
  show (m.frames.pop.push _).size = _
  rw [Array.size_push, ← hsize]

/-- A machine in the midst of a call whose callee is in the slot `callee`, with `count` arguments,
and with nothing of `m` changed but the stack. -/
structure Calling (m : Machine) (callee count : Nat) (n : Machine) : Prop where
  heap : m.heap.Alike n.heap
  initName : n.initName = m.initName
  frames : n.frames.size = m.frames.size
  stack : n.stack.size = callee + count + 1

/-- What the instruction calls is called. -/
theorem CallsValue.calls (hcalls : m.CallsValue i v) (hback : m.frames.back? = some f)
    (halike : m.heap.Alike h) (hsize : i.operands ≤ m.stack.size)
    (hdone : Exec.perform i (m.fetched f h) = .ok () m₁) : ∃ n count,
      m.Calling (m.stack.size - i.operands) (UInt8.toNat count) n ∧
        Exec.callValue v count n = .ok () m₁ := by
  have hstack {count : UInt8} (hle : count.toNat + 1 ≤ m.stack.size) :
      m.stack.size = m.stack.size - (count.toNat + 1) + count.toNat + 1 := by omega
  cases hcalls with
  | @callee count v there =>
    obtain ⟨w, n, hpeek, hcall⟩ := Exec.exists_of_bind_ok hdone
    obtain ⟨rfl, hw⟩ := Exec.peek_eq_ok hpeek
    obtain rfl : w = v := Option.some.inj (hw.symm.trans (Exec.peek_eq_ok there).2)
    exact ⟨m.fetched f h, count, ⟨halike, rfl, size_fetched hback, hstack hsize⟩, hcall⟩
  | @field k count receiver v x name o key there found named keyed field =>
    obtain ⟨name', n, hname, hinvoke⟩ := Exec.exists_of_bind_ok hdone
    obtain rfl := constantHandle_fetched hback named hname
    obtain rfl := Exec.constantHandle_eq_ok hname
    obtain ⟨hcall, -⟩ := Exec.invoke_of_instance (n := m.fetched f h) (Exec.peek_eq_ok there).2
      ((halike.instance? receiver).trans found) ((halike.key name').trans keyed) hinvoke
    refine ⟨_, count, ⟨?_, ?_, ?_, ?_⟩, hcall v field⟩
    · exact halike
    · rfl
    · exact size_fetched (h := h) hback
    · exact Array.size_setIfInBounds.trans (hstack hsize)

/-- The method of initializers that the instruction calls is found in a class and called. -/
theorem CallsMethod.calls (hcalls : m.CallsMethod "init" i) (hm : m.Shows W O)
    (hback : m.frames.back? = some f) (halike : m.heap.Alike h) (hsize : i.operands ≤ m.stack.size)
    (hdone : Exec.perform i (m.fetched f h) = .ok () m₁) : ∃ n count class_, W.Knows class_ ∧
      m.Calling (m.stack.size - i.operands) (UInt8.toNat count) n ∧
        n.stack[m.stack.size - i.operands]? = m.stack[m.stack.size - i.operands]? ∧
        Exec.invokeFromClass class_ m.initName count n = .ok () m₁ := by
  have hroot {v : Value} {x : Handle} {j : Nat} (hv : m.stack[j]? = some v)
      (hx : v.toHandle? = some x) : W.Knows x :=
    hm.knows hm.lists (mem_roots.mpr (.inl ⟨v, Array.mem_of_getElem? hv, hx⟩))
  cases hcalls with
  | @own k count receiver name class_ there names misses =>
    have hstack : m.stack.size = m.stack.size - (count.toNat + 1) + count.toNat + 1 := by
      change count.toNat + 1 ≤ m.stack.size at hsize
      omega
    have hreceiver := (Exec.peek_eq_ok there).2
    have hknown := misses.knows hm hreceiver
    obtain ⟨x, o, key, found, keyed, none, rfl⟩ := misses
    obtain ⟨name', n, hname, hinvoke⟩ := Exec.exists_of_bind_ok hdone
    obtain rfl := constantHandle_fetched hback names.1 hname
    obtain rfl := Exec.constantHandle_eq_ok hname
    obtain ⟨-, hcall⟩ := Exec.invoke_of_instance (n := m.fetched f h) hreceiver
      ((halike.instance? receiver).trans found) ((halike.key name').trans keyed) hinvoke
    exact ⟨m.fetched f h, count, o.class_, hknown, ⟨halike, rfl, size_fetched hback, hstack⟩, rfl,
      names.initial hm ▸ hcall none⟩
  | @super k count name names =>
    obtain ⟨name', n, hname, hpops⟩ := Exec.exists_of_bind_ok hdone
    obtain rfl := constantHandle_fetched hback names.1 hname
    obtain rfl := Exec.constantHandle_eq_ok hname
    obtain ⟨v, n, hpop, hhandles⟩ := Exec.exists_of_bind_ok hpops
    obtain ⟨hn, htop⟩ := Exec.pop_eq_ok hpop
    obtain ⟨class_, n', hhandle, hcall⟩ := Exec.exists_of_bind_ok hhandles
    obtain ⟨rfl, hx⟩ := Exec.handleOf_eq_ok hhandle
    have hcount : count.toNat + 2 ≤ m.stack.size := hsize
    have hstack : n'.stack = m.stack.pop := by rw [hn]; rfl
    refine ⟨n', count, class_, hroot htop hx, ⟨?_, ?_, ?_, ?_⟩, ?_, names.initial hm ▸ hcall⟩
    · rw [hn]
      exact halike
    · rw [hn]
      rfl
    · rw [hn]
      exact size_fetched (h := h) hback
    · rw [hstack, Array.size_pop]
      show _ = m.stack.size - (count.toNat + 2) + count.toNat + 1
      omega
    · rw [hstack, Array.getElem?_pop, if_pos]
      show m.stack.size - (count.toNat + 2) < m.stack.size - 1
      omega

/-- A step at a call carries it out, and keeps all code. -/
theorem Ready.carries_call (hm : m.Ready) (hi : m.next? = some i) (hcall : i.arguments?.isSome)
    (hstep : Exec.step m = .ok .running m₁) : ∃ f h, m.frames.back? = some f ∧ m.heap.Alike h ∧
      i.operands ≤ m.stack.size ∧ m.Retains [] m₁ ∧
        Exec.perform i (m.fetched f h) = .ok () m₁ := by
  have hno : i ≠ .return_ := by
    rintro rfl
    cases hcall
  have hcode : i.shapesCode = false := by cases i <;> first | rfl | cases hcall
  obtain ⟨g, -, hsize, -⟩ := hm.depth hi
  obtain ⟨f, h, hback, halike, hcarried⟩ := Exec.perform_of_step hi hno hstep
  exact ⟨f, h, hback, halike, Nat.le_of_add_left_le hsize, hm.retains_step hi hcode hstep, hcarried⟩

/-- A step at a call of a class makes an instance, on which its initializer is started. -/
theorem Ready.starts_class {c : ClassObject} (hm : m.Ready) (hm₁ : m₁.Ready) (hs₁ : m₁.Sourced)
    (hi : m.next? = some i) (hcall : i.arguments?.isSome) (hcalls : m.CallsValue i v)
    (hx : v.toHandle? = some x) (hc : m.heap.object? x = some (.class_ c))
    (hstep : Exec.step m = .ok .running m₁) : ∃ r, m.Makes x r m₁ ∧
      Starts m.frames.size (m.stack.size - i.operands) (.ofHandle r) m₁ := by
  obtain ⟨f, h, hback, halike, hsize, hr, hcarried⟩ := hm.carries_call hi hcall hstep
  obtain ⟨n, count, hn, hcalled⟩ := hcalls.calls hback halike hsize hcarried
  obtain ⟨W, O, hshows, -⟩ := hm
  rw [callValue_class hx ((hn.heap.object? x).trans hc)] at hcalled
  obtain ⟨r, n', halloc, hheap, hstarts⟩ := starts_callClass (hshows.sound.arena.congr hn.heap) hs₁
    hm₁ (hr.initName.trans hn.initName.symm) hn.stack hcalled
  exact ⟨r, ⟨n, n', hn.heap, halloc, hheap⟩, hn.frames ▸ hstarts⟩

/-- A step at a call of a bound method that is an initializer starts it on the receiver. -/
theorem Ready.starts_bound {b : BoundMethod} (hm : m.Ready) (hi : m.next? = some i)
    (hcall : i.arguments?.isSome) (hcalls : m.CallsValue i v) (hx : v.toHandle? = some x)
    (hb : m.heap.object? x = some (.boundMethod b)) (hy : m.Initializes b.method)
    (hstep : Exec.step m = .ok .running m₁) :
    Starts m.frames.size (m.stack.size - i.operands) b.receiver m₁ := by
  obtain ⟨f, h, hback, halike, hsize, hr, hcarried⟩ := hm.carries_call hi hcall hstep
  obtain ⟨n, count, hn, hcalled⟩ := hcalls.calls hback halike hsize hcarried
  exact hn.frames ▸ starts_callBound hx ((hn.heap.object? x).trans hb)
    (hy.retain hr (hm.clears_step hstep) List.not_mem_nil) hn.stack hcalled

/-- A step at a call of a method of the name of initializers starts it on the receiver. -/
theorem Ready.starts_method (hm : m.Ready) (hs : m.Sourced) (hi : m.next? = some i)
    (hcall : i.arguments?.isSome) (hcalls : m.CallsMethod "init" i)
    (hstep : Exec.step m = .ok .running m₁) :
    ∃ receiver, m.stack[m.stack.size - i.operands]? = some receiver ∧
      Starts m.frames.size (m.stack.size - i.operands) receiver m₁ := by
  obtain ⟨f, h, hback, halike, hsize, hr, hcarried⟩ := hm.carries_call hi hcall hstep
  have hclears := hm.clears_step hstep
  obtain ⟨W, O, hshows, -⟩ := hm
  obtain ⟨n, count, class_, hknown, hn, hslot, hcalled⟩ :=
    hcalls.calls hshows hback halike hsize hcarried
  have hlt : m.stack.size - i.operands < n.stack.size := by
    have := hn.stack
    omega
  have hreceiver := Array.getElem?_eq_getElem hlt
  refine ⟨_, hslot.symm.trans hreceiver, ?_⟩
  obtain ⟨found, n₁, hfind, hfinds⟩ := Exec.exists_of_bind_ok hcalled
  obtain ⟨rfl, -⟩ := Exec.findMethod_eq_ok hfind
  cases found with
  | none =>
    obtain ⟨text, n₂, -, hraise⟩ := Exec.exists_of_bind_ok hfinds
    cases hraise
  | some found =>
    obtain ⟨y, rfl, hy⟩ := hs.initializes hshows hknown hn.heap hfind
    obtain ⟨z, n₂, hhandle, hcall⟩ := Exec.exists_of_bind_ok hfinds
    obtain ⟨rfl, hz⟩ := Exec.handleOf_eq_ok hhandle
    rw [Value.toHandle?_ofHandle, Option.some.injEq] at hz
    subst hz
    exact hn.frames ▸ starts_callClosure hreceiver (hy.retain hr hclears List.not_mem_nil) hcall

/-! ### To the return -/

/-- In the course of the call of an initializer on `v` that was made with `depth` functions active,
and whose callee is in the slot `callee`: the initializer is at a place of its row, below whatever
it calls, and its callee's slot has `v`. -/
def Initializing (depth callee : Nat) (v : Value) (n : Machine) : Prop :=
  ∃ done inner p outer, n.Sits done (inner ++ p :: outer) ∧ inner.length + depth + 1 = n.frames.size ∧
    p.body.kind = .initializer ∧ n.stack[callee]? = some v

/-- Within the call, a step stays in it or is the return of the initializer, with `v` on top of the
stack. -/
theorem Initializing.step {F : Array Frame} (hv : Initializing F.size callee v n) (hn : n.Ready)
    (hm' : m'.Ready) (hs : n.Sourced) (hs' : m'.Sourced) (hinside : Inside F callee n)
    (hstep : Exec.step n = .ok .running m') :
    Initializing F.size callee v m' ∨
      m'.frames.size = F.size ∧ n.stack.back? = some v := by
  obtain ⟨done, inner, p, outer, hsits, hsize, hkind, hslot⟩ := hv
  obtain ⟨f, i, -, hi, -⟩ := Exec.advanced_of_step hn hstep
  have hlt : F.size < n.frames.size := by omega
  obtain ⟨x, hx⟩ : ∃ x, n.frames[F.size]? = some x := ⟨_, Array.getElem?_eq_getElem hlt⟩
  have hbase : x.base = callee := hinside.first x hx
  generalize hparts : inner ++ p :: outer = parts at hsits
  cases hsits with
  | @intro g rest q ps k done works =>
    obtain ⟨-, done', hturned⟩ := works.step hn hm' hs hi hstep
    cases hturned with
    | on size sits callees =>
      exact .inl ⟨done', inner, p, outer, hparts ▸ sits, size ▸ hsize, hkind,
        hbase ▸ (callees x (Array.mem_of_getElem? hx)).trans (hbase ▸ hslot)⟩
    | entered size sits callees =>
      obtain ⟨y, hback⟩ := hm'.exists_back
      obtain ⟨c, hc⟩ := hm'.exists_closure (Array.mem_of_back? hback)
      obtain ⟨B, f, hserves⟩ := hs'.closures y.closure c hc
      obtain ⟨r, -, hosts⟩ := exists_hosts hc hserves
      refine .inl ⟨[], r :: inner, p, outer, ?_, ?_, hkind,
        hbase ▸ (callees x (Array.mem_of_getElem? hx)).trans (hbase ▸ hslot)⟩
      · rw [List.cons_append, hparts]
        exact sits y r f hback hosts
      · rw [List.length_cons, size]
        omega
    | returned size sits callees answers =>
      cases inner with
      | nil =>
        obtain ⟨rfl, rfl⟩ := List.cons.inj hparts
        have hone : n.frames.size = F.size + 1 := by
          rw [List.length_nil] at hsize
          omega
        refine .inr ⟨by omega, (answers hkind x ?_).trans (hbase ▸ hslot)⟩
        rw [Array.back?, hone]
        exact hx
      | cons r inner =>
        obtain ⟨rfl, rfl⟩ := List.cons.inj hparts
        rw [List.length_cons] at hsize
        refine .inl ⟨[], inner, p, outer, sits, by omega, hkind,
          hbase ▸ (callees x ?_).trans (hbase ▸ hslot)⟩
        refine Array.mem_of_getElem? (i := F.size) ?_
        rw [Array.getElem?_pop, if_pos (by omega)]
        exact hx

/-- So does whatever comes next. -/
theorem Initializing.follows {F : Array Frame} (hv : Initializing F.size callee v n)
    (hn : Reached settings journal sink .running n) (hinside : Inside F callee n)
    (next : Follows n m') (hdeep : F.size < m'.frames.size) :
    Initializing F.size callee v m' := by
  have hsame {x : Machine} (hx : Follows n x) (halike : n.heap.Alike x.heap)
      (hinit : x.initName = n.initName) (hframes : x.frames = n.frames)
      (hstack : x.stack = n.stack) : Initializing F.size callee v x := by
    obtain ⟨done, inner, p, outer, hsits, hsize, hkind, hslot⟩ := hv
    exact ⟨done, inner, p, outer, hsits.alike (hn.follows hx).inPhase halike hinit hframes hstack,
      hframes ▸ hsize, hkind, hstack ▸ hslot⟩
  cases next with
  | stepped hstep =>
    have hm' := hn.follows (.stepped hstep)
    rcases hv.step hn.inPhase hm'.inPhase hn.standing.1 hm'.standing.1 hinside hstep with
      hv' | ⟨hsize, -⟩
    · exact hv'
    · omega
  | ticked now => exact hsame (.ticked now) (.refl _) rfl rfl rfl
  | tookOutput => exact hsame .tookOutput (.refl _) rfl rfl rfl
  | tookEvents => exact hsame .tookEvents ⟨rfl, rfl, rfl, rfl, rfl⟩ rfl rfl rfl

/-- A step that starts a call of an initializer is in it from then on. -/
theorem Starts.initializing (h : Starts m.frames.size callee v m₁)
    (hm : Reached settings journal sink .running m) (hi : m.next? = some i)
    (hstep : Exec.step m = .ok .running m₁) (hdeep : m.frames.size < m₁.frames.size) :
    Initializing m.frames.size callee v m₁ := by
  have hm₁ := hm.follows (.stepped hstep)
  cases h with
  | answered size => omega
  | @entered f size back initializes slot =>
    obtain ⟨done, ps, hsits⟩ := hm.standing.2 rfl
    cases hsits with
    | @intro g rest p ps k done works =>
      obtain ⟨-, done', hturned⟩ := works.step hm.inPhase hm₁.inPhase hm.standing.1 hi hstep
      cases hturned with
      | on size' => omega
      | returned size' => omega
      | entered size' sits =>
        obtain ⟨c, B, f', hc, hserves, hkind⟩ := initializes
        obtain ⟨q, rfl, hosts⟩ := exists_hosts hc hserves
        exact ⟨[], [], q, p :: ps, sits f q f' back hosts, by rw [size, List.length_nil]; omega, hkind,
          slot⟩

/-- What the call of an initializer on `v` that a step starts comes to is `v`. -/
theorem Starts.returns (h : Starts m.frames.size (m.stack.size - i.operands) v m₁)
    (hm : Reached settings journal sink .running m) (hi : m.next? = some i)
    (hcall : i.arguments?.isSome) (hstep : Exec.step m = .ok .running m₁)
    (hrun : Within m.frames.size m₁ m') (hreturned : m'.frames.size = m.frames.size) :
    m'.stack[m.stack.size - i.operands]? = some v := by
  obtain ⟨f, i', hback, hi', hadvanced⟩ := Exec.advanced_of_step hm.inPhase hstep
  obtain rfl : i' = i := Option.some.inj (hi'.symm.trans hi)
  have hm₁ := hm.follows (.stepped hstep)
  have hF : (m.frames.pop.push { f with ip := f.ip + 1 }).size = m.frames.size :=
    size_fetched (h := m.heap) hback
  have hin {n : Machine} (hn : Within m.frames.size m₁ n) :=
    (InCall.start hcall hadvanced).within hm₁ (hF ▸ hn)
  -- in the course of the run the initializer is at work
  have hworks {n : Machine} (hn : Within m.frames.size m₁ n) (hdeep : m.frames.size < n.frames.size) :
      Initializing m.frames.size (m.stack.size - i'.operands) v n := by
    induction hn with
    | refl => exact h.initializing hm hi hstep hdeep
    | tail before deep next ih =>
      exact hF ▸ Initializing.follows (hF.symm ▸ ih deep) (hm₁.within before) (hin before).inside next
        (hF.symm ▸ hdeep)
  obtain ⟨-, w, hw, hresult⟩ := (hin hrun).done (hreturned.trans hF.symm)
  rw [hF] at hresult
  rw [hw]
  cases hresult with
  | atOnce same =>
    subst same
    cases h with
    | answered size slot => exact hw.symm.trans slot
    | entered size => omega
  | @later n run one next top step =>
    have hn := hm₁.within run
    have hdeep : m.frames.size < n.frames.size := by omega
    have hv := hworks run hdeep
    have hm' := hn.follows (.stepped step)
    rcases Initializing.step (hF.symm ▸ hv) hn.inPhase hm'.inPhase hn.standing.1 hm'.standing.1
      (hin run).inside step with ⟨-, inner, p, outer, -, hsize, -⟩ | ⟨-, hv⟩
    · omega
    · exact top.symm.trans hv

/-! ### Bound methods -/

/-- Binding a method puts a bound method on the stack in place of the receiver. -/
theorem bindMethod_eq_ok {class_ name : Handle} (ha : n.heap.Arena)
    (hdone : Exec.bindMethod class_ name n = .ok () m₁) : ∃ found y receiver r,
      Exec.findMethod class_ name n = .ok (some found) n ∧ found.toHandle? = some y ∧
        n.stack.back? = some receiver ∧ m₁.stack.back? = some (.ofHandle r) ∧
          m₁.heap.object? r = some (.boundMethod ⟨receiver, y⟩) := by
  obtain ⟨found, n₁, hfind, hbinds⟩ := Exec.exists_of_bind_ok hdone
  obtain ⟨rfl, -⟩ := Exec.findMethod_eq_ok hfind
  cases found with
  | none =>
    obtain ⟨text, n₂, -, hraise⟩ := Exec.exists_of_bind_ok hbinds
    cases hraise
  | some found =>
    obtain ⟨receiver, n₂, hpeek, hhandles⟩ := Exec.exists_of_bind_ok hbinds
    obtain ⟨rfl, hreceiver⟩ := Exec.peek_eq_ok hpeek
    obtain ⟨y, n₃, hhandle, hallocates⟩ := Exec.exists_of_bind_ok hhandles
    obtain ⟨rfl, hy⟩ := Exec.handleOf_eq_ok hhandle
    obtain ⟨r, n₄, halloc, hdrops⟩ := Exec.exists_of_bind_ok hallocates
    obtain ⟨h', hok, hn₄⟩ := Exec.alloc_eq_ok halloc
    obtain ⟨_, n₅, hdrop, hpush⟩ := Exec.exists_of_bind_ok hdrops
    have hn₅ := Exec.drop_eq_ok hdrop
    obtain ⟨-, rfl⟩ := EStateM.Result.ok.inj hpush
    refine ⟨found, y, receiver, r, hfind, hy, hreceiver, Array.back?_push, ?_⟩
    show n₅.heap.object? r = _
    rw [hn₅, hn₄]
    exact Heap.object?_of_alloc ha hok

/-- A step that reads the method of the name of initializers binds an initializer. -/
theorem Ready.reads_initializer {receiver : Value} (hm : m.Ready) (hm₁ : m₁.Ready) (hs : m.Sourced)
    (hi : m.next? = some i) (hreads : m.ReadsMethod "init" i receiver)
    (hstep : Exec.step m = .ok .running m₁) : ∃ r y, m₁.stack.back? = some (.ofHandle r) ∧
      m₁.heap.object? r = some (.boundMethod ⟨receiver, y⟩) ∧ m₁.Initializes y := by
  have hno : i ≠ .return_ := by
    rintro rfl
    cases hreads
  have hcode : i.shapesCode = false := by cases hreads <;> rfl
  have hr := hm.retains_step hi hcode hstep
  have hclears := hm.clears_step hstep
  obtain ⟨f, h, hback, halike, hcarried⟩ := Exec.perform_of_step hi hno hstep
  obtain ⟨W, O, hshows, -⟩ := hm
  -- once the method of a known class is bound to the receiver
  have hbinds {n : Machine} {class_ : Handle} (hknown : W.Knows class_) (hn : m.heap.Alike n.heap)
      (hreceiver : n.stack.back? = some receiver)
      (hdone : Exec.bindMethod class_ m.initName n = .ok () m₁) :
      ∃ r y, m₁.stack.back? = some (.ofHandle r) ∧
        m₁.heap.object? r = some (.boundMethod ⟨receiver, y⟩) ∧ m₁.Initializes y := by
    obtain ⟨found, y, w, r, hfind, hy, hw, htop, hobject⟩ :=
      bindMethod_eq_ok (hshows.sound.arena.congr hn) hdone
    obtain rfl : receiver = w := Option.some.inj (hreceiver.symm.trans hw)
    obtain ⟨z, rfl, hz⟩ := hs.initializes hshows hknown hn hfind
    rw [Value.toHandle?_ofHandle, Option.some.injEq] at hy
    subst hy
    refine ⟨r, z, htop, hobject, hz.retain hr hclears List.not_mem_nil ?_⟩
    obtain ⟨V, O', hshows₁, -⟩ := hm₁
    obtain ⟨t, ht⟩ := hshows₁.knows hshows₁.lists
      (mem_roots.mpr (.inl ⟨_, Array.mem_of_back? htop, Value.toHandle?_ofHandle r⟩))
    obtain ⟨o, ho, hdescribes⟩ := hshows₁.fits r t ht
    obtain rfl := Option.some.inj (ho.symm.trans hobject)
    cases hdescribes with
    | boundMethod _ method =>
      obtain ⟨c, -, -, hc, -⟩ := hshows₁.fits.closure method
      exact ⟨c, hc⟩
  cases hreads with
  | @own k receiver name class_ there names misses =>
    have hreceiver := (Exec.peek_eq_ok there).2
    have hknown := misses.knows hshows hreceiver
    obtain ⟨x, o, key, found, keyed, none, rfl⟩ := misses
    obtain ⟨w, n₁, hpeek, hfinds⟩ := Exec.exists_of_bind_ok hcarried
    obtain ⟨rfl, hw⟩ := Exec.peek_eq_ok hpeek
    obtain rfl : w = receiver := Option.some.inj (hw.symm.trans hreceiver)
    obtain ⟨found', n₂, hread, hcases⟩ := Exec.exists_of_bind_ok hfinds
    obtain ⟨rfl, hfound⟩ := Exec.readHeap_eq_ok hread
    obtain rfl : found' = some (x, o) :=
      Except.ok.inj (hfound.symm.trans ((halike.instance? w).trans found))
    obtain ⟨name', n₃, hname, hkeys⟩ := Exec.exists_of_bind_ok hcases
    obtain rfl := constantHandle_fetched hback names.1 hname
    obtain rfl := Exec.constantHandle_eq_ok hname
    obtain ⟨key', n₄, hread, hbound⟩ := Exec.exists_of_bind_ok hkeys
    obtain ⟨rfl, hkey⟩ := Exec.readHeap_eq_ok hread
    obtain rfl : key' = key := Except.ok.inj (hkey.symm.trans ((halike.key name').trans keyed))
    rw [none] at hbound
    exact hbinds (n := m.fetched f h) hknown halike hreceiver (names.initial hshows ▸ hbound)
  | @super k receiver name there names =>
    have hreceiver := (Exec.peek_eq_ok there).2
    obtain ⟨name', n, hname, hpops⟩ := Exec.exists_of_bind_ok hcarried
    obtain rfl := constantHandle_fetched hback names.1 hname
    obtain rfl := Exec.constantHandle_eq_ok hname
    obtain ⟨v, n, hpop, hhandles⟩ := Exec.exists_of_bind_ok hpops
    obtain ⟨hn, htop⟩ := Exec.pop_eq_ok hpop
    obtain ⟨class_, n', hhandle, hbound⟩ := Exec.exists_of_bind_ok hhandles
    obtain ⟨rfl, hx⟩ := Exec.handleOf_eq_ok hhandle
    have hknown : W.Knows class_ :=
      hshows.knows hshows.lists (mem_roots.mpr (.inl ⟨v, Array.mem_of_back? htop, hx⟩))
    have hbelow : n'.stack.back? = some receiver := by
      rw [hn]
      exact (Exec.peek_eq_ok (Exec.peek_popped there)).2
    exact hbinds hknown (by rw [hn]; exact halike) hbelow (names.initial hshows ▸ hbound)

/-- A closure that is an initializer stays one as long as it is there. -/
theorem Ready.keeps_initializer {c : Closure} (hm : m.Ready) (hi : m.next? = some i)
    (hstep : Exec.step m = .ok .running m₁) (hy : m.Initializes y) (hkept : m.Keeps y)
    (hthere : m₁.heap.object? y = some (.closure c)) : m₁.Initializes y := by
  have hclears := hm.clears_step hstep
  -- a class that is reshaped is no closure
  have hreshaped {f : Frame} {h : Heap} {r : Handle} {d : ClassObject} {methods : Table}
      (hback : m.frames.back? = some f) (halike : m.heap.Alike h)
      (hr : (m.fetched f h).Reshaped r d methods m₁) : m₁.Initializes y := by
    refine hy.retain ((fetched_preserves hback halike).retains.trans hr.retains) hclears ?_
      ⟨c, hthere⟩
    rintro hmem
    obtain rfl := List.mem_singleton.mp hmem
    have hobject := hr.objects y
    rw [if_pos rfl] at hobject
    cases hobject.symm.trans hthere
  cases hcode : i.shapesCode with
  | false => exact hy.retain (hm.retains_step hi hcode hstep) hclears List.not_mem_nil ⟨c, hthere⟩
  | true =>
    cases i with
    | closure k =>
      obtain ⟨W, O, hshows, hpoised⟩ := hm
      cases hpoised with
      | intro outer base lands =>
        obtain ⟨r, d, hclosed⟩ := hshows.closed base lands hi hstep
        exact hy.retain hclosed.retains hclears (by simpa using hclosed.fresh y hkept) ⟨c, hthere⟩
    | class_ k =>
      obtain ⟨W, O, hshows, hpoised⟩ := hm
      cases hpoised with
      | intro outer base lands =>
        obtain ⟨r, hclassed⟩ := hshows.classed lands hi hstep
        exact hy.retain hclassed.retains hclears (by simpa using hclassed.fresh y hkept) ⟨c, hthere⟩
    | inherit =>
      obtain ⟨f, h, hback, halike, hcarried⟩ := Exec.perform_of_step hi (by simp) hstep
      obtain ⟨v, w, x, r, s, d, -, -, -, -, -, hr⟩ := Exec.inherit_eq_ok hcarried
      exact hreshaped hback halike hr
    | method k =>
      obtain ⟨f, h, hback, halike, hcarried⟩ := Exec.perform_of_step hi (by simp) hstep
      obtain ⟨x, key, v, w, r, d, -, -, -, -, -, hr⟩ := Exec.addMethod_eq_ok hcarried
      exact hreshaped hback halike hr
    | _ => cases hcode

/-! ### Every session -/

/-- In every session a call of a class that completes, which is when as many functions are active
again as before, leaves in the callee's slot the instance that the call has made; a call of a bound
method that was compiled as an initializer leaves the receiver there, and so does a call of a method
by the name of initializers. Reading a method by that name binds an initializer, which stays one as
long as it is there. -/
theorem sessions_construct (settings : Settings) (journal : Journal) (sink : Sink)
    (hm : Reached settings journal sink .running m) (hi : m.next? = some i)
    (hstep : Exec.step m = .ok .running m₁) :
    (i.arguments?.isSome → ∀ m', Within m.frames.size m₁ m' → m'.frames.size = m.frames.size →
      (∀ v x c, m.CallsValue i v → v.toHandle? = some x → m.heap.object? x = some (.class_ c) →
        ∃ r, m.Makes x r m₁ ∧ m'.stack[m.stack.size - i.operands]? = some (.ofHandle r)) ∧
      (∀ v x b, m.CallsValue i v → v.toHandle? = some x →
        m.heap.object? x = some (.boundMethod b) → m.Initializes b.method →
          m'.stack[m.stack.size - i.operands]? = some b.receiver) ∧
      (m.CallsMethod "init" i →
        m'.stack[m.stack.size - i.operands]? = m.stack[m.stack.size - i.operands]?)) ∧
    (∀ receiver, m.ReadsMethod "init" i receiver → ∃ r y, m₁.stack.back? = some (.ofHandle r) ∧
      m₁.heap.object? r = some (.boundMethod ⟨receiver, y⟩) ∧ m₁.Initializes y) ∧
    ∀ y c, m.Initializes y → m.Keeps y → m₁.heap.object? y = some (.closure c) →
      m₁.Initializes y := by
  have hm₁ := hm.follows (.stepped hstep)
  refine ⟨fun hcall m' hrun hreturned => ⟨fun v x c hcalls hx hc => ?_,
    fun v x b hcalls hx hb hy => ?_, fun hcalls => ?_⟩, fun receiver hreads => ?_,
    fun y c hy hkept hthere => hm.inPhase.keeps_initializer hi hstep hy hkept hthere⟩
  · obtain ⟨r, hmakes, hstarts⟩ := hm.inPhase.starts_class hm₁.inPhase hm₁.standing.1 hi hcall
      hcalls hx hc hstep
    exact ⟨r, hmakes, hstarts.returns hm hi hcall hstep hrun hreturned⟩
  · exact (hm.inPhase.starts_bound hi hcall hcalls hx hb hy hstep).returns hm hi hcall hstep hrun
      hreturned
  · obtain ⟨receiver, hslot, hstarts⟩ :=
      hm.inPhase.starts_method hm.standing.1 hi hcall hcalls hstep
    exact (hstarts.returns hm hi hcall hstep hrun hreturned).trans hslot.symm
  · exact hm.inPhase.reads_initializer hm₁.inPhase hm.standing.1 hi hreads hstep

/-- A class with an initializer that gives nothing is called. -/
theorem empty_initializer_constructs : ∃ m m₁ m' x r, m.next? = some (.call 0) ∧
    Exec.step m = .ok .running m₁ ∧ Within 1 m₁ m' ∧ m.Makes x r m₁ ∧
    m'.stack[1]? = some (.ofHandle r) := by
  have hruns : (create Settings.standard Journal.off Sink.unlimited).toOption.any (fun m =>
      let loaded := m.load "class A { def init() {} } A();"
      let at_ := (loaded.2.resume 7).2
      let entered := (at_.resume 1).2
      let given := (entered.resume 1).2
      decide (loaded.1.phase? = some .running) &&
        decide ((loaded.2.resume 7).1.phase? = some .running) &&
        decide (at_.next? = some (.call 0)) && decide (at_.frames.size = 1) &&
        decide (at_.stack.size = 2) &&
        ((at_.stack.back?.bind Value.toHandle?).any fun x => (at_.heap.class_ x).toOption.any fun _ => true) &&
        decide ((at_.resume 1).1.phase? = some .running) &&
        decide (entered.frames.size = 2) && decide ((entered.resume 1).1.phase? = some .running) &&
        decide (given.frames.size = 2) && decide ((given.resume 1).1.phase? = some .running) &&
        decide ((given.resume 1).2.frames.size = 1)) = true := by decide +kernel
  obtain ⟨m, hcreated, hruns⟩ := exists_created hruns
  simp only [Bool.and_eq_true, decide_eq_true_eq, and_assoc] at hruns
  obtain ⟨hload, hresume, hnext, hframes, hstack, hclass, hcall, hinside, hgive, hsteady, hreturn,
    hback⟩ := hruns
  have hreached : Reached Settings.standard Journal.off Sink.unlimited .running
      ((m.load "class A { def init() {} } A();").2.resume 7).2 :=
    ((Reached.created hcreated).loaded rfl hload).resumed rfl hresume
  generalize ((m.load "class A { def init() {} } A();").2.resume 7).2 = at_ at *
  have hrun : Within 1 (at_.resume 1).2 (((at_.resume 1).2.resume 1).2.resume 1).2 :=
    (Within.refl.tail (by omega) (.stepped (follows_resume hgive))).tail (by omega)
      (.stepped (follows_resume hreturn))
  obtain ⟨x, hx, hclass⟩ := Option.any_eq_true _ _ |>.mp hclass
  obtain ⟨v, hv, hx⟩ := Option.bind_eq_some_iff.mp hx
  obtain ⟨c, hc, -⟩ := exists_of_toOption_any hclass
  obtain ⟨hreturned, -⟩ := sessions_construct Settings.standard Journal.off Sink.unlimited hreached
    hnext (follows_resume hcall)
  obtain ⟨hconstructs, -⟩ := hreturned rfl _ (hframes ▸ hrun) (hback.trans hframes.symm)
  obtain ⟨r, hmakes, hresult⟩ := hconstructs v x c
    (.callee (Exec.peek_top (Exec.eq_pop_push hv))) hx (Heap.object?_of_class hc)
  rw [hstack] at hresult
  exact ⟨at_, _, _, x, r, hnext, follows_resume hcall, hrun, hmakes, hresult⟩

end Machine

end ScriptMachine
