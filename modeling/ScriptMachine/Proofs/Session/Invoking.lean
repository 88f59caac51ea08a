import ScriptMachine.Proofs.Session.Errors

/-!
# Calls of properties in one step and in two

A call of a property makes no bound method, and a call of a superclass's method makes none either.
Reading the property first and calling what was read comes to the same: a bound method puts its
receiver back into the slot that it took it from, and its closure is called as it would have been.
Only the heap tells the two apart, by the bound method that is garbage by then.
-/

namespace ScriptMachine

namespace Exec

variable {α β : Type} {m m' : Machine} {receiver v : Value} {class_ name closure r : Handle}
  {count : UInt8} {h : Heap}

/-! ### Reading, then calling -/

/-- A method of a class, bound to a receiver. -/
def boundMethodOf (class_ name : Handle) (receiver : Value) : Exec Value := do
  match ← findMethod class_ name with
  | none => raiseUndefinedProperty name
  | some method =>
    let r ← alloc (.boundMethod ⟨receiver, ← handleOf method⟩)
    return .ofHandle r

/-- A property of a receiver: a field, else a bound method. -/
def propertyOf (name : Handle) (receiver : Value) : Exec Value := do
  match ← readHeap (·.instance? receiver) with
  | none => raiseNotAnInstance receiver
  | some (_, instance_) =>
    let key ← readHeap (·.key name)
    match instance_.fields.get? key with
    | some v => return v
    | none => boundMethodOf instance_.class_ name receiver

/-- A call in two steps: what is read of the receiver takes the callee's slot, and is called. -/
def callRead (read : Value → Exec Value) (count : UInt8) : Exec Unit := do
  let receiver ← peek count.toNat
  let v ← read receiver
  let slot ← slotAt count.toNat
  writeSlot slot v
  callValue v count

/-! ### Another heap -/

/-- A result with another heap in its machine. -/
def onHeap (h : Heap) : EStateM.Result Halt Machine α → EStateM.Result Halt Machine α
  | .ok a m => .ok a { m with heap := h }
  | .error e m => .error e { m with heap := h }

/-- Two steps in sequence do the same on another heap if each does. -/
theorem bind_onHeap {x : Exec α} {f : α → Exec β}
    (hx : x { m with heap := h } = onHeap h (x m))
    (hf : ∀ a m', x m = .ok a m' → f a { m' with heap := h } = onHeap h (f a m')) :
    (x >>= f) { m with heap := h } = onHeap h ((x >>= f) m) := by
  cases hr : x m with
  | ok a m' =>
    rw [hr] at hx
    rw [bind_eq hx, bind_eq hr]
    exact hf a m' hr
  | error e m' =>
    rw [hr] at hx
    rw [bind_error hx, bind_error hr]
    rfl

/-- What is read alike in another heap is read alike on it. -/
theorem readHeap_onHeap {f : Heap → Except Fault α} (hf : f h = f m.heap) :
    readHeap f { m with heap := h } = onHeap h (readHeap f m) := by
  unfold readHeap
  dsimp only
  rw [hf]
  split <;> rfl

/-- A slot is counted alike on another heap. -/
theorem slotAt_onHeap (n : Nat) : slotAt n { m with heap := h } = onHeap h (slotAt n m) := by
  unfold slotAt
  dsimp only
  split <;> rfl

/-- A value is looked at alike on another heap. -/
theorem peek_onHeap (n : Nat) : peek n { m with heap := h } = onHeap h (peek n m) := by
  unfold peek
  dsimp only
  split
  · split <;> rfl
  · rfl

/-- A call of a closure does the same on another heap that has the closure and its function. -/
theorem callClosure_onHeap (hclosure : h.object? closure = m.heap.object? closure)
    (hfunction : ∀ c, m.heap.closure closure = .ok c →
      h.object? c.function = m.heap.object? c.function) :
    callClosure closure count { m with heap := h } = onHeap h (callClosure closure count m) := by
  refine bind_onHeap (readHeap_onHeap ?_) fun c m₁ hc => ?_
  · simp only [Heap.closure, Heap.object, hclosure]
  obtain ⟨rfl, hc⟩ := readHeap_eq_ok hc
  refine bind_onHeap (readHeap_onHeap ?_) fun f m₂ hf => ?_
  · simp only [Heap.prototype, Heap.object, hfunction c hc]
  dsimp only
  split
  · exact bind_onHeap rfl fun _ _ hraise => by cases hraise
  · refine bind_onHeap rfl fun full m₃ _ => ?_
    split
    · exact bind_onHeap rfl fun _ _ hraise => by cases hraise
    · exact bind_onHeap (slotAt_onHeap _) fun _ _ _ => rfl

/-! ### Binding a method and calling it -/

/-- The machine that a result leaves. -/
def final : EStateM.Result Halt Machine α → Machine
  | .ok _ m => m
  | .error _ m => m

/-- What a call in two steps comes to beside the call in one: the same, or the same but for the
heap, which holds the bound method that was made on the way; only that can find the arena
exhausted. -/
inductive Beside (m : Machine) (receiver : Value) (fused : EStateM.Result Halt Machine Unit) :
    EStateM.Result Halt Machine Unit → Prop
  | same : Beside m receiver fused fused
  | bound {method r : Handle} {h : Heap} (untouched : (final fused).heap = m.heap)
      (done : m.heap.alloc (.boundMethod ⟨receiver, method⟩) (fun _ => m.roots) = .ok (r, h))
      (made : m.heap.Allocated m.roots (.boundMethod ⟨receiver, method⟩) r h) :
      Beside m receiver fused (onHeap h fused)
  | full {method : Handle} {m' : Machine}
      (full : m.heap.alloc (.boundMethod ⟨receiver, method⟩) (fun _ => m.roots) =
        .error .arenaFull) : Beside m receiver fused (.error (.fault .arenaFull) m')

/-- A call of a closure does nothing to the heap. -/
theorem final_callClosure : (final (callClosure closure count m)).heap = m.heap := by
  have hself : onHeap m.heap (callClosure closure count m) = callClosure closure count m :=
    (callClosure_onHeap (m := m) rfl fun _ _ => rfl).symm
  rw [← hself]
  cases callClosure closure count m <;> rfl

/-- Finding a method changes nothing. -/
theorem findMethod_eq_ok {found : Option Value} (hfound : findMethod class_ name m = .ok found m') :
    m' = m ∧ ∃ key c, m.heap.key name = .ok key ∧ m.heap.object? class_ = some (.class_ c) ∧
      found = c.methods.get? key := by
  obtain ⟨key, m₁, hkey, hrest⟩ := exists_of_bind_ok hfound
  obtain ⟨rfl, hkey⟩ := readHeap_eq_ok hkey
  obtain ⟨c, m₂, hc, hresult⟩ := exists_of_bind_ok hrest
  obtain ⟨rfl, hc⟩ := readHeap_eq_ok hc
  obtain ⟨hget, rfl⟩ := EStateM.Result.ok.inj hresult
  exact ⟨rfl, key, c, hkey, Heap.object?_of_class hc, hget.symm⟩

/-- A known class has closures as its methods. -/
theorem closure_of_findMethod {W : World} (hf : W.Fits m.heap) (hknown : W.Knows class_)
    (hfound : findMethod class_ name m = .ok (some v) m') : W.Holds v .closure := by
  obtain ⟨-, key, c, hkey, hobject, hget⟩ := findMethod_eq_ok hfound
  obtain ⟨t, ht⟩ := hknown
  obtain ⟨o, ho, hd⟩ := hf _ _ ht
  obtain rfl : o = .class_ c := Option.some.inj (ho.symm.trans hobject)
  cases hd with
  | class_ _ methods =>
    obtain ⟨k, hmem, -⟩ :=
      (methods.valid.get?_eq_some_iff (methods.agrees_of_key hf hkey)).mp hget.symm
    exact methods.value k v hmem

/-- Where there is a value below the top, there is its slot. -/
theorem slotAt_of_peek {n : Nat} (hpeek : peek n m = .ok v m) :
    slotAt n m = .ok (m.stack.size - 1 - n) m ∧ m.stack[m.stack.size - 1 - n]? = some v := by
  refine ⟨?_, (peek_eq_ok hpeek).2⟩
  unfold peek at hpeek
  unfold slotAt
  split at hpeek
  · next hlt => rw [if_pos hlt]
  · cases hpeek

/-- A bound method in the slot of its receiver is called like its method on the receiver. -/
theorem call_bound {b : BoundMethod} (hr : m.heap.object? r = some (.boundMethod b))
    (hreceiver : peek count.toNat m = .ok b.receiver m) :
    (do let slot ← slotAt count.toNat
        writeSlot slot (.ofHandle r)
        callValue (.ofHandle r) count : Exec Unit) m = callClosure b.method count m := by
  obtain ⟨hslot, hget⟩ := slotAt_of_peek hreceiver
  obtain ⟨hlt, hget⟩ := Array.getElem?_eq_some_iff.mp hget
  rw [bind_eq hslot]
  generalize hj : m.stack.size - 1 - count.toNat = slot at hslot hlt hget
  have hwrite : writeSlot slot (.ofHandle r) m =
      .ok () { m with stack := m.stack.setIfInBounds slot (.ofHandle r) } := by
    rw [writeSlot, if_pos hlt]
  rw [bind_eq hwrite]
  have hsame : (m.stack.setIfInBounds slot (.ofHandle r)).setIfInBounds slot b.receiver =
      m.stack := by
    rw [Array.setIfInBounds_setIfInBounds, ← hget, Array.setIfInBounds_def, dif_pos hlt,
      Array.set_getElem_self]
  have hback : writeSlot slot b.receiver { m with
      stack := m.stack.setIfInBounds slot (.ofHandle r) } = .ok () m := by
    rw [writeSlot, if_pos (by rwa [Array.size_setIfInBounds]), hsame]
  have hslot' : slotAt count.toNat { m with
      stack := m.stack.setIfInBounds slot (.ofHandle r) } = .ok slot { m with
      stack := m.stack.setIfInBounds slot (.ofHandle r) } := by
    rw [← hj]
    unfold slotAt at hslot ⊢
    rw [Array.size_setIfInBounds]
    split at hslot
    · next hcount => rw [if_pos hcount]
    · cases hslot
  have hobject : readHeap (·.object r) { m with
      stack := m.stack.setIfInBounds slot (.ofHandle r) } = .ok (.boundMethod b) _ :=
    readHeap_eq (by rw [Heap.object, hr])
  dsimp only [callValue]
  rw [Value.toHandle?_ofHandle]
  dsimp only
  rw [bind_eq hobject]
  dsimp only
  rw [bind_eq hslot', bind_eq hback]

/-- Changing the heap with roots stops where the arena is exhausted. -/
theorem changeHeapRooted_full {f : Heap → (Unit → List Handle) → Except Fault (α × Heap)}
    (hf : f m.heap (fun _ => m.roots) = .error .arenaFull) :
    ∃ m', changeHeapRooted f m = .error (.fault .arenaFull) m' := by
  have hsame : f m.heap (fun _ => { m with heap := Heap.absent }.roots) = .error .arenaFull := hf
  rw [changeHeapRooted]
  simp only [hsame]
  exact ⟨_, rfl⟩

/-- Nothing comes after an error. -/
theorem bind_raiseUndefinedProperty (f : α → Exec β) :
    raiseUndefinedProperty name >>= f = raiseUndefinedProperty name := by
  rw [raiseUndefinedProperty, LawfulMonad.bind_assoc]
  rfl

/-- Nothing follows the error over a value without properties. -/
theorem bind_raiseNotAnInstance (f : α → Exec β) :
    raiseNotAnInstance v >>= f = raiseNotAnInstance v := by
  rw [raiseNotAnInstance, LawfulMonad.bind_assoc]
  rfl

/-- Making a bound method of a known closure and calling it, and calling the closure. -/
theorem beside_made {W : World} {x : Handle} (hs : m.heap.Sound) (hf : W.Fits m.heap)
    (hknows : ∀ r ∈ m.roots, W.Knows r) (hx : W x = some .closure)
    (hreceiver : peek count.toNat m = .ok receiver m) :
    Beside m receiver (callClosure x count m) ((do
      let r ← alloc (.boundMethod ⟨receiver, x⟩)
      let slot ← slotAt count.toNat
      writeSlot slot (.ofHandle r)
      callValue (.ofHandle r) count : Exec Unit) m) := by
  have hknown (y : Handle) (hy : y ∈ m.roots ++ (Object.boundMethod ⟨receiver, x⟩).references) :
      W.Knows y := by
    rcases List.mem_append.mp hy with hy | hy
    · exact hknows y hy
    · cases Object.mem_references.mp hy with
      | receiver at_ =>
        have hmem : receiver ∈ m.stack := Array.mem_of_getElem? (peek_eq_ok hreceiver).2
        exact hknows y (Machine.mem_roots.mpr (.inl ⟨receiver, hmem, at_⟩))
      | boundMethod => exact ⟨_, hx⟩
  rcases hs.alloc (.boundMethod ⟨receiver, x⟩) (fun s hs => by cases hs) (hf.covers hknown) with
    ⟨r, h, hok, hmade, -⟩ | hfull
  · have halloc : alloc (.boundMethod ⟨receiver, x⟩) m = .ok r { m with heap := h } :=
      changeHeapRooted_eq hok
    have hmethod : m.heap.Reachable (m.roots ++ (Object.boundMethod ⟨receiver, x⟩).references) x :=
      .root (List.mem_append_right _ (Object.mem_references.mpr .boundMethod))
    have hpeek : peek count.toNat { m with heap := h } = .ok receiver { m with heap := h } := by
      rw [peek_onHeap, hreceiver]
      rfl
    have hcall := call_bound (m := { m with heap := h }) (b := ⟨receiver, x⟩) hmade.new hpeek
    rw [bind_eq halloc, hcall, callClosure_onHeap (hmade.kept x hmethod) fun c hc =>
        hmade.kept _ (hmethod.step (Heap.object?_of_closure hc) .closureFunction)]
    exact .bound final_callClosure hok hmade
  · obtain ⟨m', halloc⟩ : ∃ m', alloc (.boundMethod ⟨receiver, x⟩) m =
        .error (.fault .arenaFull) m' := changeHeapRooted_full hfull
    rw [bind_error halloc]
    exact .full hfull

/-- Binding a method of a known class to the receiver below the arguments and calling it, and
calling the method on the receiver. -/
theorem beside_boundMethodOf {W : World} (hs : m.heap.Sound) (hf : W.Fits m.heap)
    (hknows : ∀ r ∈ m.roots, W.Knows r) (hknown : W.Knows class_)
    (hreceiver : peek count.toNat m = .ok receiver m) :
    Beside m receiver (invokeFromClass class_ name count m)
      (callRead (boundMethodOf class_ name) count m) := by
  rw [callRead, bind_eq hreceiver]
  unfold invokeFromClass boundMethodOf
  rw [LawfulMonad.bind_assoc]
  cases hfound : findMethod class_ name m with
  | error e m' =>
    rw [bind_error hfound, bind_error hfound]
    exact .same
  | ok method m' =>
    obtain ⟨rfl, -⟩ := findMethod_eq_ok hfound
    rw [bind_eq hfound, bind_eq hfound]
    cases method with
    | none =>
      rw [bind_raiseUndefinedProperty]
      exact .same
    | some method =>
      obtain ⟨x, hx, htype⟩ := closure_of_findMethod hf hknown hfound
      have hhandle : handleOf method m' = .ok x m' := by
        rw [handleOf, hx]
        rfl
      have hpure : ((do
          let r ← alloc (.boundMethod ⟨receiver, x⟩)
          return .ofHandle r : Exec Value) >>= fun v => do
            let slot ← slotAt count.toNat
            writeSlot slot v
            callValue v count) = (do
          let r ← alloc (.boundMethod ⟨receiver, x⟩)
          let slot ← slotAt count.toNat
          writeSlot slot (.ofHandle r)
          callValue (.ofHandle r) count) := by
        rw [LawfulMonad.bind_assoc]
        rfl
      dsimp only
      rw [bind_eq hhandle, LawfulMonad.bind_assoc, bind_eq hhandle, hpure]
      exact beside_made hs hf hknows htype hreceiver

/-- Reading a property of the receiver below the arguments and calling it, and calling the property
of the receiver. -/
theorem beside_propertyOf {W : World} (hs : m.heap.Sound) (hf : W.Fits m.heap)
    (hknows : ∀ r ∈ m.roots, W.Knows r) (hreceiver : peek count.toNat m = .ok receiver m) :
    Beside m receiver (invoke name count m) (callRead (propertyOf name) count m) := by
  have hread (read : Value → Exec Value) : callRead read count m = (do
      let v ← read receiver
      let slot ← slotAt count.toNat
      writeSlot slot v
      callValue v count : Exec Unit) m := bind_eq hreceiver
  have hmem : receiver ∈ m.stack := Array.mem_of_getElem? (peek_eq_ok hreceiver).2
  have hholds : W.Holds receiver .any := fun x hx =>
    hknows x (Machine.mem_roots.mpr (.inl ⟨receiver, hmem, hx⟩))
  rw [hread, invoke, bind_eq hreceiver, propertyOf, LawfulMonad.bind_assoc]
  rcases hf.instance? hholds with hnone | ⟨x, i, hsome, -, -, hclass, -⟩
  · have hfound : readHeap (·.instance? receiver) m = .ok none m := readHeap_eq hnone
    rw [bind_eq hfound, bind_eq hfound]
    dsimp only
    rw [bind_raiseNotAnInstance]
    exact .same
  · have hfound : readHeap (·.instance? receiver) m = .ok (some (x, i)) m := readHeap_eq hsome
    rw [bind_eq hfound, bind_eq hfound]
    dsimp only
    rw [LawfulMonad.bind_assoc]
    cases hkey : readHeap (·.key name) m with
    | error e m' =>
      rw [bind_error hkey, bind_error hkey]
      exact .same
    | ok key m' =>
      obtain ⟨rfl, -⟩ := readHeap_eq_ok hkey
      rw [bind_eq hkey, bind_eq hkey]
      cases i.fields.get? key with
      | some v => exact .same
      | none =>
        have hmethod : Beside m' receiver (invokeFromClass i.class_ name count m') _ :=
          beside_boundMethodOf hs hf hknows ⟨_, hclass⟩ hreceiver
        rw [hread] at hmethod
        exact hmethod

/-! ### The instructions -/

/-- Binding a method to the receiver on top of the stack replaces the receiver. -/
theorem bindMethod_eq (hreceiver : peek 0 m = .ok receiver m) :
    bindMethod class_ name m = (do
      let v ← boundMethodOf class_ name receiver
      drop
      push v : Exec Unit) m := by
  rw [bindMethod, boundMethodOf, LawfulMonad.bind_assoc]
  cases hfound : findMethod class_ name m with
  | error e m' => rw [bind_error hfound, bind_error hfound]
  | ok method m' =>
    obtain ⟨rfl, -⟩ := findMethod_eq_ok hfound
    rw [bind_eq hfound, bind_eq hfound]
    cases method with
    | none =>
      dsimp only
      rw [bind_raiseUndefinedProperty]
    | some method =>
      simp only [LawfulMonad.bind_assoc, bind_eq hreceiver]
      rfl

/-- Reading a property replaces the receiver on top of the stack by the property. -/
theorem getProperty_eq {k : UInt16} (hreceiver : peek 0 m = .ok receiver m)
    (hname : constantHandle k m = .ok name m) :
    getProperty k m = (do
      let v ← propertyOf name receiver
      drop
      push v : Exec Unit) m := by
  rw [getProperty, bind_eq hreceiver, propertyOf, LawfulMonad.bind_assoc]
  cases hfound : readHeap (·.instance? receiver) m with
  | error e m' => rw [bind_error hfound, bind_error hfound]
  | ok found m' =>
    obtain ⟨rfl, -⟩ := readHeap_eq_ok hfound
    rw [bind_eq hfound, bind_eq hfound]
    cases found with
    | none =>
      dsimp only
      rw [bind_raiseNotAnInstance]
    | some found =>
      obtain ⟨x, i⟩ := found
      dsimp only
      rw [bind_eq hname, LawfulMonad.bind_assoc]
      cases hkey : readHeap (·.key name) m' with
      | error e m₁ => rw [bind_error hkey, bind_error hkey]
      | ok key m₁ =>
        obtain ⟨rfl, -⟩ := readHeap_eq_ok hkey
        rw [bind_eq hkey, bind_eq hkey]
        cases i.fields.get? key with
        | some v => rfl
        | none => exact bindMethod_eq hreceiver

/-- A reference has its handle. -/
theorem handleOf_eq_ok (hdone : handleOf v m = .ok r m') : m' = m ∧ v.toHandle? = some r := by
  unfold handleOf at hdone
  cases hv : v.toHandle? with
  | some x =>
    rw [hv] at hdone
    obtain ⟨rfl, rfl⟩ := EStateM.Result.ok.inj hdone
    exact ⟨rfl, rfl⟩
  | none =>
    rw [hv] at hdone
    cases hdone

/-- Reading a constant changes nothing. -/
theorem constantHandle_eq_ok {k : UInt16} (hdone : constantHandle k m = .ok r m') : m' = m := by
  obtain ⟨v, m₁, hconstant, hhandle⟩ := exists_of_bind_ok hdone
  obtain ⟨f, m₂, hframe, hrest⟩ := exists_of_bind_ok hconstant
  obtain ⟨rfl, -⟩ := frame_eq_ok hframe
  obtain ⟨rfl, -⟩ := handleOf_eq_ok hhandle
  cases hconst : f.chunk.constants[k.toNat]? with
  | some w =>
    rw [hconst] at hrest
    exact (EStateM.Result.ok.inj hrest).2.symm
  | none =>
    rw [hconst] at hrest
    cases hrest

/-- With the top of the stack popped, what is below it is one closer. -/
theorem peek_popped {n : Nat} (hpeek : peek (n + 1) m = .ok v m) :
    peek n { m with stack := m.stack.pop } = .ok v { m with stack := m.stack.pop } := by
  have hget := (peek_eq_ok hpeek).2
  unfold peek at hpeek ⊢
  split at hpeek
  · next hlt =>
    have hindex : m.stack.size - 1 - 1 - n = m.stack.size - 1 - (n + 1) := by omega
    dsimp only
    rw [Array.size_pop, if_pos (by omega), hindex, Array.getElem?_pop, if_pos (by omega), hget]
  · cases hpeek

/-- A superclass, which is on top of the stack, is taken off, and its method is bound to the receiver
below the arguments and called. -/
def callSuper (k : UInt16) (count : UInt8) : Exec Unit := do
  let name ← constantHandle k
  let superclass ← handleOf (← pop)
  callRead (boundMethodOf superclass name) count

/-- Calling a method of the superclass is reading it and calling it. -/
theorem beside_callSuper {W : World} {k : UInt16} (hs : m.heap.Sound) (hf : W.Fits m.heap)
    (hknows : ∀ r ∈ m.roots, W.Knows r) (hreceiver : peek (count.toNat + 1) m = .ok receiver m) :
    Beside { m with stack := m.stack.pop } receiver (perform (.superInvoke k count) m)
      (callSuper k count m) := by
  unfold perform callSuper
  dsimp only
  cases hname : constantHandle k m with
  | error e m' =>
    rw [bind_error hname, bind_error hname]
    exact .same
  | ok name m' =>
    obtain rfl := constantHandle_eq_ok hname
    rw [bind_eq hname, bind_eq hname]
    cases hpop : pop m' with
    | error e m₁ =>
      rw [bind_error hpop, bind_error hpop]
      exact .same
    | ok s m₁ =>
      rw [bind_eq hpop, bind_eq hpop]
      obtain ⟨rfl, htop⟩ := pop_eq_ok hpop
      cases hclass : handleOf s { m' with stack := m'.stack.pop } with
      | error e m₂ =>
        rw [bind_error hclass, bind_error hclass]
        exact .same
      | ok superclass m₂ =>
        rw [bind_eq hclass, bind_eq hclass]
        obtain ⟨rfl, hs'⟩ := handleOf_eq_ok hclass
        have hroots (r : Handle) (hr : r ∈ { m' with stack := m'.stack.pop }.roots) :
            r ∈ m'.roots := by
          rcases Machine.mem_roots.mp hr with ⟨v, hv, hat⟩ | hr
          · have hv' : v ∈ m'.stack := eq_pop_push htop ▸ Array.mem_push_of_mem s hv
            exact Machine.mem_roots.mpr (.inl ⟨v, hv', hat⟩)
          · exact Machine.mem_roots.mpr (.inr hr)
        have hmem : superclass ∈ m'.roots :=
          Machine.mem_roots.mpr (.inl ⟨s, eq_pop_push htop ▸ Array.mem_push_self, hs'⟩)
        exact beside_boundMethodOf (m := { m' with stack := m'.stack.pop }) hs hf
          (fun r hr => hknows r (hroots r hr)) (hknows _ hmem) (peek_popped hreceiver)

/-- Reading a method of a superclass, which is taken off the stack, replaces the receiver below it by
the method bound to the receiver. -/
theorem getSuper_eq {k : UInt16} (hreceiver : peek 1 m = .ok receiver m) :
    perform (.getSuper k) m = (do
      let name ← constantHandle k
      let superclass ← handleOf (← pop)
      let v ← boundMethodOf superclass name receiver
      drop
      push v : Exec Unit) m := by
  unfold perform
  dsimp only
  cases hname : constantHandle k m with
  | error e m' => rw [bind_error hname, bind_error hname]
  | ok name m' =>
    obtain rfl := constantHandle_eq_ok hname
    rw [bind_eq hname, bind_eq hname]
    cases hpop : pop m' with
    | error e m₁ => rw [bind_error hpop, bind_error hpop]
    | ok s m₁ =>
      rw [bind_eq hpop, bind_eq hpop]
      obtain ⟨rfl, -⟩ := pop_eq_ok hpop
      cases hclass : handleOf s { m' with stack := m'.stack.pop } with
      | error e m₂ => rw [bind_error hclass, bind_error hclass]
      | ok superclass m₂ =>
        rw [bind_eq hclass, bind_eq hclass]
        obtain ⟨rfl, -⟩ := handleOf_eq_ok hclass
        exact bindMethod_eq (peek_popped hreceiver)

end Exec

namespace Machine

open Exec

variable {settings : Settings} {journal : Journal} {sink : Sink} {p : Phase} {m : Machine}

/-- In every state of a session a call of a property comes to what reading the property of the
receiver and calling it come to, the stack, the frames and the error included, and so does a call of
a method of a superclass: the results differ by the bound method that is made on the way, if one is,
and by what making it freed, which nothing leads to. Reading the property and reading the method are
what the instructions for these do. -/
theorem sessions_fuse_calls (settings : Settings) (journal : Journal) (sink : Sink)
    (hm : Reached settings journal sink p m) :
    (∀ name count receiver, peek (UInt8.toNat count) m = .ok receiver m →
      Beside m receiver (invoke name count m) (callRead (propertyOf name) count m)) ∧
    (∀ k count receiver, peek (UInt8.toNat count + 1) m = .ok receiver m →
      Beside { m with stack := m.stack.pop } receiver (perform (.superInvoke k count) m)
        (callSuper k count m)) ∧
    (∀ k name receiver, peek 0 m = .ok receiver m → constantHandle k m = .ok name m →
      perform (.getProperty k) m = (do
        let v ← propertyOf name receiver
        drop
        push v : Exec Unit) m) ∧
    ∀ k receiver, peek 1 m = .ok receiver m →
      perform (.getSuper k) m = (do
        let name ← constantHandle k
        let superclass ← handleOf (← pop)
        let v ← boundMethodOf superclass name receiver
        drop
        push v : Exec Unit) m := by
  obtain ⟨W, O, hshows⟩ := hm.inPhase.shows
  have hknows (r : Handle) (hr : r ∈ m.roots) : W.Knows r := hshows.knows hshows.lists hr
  exact ⟨fun name count receiver hreceiver =>
      beside_propertyOf hshows.sound hshows.fits hknows hreceiver,
    fun k count receiver hreceiver =>
      beside_callSuper hshows.sound hshows.fits hknows hreceiver,
    fun k name receiver hreceiver hname => getProperty_eq hreceiver hname,
    fun k receiver hreceiver => getSuper_eq hreceiver⟩

/-- A method is called on an instance. -/
theorem method_call_fused : ∃ m name receiver, m.next? = some (.invoke 1 0) ∧
    constantHandle 1 m = .ok name m ∧
    Beside m receiver (invoke name 0 m) (callRead (propertyOf name) 0 m) := by
  have hruns : (create Settings.standard Journal.off Sink.unlimited).toOption.any (fun m =>
      let loaded := m.load "class A { def f() {} } A().f();"
      let at_ := (loaded.2.resume 8).2
      decide (loaded.1.phase? = some .running) &&
        decide ((loaded.2.resume 8).1.phase? = some .running) &&
        decide (at_.next? = some (.invoke 1 0)) &&
        (match constantHandle 1 at_ with
          | .ok _ _ => true
          | .error _ _ => false) &&
        match peek 0 at_ with
        | .ok _ _ => true
        | .error _ _ => false) = true := by decide +kernel
  obtain ⟨m, hcreated, hruns⟩ := exists_created hruns
  simp only [Bool.and_eq_true, decide_eq_true_eq, and_assoc] at hruns
  obtain ⟨hload, hresume, hnext, hname, hpeek⟩ := hruns
  have hreached : Reached Settings.standard Journal.off Sink.unlimited .running
      ((m.load "class A { def f() {} } A().f();").2.resume 8).2 :=
    ((Reached.created hcreated).loaded rfl hload).resumed rfl hresume
  generalize ((m.load "class A { def f() {} } A().f();").2.resume 8).2 = at_ at *
  cases hconstant : constantHandle 1 at_ with
  | error e m' =>
    rw [hconstant] at hname
    cases hname
  | ok name m' =>
    obtain rfl := constantHandle_eq_ok hconstant
    cases hreceiver : peek 0 m' with
    | error e m₁ =>
      rw [hreceiver] at hpeek
      cases hpeek
    | ok receiver m₁ =>
      obtain ⟨rfl, -⟩ := peek_eq_ok hreceiver
      obtain ⟨hfused, -⟩ :=
        sessions_fuse_calls Settings.standard Journal.off Sink.unlimited hreached
      exact ⟨m₁, name, receiver, hnext, hconstant, hfused name 0 receiver hreceiver⟩

end Machine

end ScriptMachine
