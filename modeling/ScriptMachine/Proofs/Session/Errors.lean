import ScriptMachine.Proofs.Session.Looking

/-!
# Errors leave no trace

An error of the script stops an instruction before it has changed anything but its operands. Two
instructions change more before they look: an assignment to an unknown global defines it and takes
the definition back, and a call of a class makes the instance before the arguments are counted. When
the error is reported, the stack goes and every captured variable keeps its value.
-/

namespace ScriptMachine

/-! ### What an error leaves -/

/-- `h'` has the objects of `h` that are left, all that `held` leads to among them, and perhaps a
new instance without fields. -/
inductive Heap.Spares (held : List Handle) (h h' : Heap) : Prop
  | same (objects : ∀ x, h'.object? x = h.object? x) : Spares held h h'
  | made {rest : Heap} {r class_ : Handle}
      (left : ∀ x, rest.object? x = h.object? x ∨ rest.object? x = none)
      (kept : ∀ x, h.Reachable held x → rest.object? x = h.object? x)
      (vacant : rest.object? r = none)
      (objects : ∀ x, h'.object? x =
        if x = r then some (.instance_ ⟨class_, Table.empty⟩) else rest.object? x) :
      Spares held h h'

/-- What a machine keeps alive beside its stack. -/
def Machine.held (m : Machine) : List Handle := { m with stack := #[] }.roots

/-- What an instruction whose operands begin at `low` leaves of the machine when an error stops it:
the globals, the active functions, the captured variables, the slots below the operands, and every
object that lives on, are what they were. -/
structure Machine.Spared (low : Nat) (m m' : Machine) : Prop where
  frames : m'.frames = m.frames
  globals : ∀ k v, (k, v) ∈ m'.globals.toList ↔ (k, v) ∈ m.globals.toList
  heap : m.heap.Spares m.held m'.heap
  openUpvalues : m'.openUpvalues = m.openUpvalues
  slots : ∀ j < low, m'.stack[j]? = m.stack[j]?

/-- A machine that is the same has every slot spared. -/
theorem Machine.Same.spared {m m' : Machine} (h : m.Same m') (low : Nat) :
    Machine.Spared low m m' :=
  ⟨h.frames, fun k v => by rw [h.globals], .same fun x => h.heap.object? x, h.openUpvalues,
    fun j _ => by rw [h.stack]⟩

/-! ### Instructions that change something before they look -/

/-- A key that was read from the heap has the hash that a table of known texts has for its text. -/
theorem World.TableOk.agrees_of_key {W : World} {h : Heap} {t : Table} {c : Content} {r : Handle}
    {key : Key} (ht : W.TableOk c t) (hf : W.Fits h) (hkey : h.key r = .ok key) :
    Table.Agrees t.entries key := by
  intro k v hmem heq
  obtain ⟨chars, htext, hhash⟩ := ht.key k v hmem
  have hstring : key.string = r := by
    unfold Heap.key at hkey
    cases hs : h.string r with
    | ok s =>
      rw [hs] at hkey
      exact (Except.ok.inj hkey) ▸ rfl
    | error f =>
      rw [hs] at hkey
      cases hkey
  rw [heq, hstring] at htext
  rw [hhash, Except.ok.inj (hkey.symm.trans (hf.key htext))]

namespace Heap

variable {h h' : Heap} {held fewer : List Handle}

/-- Keeping more alive, a heap spares what less leads to. -/
theorem Spares.mono (hs : h.Spares held h') (hsub : ∀ r ∈ fewer, r ∈ held) : h.Spares fewer h' := by
  cases hs with
  | same objects => exact .same objects
  | made left kept vacant objects =>
    exact .made left (fun x hx => kept x (hx.mono hsub)) vacant objects

/-- What is spared depends on the objects only. -/
theorem Spares.congr {h₁ : Heap} (hs : h₁.Spares held h')
    (hobjects : ∀ x, h₁.object? x = h.object? x) : h.Spares held h' := by
  cases hs with
  | same objects => exact .same fun x => (objects x).trans (hobjects x)
  | made left kept vacant objects =>
    refine .made (fun x => by rw [← hobjects]; exact left x) (fun x hx => ?_) vacant objects
    exact (kept x ((reachable_congr fun x _ => hobjects x).mpr hx)).trans (hobjects x)

/-- All that is kept alive is spared. -/
theorem Spares.object? {x : Handle} {o : Object} (hs : h.Spares held h')
    (hx : h.Reachable held x) (ho : h.object? x = some o) : h'.object? x = some o := by
  cases hs with
  | same objects => exact (objects x).trans ho
  | made left kept vacant objects =>
    have hrest := (kept x hx).trans ho
    rw [objects, if_neg ?_, hrest]
    rintro rfl
    cases vacant.symm.trans hrest

/-- Making an instance spares what is kept alive. -/
theorem spares_alloc {class_ r : Handle} {roots : Unit → List Handle} (hs : h.Sound)
    (hdone : h.alloc (.instance_ ⟨class_, Table.empty⟩) roots = .ok (r, h')) :
    h.Spares (roots ()) h' := by
  have hinsert {rest : Heap} (ha : rest.Arena)
      (hdone : rest.insert (.instance_ ⟨class_, Table.empty⟩) = .ok (r, h')) :
      Inserted rest (.instance_ ⟨class_, Table.empty⟩) r h' := by
    rcases ha.insert (.instance_ ⟨class_, Table.empty⟩) with ⟨r', h'', hok, hins⟩ | hfull
    · obtain ⟨rfl, rfl⟩ := Prod.mk.inj (Except.ok.inj (hok.symm.trans hdone))
      exact hins
    · cases hfull.symm.trans hdone
  unfold alloc at hdone
  split at hdone
  · have hins := hinsert (hs.arena.collect _) hdone
    refine .made (fun x => ?_) (fun x hx => ?_) hins.vacant hins.object?
    · exact (object?_collect_eq h _ x).imp And.right And.right
    · exact object?_collect hs.unmarked (hx.mono fun _ => List.mem_append_left _)
  · have hins := hinsert hs.arena hdone
    exact .made (fun x => .inl rfl) (fun x _ => rfl) hins.vacant hins.object?

end Heap

namespace Machine

variable {m m₁ m' : Machine} {low : Nat}

/-- What is kept alive beside the stack is kept alive. -/
theorem mem_roots_of_held {r : Handle} (hr : r ∈ m.held) : r ∈ m.roots := by
  rw [held, mem_roots] at hr
  refine mem_roots.mpr (.inr (hr.resolve_left ?_))
  rintro ⟨v, hv, -⟩
  exact absurd hv (Array.not_mem_empty v)

/-- The operands may have been changed before. -/
theorem Spared.restack {vs : Array Value} (h : Spared low { m with stack := vs } m')
    (slots : ∀ j < low, vs[j]? = m.stack[j]?) : Spared low m m' :=
  ⟨h.frames, h.globals, h.heap, h.openUpvalues, fun j hj => (h.slots j hj).trans (slots j hj)⟩

/-- Looking may come before. -/
theorem Spared.after (h : Spared low m₁ m') (hsame : m.Same m₁) : Spared low m m' := by
  have hheld : m₁.held = m.held := by
    simp only [held, roots, hsame.frames, hsame.openUpvalues, hsame.globals, hsame.initName]
  exact ⟨h.frames.trans hsame.frames, fun k v => by rw [h.globals, hsame.globals],
    (hheld ▸ h.heap).congr hsame.heap.object?, h.openUpvalues.trans hsame.openUpvalues,
    fun j hj => by rw [h.slots j hj, hsame.stack]⟩

/-- Looking may come behind. -/
theorem Spared.before (h : Spared low m m₁) (hsame : m₁.Same m') : Spared low m m' := by
  have hobjects (x : Handle) : m'.heap.object? x = m₁.heap.object? x := hsame.heap.object? x
  refine ⟨hsame.frames.trans h.frames, fun k v => by rw [hsame.globals, h.globals], ?_,
    hsame.openUpvalues.trans h.openUpvalues, fun j hj => by rw [hsame.stack, h.slots j hj]⟩
  cases h.heap with
  | same objects => exact .same fun x => (hobjects x).trans (objects x)
  | made left kept vacant objects =>
    exact .made left kept vacant fun x => (hobjects x).trans (objects x)

end Machine

/-- The operands that an instruction takes or replaces before an error can stop it. -/
def Instr.disturbed : Instr → Nat
  | .print | .getSuper _ => 1
  | .call count | .invoke _ count => count.toNat + 1
  | .superInvoke _ count => count.toNat + 2
  | _ => 0

namespace Exec

variable {α β : Type} {m m' : Machine} {k : Nat}

/-- An action that spares all but the uppermost `k` slots when an error stops it. -/
structure Sparing (k : Nat) (x : Exec α) : Prop where
  error {m : Machine} {e : RuntimeError} {m' : Machine} (sound : m.heap.Sound)
    (stopped : x m = .error (.error e) m') : Machine.Spared (m.stack.size - k) m m'

/-- What changes nothing before an error spares every slot. -/
theorem Refuses.sparing {x : Exec α} (hx : Refuses x) : Sparing k x :=
  ⟨fun _ hstop => (hx.error hstop).spared _⟩

/-- Looking may come before what spares. -/
theorem Sparing.after {x : Exec α} {f : α → Exec β} (hx : Looks x) (hf : ∀ a, Sparing k (f a)) :
    Sparing k (x >>= f) where
  error hs hstop := by
    rcases error_of_bind hstop with hfirst | ⟨a, m₁, hfirst, hrest⟩
    · exact (hx.error hfirst).spared _
    · have hsame := hx.ok hfirst
      have hspared := (hf a).error (hs.congr hsame.heap) hrest
      rw [hsame.stack] at hspared
      exact hspared.after hsame

/-- So may taking one more operand. -/
theorem Sparing.popped {f : Value → Exec β} (hf : ∀ v, Sparing k (f v)) :
    Sparing (k + 1) (pop >>= f) where
  error {m e m'} hs hstop := by
    rcases error_of_bind hstop with hfirst | ⟨v, m₁, hfirst, hrest⟩
    · exact absurd hfirst (quiet_pop _ _ _)
    obtain ⟨rfl, -⟩ := pop_eq_ok hfirst
    have hspared := (hf v).error (m := { m with stack := m.stack.pop }) hs hrest
    rw [Array.size_pop, Nat.sub_sub, Nat.add_comm 1 k] at hspared
    refine hspared.restack fun j hj => ?_
    rw [Array.getElem?_pop, if_pos (by omega)]

/-- So may writing the slot of the callee. -/
theorem Sparing.writeAt {count : Nat} {v : Value} {x : Exec α} (hx : Sparing (count + 1) x) :
    Sparing (count + 1) (do let slot ← slotAt count; writeSlot slot v; x) where
  error {m e m'} hs hstop := by
    rcases error_of_bind hstop with hslot | ⟨slot, m₁, hslot, hrest⟩
    · exact absurd hslot (quiet_slotAt _ _ _ _)
    obtain ⟨rfl, rfl⟩ := slotAt_eq_ok hslot
    rcases error_of_bind hrest with hwrite | ⟨_, m₂, hwrite, hrest⟩
    · exact absurd hwrite (quiet_writeSlot _ _ _ _ _)
    have hkeeps := keeping_writeSlot hwrite (Nat.le_refl _)
    obtain ⟨rfl, -⟩ := writeSlot_eq_ok hwrite
    have hspared := hx.error (m := { m₁ with
      stack := m₁.stack.setIfInBounds (m₁.stack.size - 1 - count) v }) hs hrest
    rw [Array.size_setIfInBounds] at hspared
    refine hspared.restack fun j hj => hkeeps.slots j ?_
    omega

/-- Making an object changes the heap alone. -/
theorem alloc_eq_ok {o : Object} {r : Handle} (hdone : alloc o m = .ok r m') :
    ∃ h', m.heap.alloc o (fun _ => m.roots) = .ok (r, h') ∧ m' = { m with heap := h' } := by
  unfold alloc changeHeapRooted at hdone
  dsimp only at hdone
  split at hdone
  · next r' h' hok =>
    obtain ⟨rfl, rfl⟩ := EStateM.Result.ok.inj hdone
    exact ⟨h', hok, rfl⟩
  · cases hdone

/-- A call of a class that an error stops has made the instance at most. -/
theorem sparing_callClass (class_ : Handle) (count : UInt8) :
    Sparing (count.toNat + 1) (callClass class_ count) where
  error {m e m'} hs hstop := by
    rw [callClass_eq] at hstop
    rcases error_of_bind hstop with hfirst | ⟨r, m₁, hmade, hrest⟩
    · exact absurd hfirst (quiet_changeHeapRooted _ _ _ _)
    obtain ⟨h', halloc, rfl⟩ := alloc_eq_ok hmade
    rcases error_of_bind hrest with hslot | ⟨slot, m₂, hslot, hrest⟩
    · exact absurd hslot (quiet_slotAt _ _ _ _)
    obtain ⟨rfl, rfl⟩ := slotAt_eq_ok hslot
    rcases error_of_bind hrest with hwrite | ⟨_, m₃, hwrite, hrest⟩
    · exact absurd hwrite (quiet_writeSlot _ _ _ _ _)
    have hkeeps := keeping_writeSlot hwrite (Nat.le_refl _)
    obtain ⟨rfl, -⟩ := writeSlot_eq_ok hwrite
    have hrefuses : Refuses (initialize_ class_ count) :=
      (looks_look _).before fun init => (looks_findMethod _ _).before fun method => by
        split
        · exact (looks_handleOf _).before fun _ => refuses_callClosure _ _
        · split
          · exact (looks_raise _).refuses
          · exact (looks_pure ()).refuses
    have hmid : Machine.Spared (m.stack.size - (count.toNat + 1)) m { m with
        heap := h'
        stack := m.stack.setIfInBounds (m.stack.size - 1 - count.toNat) (.ofHandle r) } :=
      ⟨rfl, fun _ _ => .rfl, (Heap.spares_alloc hs halloc).mono fun _ => Machine.mem_roots_of_held, rfl,
        fun j hj => hkeeps.slots j (by dsimp only; omega)⟩
    exact hmid.before (hrefuses.error hrest)

/-- A call that an error stops spares the slots below the callee. -/
theorem sparing_callValue (callee : Value) (count : UInt8) :
    Sparing (count.toNat + 1) (callValue callee count) := by
  have hnot : Sparing (count.toNat + 1) (do
      let found ← readHeap (·.typeName callee)
      raise (.notCallable found) : Exec Unit) :=
    (Looks.bind (looks_readHeap _) fun _ => looks_raise _).refuses.sparing
  dsimp only [callValue]
  split
  · exact hnot
  · refine .after (looks_readHeap _) fun o => ?_
    split
    · exact (refuses_callClosure _ _).sparing
    · exact (refuses_callNative _ _).sparing
    · exact sparing_callClass _ _
    · exact .writeAt (refuses_callClosure _ _).sparing
    all_goals exact hnot

/-- So does a call of a property. -/
theorem sparing_invoke (name : Handle) (count : UInt8) :
    Sparing (count.toNat + 1) (invoke name count) := by
  refine .after (looks_peek _) fun receiver => .after (looks_readHeap _) fun found => ?_
  split
  · exact (looks_raiseNotAnInstance receiver).refuses.sparing
  · refine .after (looks_readHeap _) fun key => ?_
    split
    · exact .writeAt (sparing_callValue _ _)
    · exact (refuses_invokeFromClass _ _ _).sparing

/-- Defining an unknown global and taking the definition back leaves the globals what they were. -/
theorem spared_undone {W : World} {key : Key} {v : Value} {name : Handle} {e : RuntimeError}
    (hg : W.TableOk .any m.globals) (hagrees : Table.Agrees m.globals.entries key)
    (hstop : (do
      if ← setGlobal key v then
        eraseGlobal key
        raise (.undefinedVariable (← textOf name)) : Exec Unit) m = .error (.error e) m')
    (low : Nat) : Machine.Spared low m m' := by
  rcases error_of_bind hstop with hset | ⟨isNew, m₁, hset, hrest⟩
  · exact absurd hset (quiet_setGlobal _ _ _ _ _)
  obtain ⟨hnew, rfl⟩ := EStateM.Result.ok.inj hset
  split at hrest
  swap
  · cases hrest
  next hisNew =>
  have hinserted := hg.valid.insert hagrees v
  have habsent : ¬ m.globals.Has key := hinserted.isNew.mp (hnew.trans hisNew)
  have hagrees' : Table.Agrees (m.globals.insert key v).2.entries key := fun k w hmem heq => by
    rcases (hinserted.mem k w).mp hmem with ⟨rfl, -⟩ | ⟨-, hne⟩
    · rfl
    · exact absurd heq hne
  obtain ⟨-, -, herased⟩ := hinserted.valid.erase hagrees'
  have hrefuses : Refuses (do raise (.undefinedVariable (← textOf name)) : Exec Unit) :=
    ((looks_textOf name).bind fun _ => looks_raise _).refuses
  have hmid : Machine.Spared low m { m with
      heap := m.heap.chargeGrowth m.globals.capacity (m.globals.insert key v).2.capacity
      globals := ((m.globals.insert key v).2.erase key).2 } := by
    refine ⟨rfl, fun k w => ?_, .same fun x => rfl, rfl, fun _ _ => rfl⟩
    rw [Table.mem_toList, Table.mem_toList, herased, hinserted.mem]
    constructor
    · rintro ⟨⟨rfl, -⟩ | ⟨hmem, -⟩, hne⟩
      · exact absurd rfl hne
      · exact hmem
    · intro hmem
      have hne : k.string ≠ key.string := fun heq => habsent ⟨k, w, hmem, heq⟩
      exact ⟨.inr ⟨hmem, hne⟩, hne⟩
  exact hmid.before (hrefuses.error hrest)

/-- An assignment to an unknown global leaves the globals what they were. -/
theorem spared_assignGlobal {W : World} {index : UInt16} {e : RuntimeError} (hf : W.Fits m.heap)
    (hg : W.TableOk .any m.globals) (hstop : assignGlobal index m = .error (.error e) m')
    (low : Nat) : Machine.Spared low m m' := by
  rcases error_of_bind hstop with hname | ⟨name, m₁, hname, hrest⟩
  · exact ((looks_constantHandle index).error hname).spared low
  have hsame := (looks_constantHandle index).ok hname
  rw [← hsame.globals] at hg
  have hf := hf.congr hsame.heap.slots
  rcases error_of_bind hrest with hread | ⟨key, m₂, hread, hkeyed⟩
  · exact absurd hread (quiet_readHeap _ _ _ _)
  obtain ⟨rfl, hkey⟩ := readHeap_eq_ok hread
  rcases error_of_bind hkeyed with hpeek | ⟨v, m₃, hpeek, hset⟩
  · exact absurd hpeek (quiet_peek _ _ _ _)
  obtain ⟨rfl, -⟩ := peek_eq_ok hpeek
  exact (spared_undone hg (hg.agrees_of_key hf hkey) hset low).after hsame

/-- An instruction spares all but the operands that it takes or replaces before an error can stop
it. -/
theorem sparing_perform {i : Instr} (hset : ∀ k, i ≠ .setGlobal k) :
    Sparing i.disturbed (perform i) := by
  cases i with
  | constant k => exact ((looks_constant k).before fun v => (quiet_push v).refuses).sparing
  | null | true_ | false_ => exact (quiet_push _).refuses.sparing
  | pop => exact quiet_drop.refuses.sparing
  | duplicate => exact ((looks_peek 0).before fun v => (quiet_push v).refuses).sparing
  | getLocal j => exact (looks_frame.before fun f => (looks_readSlot _).before fun v =>
      (quiet_push v).refuses).sparing
  | setLocal j => exact (looks_frame.before fun f => (looks_peek 0).before fun v =>
      (quiet_writeSlot _ v).refuses).sparing
  | getGlobal k => exact (refuses_getGlobal k).sparing
  | defineGlobal k => exact (refuses_defineGlobal k).sparing
  | setGlobal k => exact absurd rfl (hset k)
  | getUpvalue j => exact ((looks_frameUpvalue _).before fun r => (looks_readUpvalue r).before
      fun v => (quiet_push v).refuses).sparing
  | setUpvalue j => exact ((looks_frameUpvalue _).before fun r => (looks_peek 0).before fun v =>
      (quiet_writeUpvalue r v).refuses).sparing
  | getProperty k => exact (refuses_getProperty k).sparing
  | setProperty k => exact (refuses_setProperty k).sparing
  | getSuper k =>
    refine .after (looks_constantHandle k) fun name => .popped fun v => ?_
    exact .after (looks_handleOf v) fun superclass => (refuses_bindMethod superclass name).sparing
  | equal => exact (Quiet.bind quiet_pop fun b => .bind quiet_pop fun a =>
      quiet_push _).refuses.sparing
  | greater => exact (refuses_arithmetic .greater fun x y => .ofBool (x > y)).sparing
  | less => exact (refuses_arithmetic .less fun x y => .ofBool (x < y)).sparing
  | subtract => exact (refuses_arithmetic .minus fun x y => .ofFloat (x - y)).sparing
  | multiply => exact (refuses_arithmetic .star fun x y => .ofFloat (x * y)).sparing
  | divide => exact (refuses_arithmetic .slash fun x y => .ofFloat (x / y)).sparing
  | add => exact refuses_add.sparing
  | not => exact (Quiet.bind quiet_pop fun v => quiet_push _).refuses.sparing
  | negate => exact refuses_negate.sparing
  | print => exact .popped fun v => .after (looks_readHeap _) fun text =>
      (refuses_printLine text).sparing
  | jump d => exact (quiet_skip _).refuses.sparing
  | jumpIfFalse d =>
    refine (looks_peek 0).before (fun v => ?_) |>.sparing
    split
    · exact (quiet_skip _).refuses
    · exact (quiet_pure ()).refuses
  | loop d => exact (quiet_goBack _).refuses.sparing
  | call count => exact .after (looks_peek _) fun callee => sparing_callValue callee count
  | invoke k count => exact .after (looks_constantHandle k) fun name => sparing_invoke name count
  | superInvoke k count =>
    refine .after (looks_constantHandle k) fun name => .popped fun v => ?_
    exact .after (looks_handleOf v) fun superclass =>
      (refuses_invokeFromClass superclass name count).sparing
  | closure k => exact (quiet_makeClosure k).refuses.sparing
  | closeUpvalue => exact (Quiet.bind (quiet_slotAt 0) fun top =>
      .bind (quiet_closeUpvalues top) fun _ => quiet_drop).refuses.sparing
  | class_ k => exact (Quiet.bind (quiet_constantHandle k) fun name =>
      .bind (quiet_changeHeapRooted _) fun r => quiet_push _).refuses.sparing
  | inherit => exact refuses_inherit.sparing
  | method k => exact (refuses_addMethod k).sparing
  | return_ => exact (quiet_pure ()).refuses.sparing

end Exec

/-! ### Captured variables -/

/-- An instruction that fails disturbs no more than its operands. -/
theorem Instr.disturbed_le (i : Instr) : i.disturbed ≤ i.operands := by
  cases i <;> first | exact Nat.zero_le _ | exact Nat.le_refl _ | exact Nat.le_succ _

/-- A slot that may be captured is below those that no upvalue stands for. -/
theorem lt_of_captured {S T : List Slot} {j : Nat} {c : Content}
    (hfree : ∀ a ∈ T, a.captured = false) (hj : (S ++ T)[j]? = some ⟨c, true⟩) : j < S.length :=
  (List.getElem?_eq_some_iff.mp (SlotsKept.of_append hfree j c hj)).1

/-- No slot that an instruction takes or replaces may be captured. -/
theorem Effect.uncaptured {Γ : CodeContext} {i : Instr} {A B : Shape} {j : Nat} {c : Content}
    (he : Effect Γ i A B) (hj : A.slots[j]? = some ⟨c, true⟩) :
    j < A.slots.length - i.disturbed := by
  have hlt := (List.getElem?_eq_some_iff.mp hj).1
  cases he with
  | @plain i n k S g plain below =>
    have hbelow : j < S.length := lt_of_captured (T := List.replicate n .value)
      (fun a ha => (List.eq_of_mem_replicate ha) ▸ rfl) hj
    have hle : i.disturbed ≤ n := by
      cases plain <;> first | exact Nat.zero_le _ | exact Nat.le_refl _
    simp only [withValues, List.length_append, List.length_replicate]
    omega
  | @getSuper k s S g name below =>
    have hbelow : j < S.length := lt_of_captured (T := [.value, .aClass])
      (by simp [Slot.value, Slot.aClass]) hj
    simp only [List.length_append, List.length_cons, List.length_nil, Instr.disturbed]
    omega
  | @superInvoke k n s S g name below =>
    rw [withValues, List.append_assoc] at hj
    have hbelow : j < S.length := lt_of_captured
      (by simp [or_imp, forall_and, Slot.value, Slot.aClass]) hj
    simp only [withValues, List.length_append, List.length_replicate, List.length_singleton,
      Instr.disturbed]
    omega
  | _ => exact hlt

/-- The error that an outcome reports. -/
def Outcome.error? : Outcome → Option RuntimeError
  | .failed f => some f.error
  | _ => none

namespace Machine

variable {settings : Settings} {journal : Journal} {sink : Sink} {m n n' m' : Machine}
  {e : RuntimeError}

/-- No upvalue stands for a slot that the next instruction takes or replaces. -/
theorem Ready.uncaptured {i : Instr} {r : Handle} {j : Nat} (hm : m.Ready) (hi : m.next? = some i)
    (hr : m.heap.StandsFor r j) : j < m.stack.size - i.disturbed := by
  obtain ⟨f, hback, hdepth, -⟩ := hm.depth hi
  have hle := i.disturbed_le
  obtain ⟨W, O, hm, hp⟩ := hm
  obtain ⟨c, -, hslot⟩ := hm.lists.slot r (hm.lists.all r j hr) j hr
  cases hp with
  | @intro a rest below A outer base lands =>
    obtain ⟨i', E, hword, hfits, hstep⟩ :=
      Exec.exists_step (hm.runs a List.mem_cons_self) lands
    obtain rfl : i' = i := Option.some.inj ((hm.next?_eq hword).symm.trans hi)
    have hslot : (below ++ E.slots)[j]? = some ⟨c, true⟩ :=
      SlotsKept.of_fits (SlotsFit.append (.refl below) hfits.slots) j c hslot
    have hsize : m.stack.size = below.length + E.slots.length := by
      rw [hm.size_stack, List.length_append, hfits.slots.length_eq]
    rcases Nat.lt_or_ge j below.length with hlt | hge
    · obtain rfl : a.frame = f := Option.some.inj ((hm.back_frames rfl).symm.trans hback)
      omega
    · rw [List.getElem?_append_right hge] at hslot
      have hlt : j - below.length < E.slots.length - i'.disturbed := by
        cases hstep with
        | effect effect => exact effect.uncaptured hslot
        | _ => exact (List.getElem?_eq_some_iff.mp hslot).1
      omega

/-! ### Steps and runs -/

/-- `m'` is `m` after an instruction that an error stopped: the globals are the same, and so are the
open upvalues and the slots that they stand for; every object that is left is what it was, and all
are left that the globals, the functions and the open upvalues lead to. -/
structure Unharmed (m m' : Machine) : Prop where
  globals : ∀ k v, (k, v) ∈ m'.globals.toList ↔ (k, v) ∈ m.globals.toList
  heap : m.heap.Spares m.held m'.heap
  kept : ∀ x o, m.heap.Reachable m.held x → m.heap.object? x = some o → m'.heap.object? x = some o
  openUpvalues : m'.openUpvalues = m.openUpvalues
  slots : ∀ r j, m.heap.StandsFor r j → m'.stack[j]? = m.stack[j]?

/-- No function is active, the stack is empty, and no upvalue is open. -/
structure Clean (m : Machine) : Prop where
  stack : m.stack = #[]
  frames : m.frames = #[]
  openUpvalues : m.openUpvalues = []

/-- A machine at rest is clean. -/
theorem Rests.clean (hm : m.Rests) : m.Clean := by
  obtain ⟨W, hm⟩ := hm
  exact ⟨Array.size_eq_zero_iff.mp hm.size_stack,
    Array.toList_eq_nil_iff.mp (List.reverse_eq_nil_iff.mp hm.frames), hm.lists.eq_nil⟩

/-- `m'` is `m` after the report of an error: it is clean, and the upvalues that were open keep the
values of their slots. -/
structure Reported (m m' : Machine) : Prop extends m'.Clean where
  globals : m'.globals = m.globals
  heap : m.heap.Closes m.stack m.openUpvalues m'.heap

/-- A frame that has read a word runs the same closure. -/
theorem fetched_held {f : Frame} {h : Heap} (hback : m.frames.back? = some f) {r : Handle} :
    r ∈ (m.fetched f h).held ↔ r ∈ m.held := by
  have hframes : (∃ g ∈ (m.fetched f h).frames, g.closure = r) ↔ ∃ g ∈ m.frames, g.closure = r := by
    rw [Exec.eq_pop_push hback]
    simp [fetched]
  simp only [held, mem_roots]
  exact or_congr .rfl (or_congr hframes .rfl)

/-- An instruction that an error stops has been read and spares all but its operands. -/
theorem Ready.spared (hm : m.Ready) (hstop : Exec.step m = .error (.error e) m') :
    ∃ f i h, m.frames.back? = some f ∧ m.next? = some i ∧ m.heap.Alike h ∧
      Spared (m.stack.size - i.disturbed) (m.fetched f h) m' := by
  rcases Exec.step_cases m with ⟨f, m₁, hfault⟩ | ⟨f, i, h, hback, hi, halike, hreturn, hperform⟩
  · cases hfault.symm.trans hstop
  have hno : i ≠ .return_ := by
    rintro rfl
    exact Exec.quiet_return _ _ _ ((hreturn rfl).symm.trans hstop)
  have hcarried : Exec.perform i (m.fetched f h) = .error (.error e) m' := by
    rcases Exec.error_of_bind ((hperform hno).symm.trans hstop) with hdone | ⟨_, _, -, hpure⟩
    · exact hdone
    · cases hpure
  obtain ⟨W, O, hm, hp⟩ := hm
  refine ⟨f, i, h, hback, hi, halike, ?_⟩
  by_cases hset : ∃ k, i = .setGlobal k
  · obtain ⟨k, rfl⟩ := hset
    exact Exec.spared_assignGlobal (m := m.fetched f h) (hm.fits.congr halike.slots) hm.globals
      hcarried _
  · exact (Exec.sparing_perform fun k hk => hset ⟨k, hk⟩).error (m := m.fetched f h)
      (hm.sound.congr halike) hcarried

/-- An instruction that an error stops leaves the machine unharmed. -/
theorem Ready.unharmed (hm : m.Ready) (hstop : Exec.step m = .error (.error e) m') :
    m.Unharmed m' := by
  obtain ⟨f, i, h, hback, hi, halike, hspared⟩ := hm.spared hstop
  have huncaptured {r : Handle} {j : Nat} (hr : m.heap.StandsFor r j) := hm.uncaptured hi hr
  have hheap : m.heap.Spares m.held m'.heap :=
    (hspared.heap.mono fun r hr => (fetched_held hback).mpr hr).congr halike.object?
  exact ⟨hspared.globals, hheap, fun x o hx ho => hheap.object? hx ho, hspared.openUpvalues,
    fun r j hr => hspared.slots j (huncaptured hr)⟩

/-- A run that an error stops gets to the instruction that the error stops. -/
theorem exists_stopped {fuel : Nat} (hrun : Exec.run fuel m = .error (.error e) m') :
    ∃ k n, Exec.run k m = .ok .running n ∧ Exec.step n = .error (.error e) m' := by
  induction fuel generalizing m with
  | zero => cases hrun
  | succ fuel ih =>
    rcases Exec.error_of_bind hrun with hstop | ⟨progress, m₁, hstep, hrest⟩
    · exact ⟨0, m, rfl, hstop⟩
    · cases progress with
      | finished => cases hrest
      | running =>
        obtain ⟨k, n, hbefore, hstop⟩ := ih hrest
        exact ⟨k + 1, n, (Exec.bind_eq hstep).trans hbefore, hstop⟩

/-- An error of a script is reported. -/
theorem Shows.reported {W : World} {O : Outline} {f : Failure} (hm : m.Shows W O)
    (hdone : m.settle (.error e) = (.failed f, m')) : f.error = e ∧ m.Reported m' := by
  obtain ⟨f', m₁, heq, herror, hrests, hcloses, hglobals, -⟩ := Exec.failure_eq e hm
  simp only [settle, heq, Prod.mk.injEq, Outcome.failed.injEq] at hdone
  obtain ⟨rfl, rfl⟩ := hdone
  exact ⟨herror, hrests.clean, hglobals, hcloses⟩

/-- A script that cannot be entered has changed no global. -/
theorem enter_globals {r : Handle} (hstop : Exec.enter r m = .error (.error e) m') :
    m'.globals = m.globals := by
  rcases Exec.error_of_bind hstop with hpush | ⟨_, m₁, hpush, hrest⟩
  · exact absurd hpush (Exec.quiet_push _ _ _ _)
  obtain ⟨-, rfl⟩ := EStateM.Result.ok.inj hpush
  rcases Exec.error_of_bind hrest with halloc | ⟨closure, m₂, halloc, hrest₂⟩
  · exact absurd halloc (Exec.quiet_changeHeapRooted _ _ _ _)
  obtain ⟨h', -, rfl⟩ := Exec.alloc_eq_ok halloc
  rcases Exec.error_of_bind hrest₂ with hdrop | ⟨_, m₃, hdrop, hrest₃⟩
  · exact absurd hdrop (Exec.quiet_drop _ _ _)
  obtain ⟨v, m₄, hpop, hpure⟩ := Exec.exists_of_bind_ok hdrop
  obtain ⟨rfl, -⟩ := Exec.pop_eq_ok hpop
  obtain ⟨-, rfl⟩ := EStateM.Result.ok.inj hpure
  rcases Exec.error_of_bind hrest₃ with hpush' | ⟨_, m₅, hpush', hcall⟩
  · exact absurd hpush' (Exec.quiet_push _ _ _ _)
  obtain ⟨-, rfl⟩ := EStateM.Result.ok.inj hpush'
  exact ((Exec.refuses_callClosure closure 0).error hcall).globals

/-- A script that cannot be entered leaves the machine clean, with the globals that it had. -/
theorem Rests.load_failed {source : String} {f : Failure} (hm : m.Rests)
    (hdone : m.load source = (.failed f, m')) : m'.globals = m.globals ∧ m'.Clean := by
  obtain ⟨W, hm⟩ := hm
  have hcompiled := hm.compiled source
  have hglobals : (m.compile source).2.globals = m.globals := rfl
  rw [load] at hdone
  generalize m.compile source = made at hcompiled hglobals hdone
  obtain ⟨result, m₁⟩ := made
  cases hcompiled with
  | @function V r _ shows known =>
    have henter := Exec.does_enter shows known
    dsimp only at hdone
    cases hr : Exec.enter r m₁ with
    | ok _ m₂ =>
      rw [hr] at hdone
      cases hdone
    | error halt m₂ =>
      rw [hr] at hdone henter
      cases halt with
      | fault _ => cases hdone
      | error e =>
        obtain ⟨V', O, hstopped⟩ := henter
        obtain ⟨-, hreported⟩ := hstopped.reported hdone
        exact ⟨hreported.globals.trans ((enter_globals hr).trans hglobals), hreported.toClean⟩
  | errors shows => cases hdone
  | full => cases hdone

/-- A run that fails gets to an instruction that the error stops; the error is reported then. -/
theorem Ready.resume_failed {fuel : Nat} {f : Failure} (hm : m.Ready)
    (hdone : m.resume fuel = (.failed f, m')) :
    ∃ k n n', Exec.run k m = .ok .running n ∧ Exec.step n = .error (.error f.error) n' ∧
      n.Unharmed n' ∧ n'.Reported m' ∧ ∀ r j v, n.heap.StandsFor r j → n.stack[j]? = some v →
        m'.heap.object? r = some (.upvalue (.closed v)) := by
  rw [resume] at hdone
  cases hr : Exec.run fuel m with
  | ok progress n =>
    rw [hr] at hdone
    cases progress <;> cases hdone
  | error halt n' =>
    rw [hr] at hdone
    cases halt with
    | fault _ => cases hdone
    | error e =>
      have hstopped := Exec.does_run fuel hm
      rw [hr] at hstopped
      obtain ⟨W, O, hstopped⟩ := hstopped
      obtain ⟨rfl, hreported⟩ := hstopped.reported hdone
      obtain ⟨k, n, hbefore, hstop⟩ := exists_stopped hr
      have hready : n.Ready := by
        have hruns := Exec.does_run k hm
        rw [hbefore] at hruns
        rcases hruns with ⟨-, hready⟩ | ⟨hfinished, -⟩
        · exact hready
        · cases hfinished
      have hunharmed := hready.unharmed hstop
      refine ⟨k, n, n', hbefore, hstop, hunharmed, hreported, fun r j v hstands hv => ?_⟩
      -- the upvalue is open and stands for the same slot when the error is reported
      obtain ⟨V, O', hshows, -⟩ := hready
      have hopen := hshows.lists.all r j hstands
      have hheld : r ∈ n.held := mem_roots.mpr (.inr (.inr (.inl hopen)))
      have hstands' : n'.heap.StandsFor r j := hunharmed.kept r _ (.root hheld) hstands
      obtain ⟨j', v', hj', hv', hclosed⟩ :=
        hreported.heap.closed r (hunharmed.openUpvalues ▸ hopen)
      obtain rfl := hstands'.inj hj'
      rw [hunharmed.slots r j hstands, hv, Option.some.injEq] at hv'
      exact hv' ▸ hclosed

/-- An instruction that an error of the script stops changes no global, no object that is left but
for a new instance without fields, and no captured variable, and frees nothing that the globals lead
to. When the error is reported, no function is active and the stack is empty; the globals are as
they were before the instruction, and every upvalue that was open has the value that its slot had.
No source that fails leaves anything active behind. -/
theorem sessions_fail_cleanly (settings : Settings) (journal : Journal) (sink : Sink) :
    (∀ m, Reached settings journal sink .running m →
      (∀ e m', Exec.step m = .error (.error e) m' → m.Unharmed m') ∧
      ∀ fuel f m', m.resume fuel = (.failed f, m') →
        ∃ k n n', Exec.run k m = .ok .running n ∧ Exec.step n = .error (.error f.error) n' ∧
          n.Unharmed n' ∧ n'.Reported m' ∧ ∀ r j v, n.heap.StandsFor r j → n.stack[j]? = some v →
            m'.heap.object? r = some (.upvalue (.closed v))) ∧
    ∀ m, Reached settings journal sink .resting m →
      (∀ source f m', m.load source = (.failed f, m') → m'.globals = m.globals ∧ m'.Clean) ∧
      ∀ fuel source f m', m.interpret fuel source = (.failed f, m') → m'.Clean := by
  refine ⟨fun m hm => ⟨fun e m' hstop => hm.inPhase.unharmed hstop,
    fun fuel f m' hdone => hm.inPhase.resume_failed hdone⟩, fun m hm =>
    ⟨fun source f m' hdone => hm.inPhase.load_failed hdone, fun fuel source f m' hdone => ?_⟩⟩
  have hleads := leads_interpret fuel source hm.inPhase
  rw [hdone] at hleads
  cases hleads with
  | failed hrests => exact hrests.clean

/-- An assignment to an unknown global fails cleanly. -/
theorem unknown_assignment_fails_cleanly : ∃ m f m',
    Reached Settings.standard Journal.off Sink.unlimited .running m ∧
    m.resume 9 = (.failed f, m') ∧ f.error = .undefinedVariable "x" ∧
    ∃ n n', Unharmed n n' ∧ Reported n' m' := by
  have hruns : (create Settings.standard Journal.off Sink.unlimited).toOption.any (fun m =>
      decide ((m.load "x = null;").1.phase? = some .running) &&
        decide (((m.load "x = null;").2.resume 9).1.error? =
          some (.undefinedVariable "x"))) = true := by decide +kernel
  obtain ⟨m, hcreated, hruns⟩ := exists_created hruns
  simp only [Bool.and_eq_true, decide_eq_true_eq] at hruns
  obtain ⟨hload, herror⟩ := hruns
  have hreached : Reached Settings.standard Journal.off Sink.unlimited .running
      (m.load "x = null;").2 := (Reached.created hcreated).loaded rfl hload
  generalize (m.load "x = null;").2 = m₁ at hreached herror
  cases hdone : m₁.resume 9 with
  | mk outcome m' =>
    rw [hdone] at herror
    cases outcome with
    | failed f =>
      obtain ⟨hrun, -⟩ := sessions_fail_cleanly Settings.standard Journal.off Sink.unlimited
      obtain ⟨-, n, n', -, -, hunharmed, hreported, -⟩ := (hrun m₁ hreached).2 9 f m' hdone
      exact ⟨m₁, f, m', hreached, hdone, Option.some.inj herror, n, n', hunharmed, hreported⟩
    | _ => cases herror

end Machine

end ScriptMachine
