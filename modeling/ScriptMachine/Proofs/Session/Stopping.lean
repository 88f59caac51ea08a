import ScriptMachine.Machine.Session
import ScriptMachine.Proofs.Machine.Running

/-!
# Entering scripts and reporting errors

A known script is entered on an empty stack and is at its first instruction then. An error of a
script can be reported of whatever the machine shows; afterwards the machine rests, and no upvalue
stands for a slot any more.
-/

namespace ScriptMachine

/-- How a trace names a function: a script has no name of its own. -/
def Prototype.Titled (h : Heap) (f : Prototype) (title : String) : Prop :=
  match f.name with
  | none => title = "script"
  | some r => ∃ s, h.object? r = some (.string s) ∧ title = s.chars ++ "()"

/-- The entry of a trace for an active function has its name and the line of the word before its
next one. -/
structure Activation.Traced (h : Heap) (a : Activation) (e : TraceEntry) : Prop where
  function : a.prototype.Titled h e.function
  line : e.line = a.prototype.chunk.lineAt (a.frame.ip - 1)

end ScriptMachine

namespace ScriptMachine.Exec

variable {α β : Type} {m : Machine} {W : World} {O : Outline} {r : Handle}

/-! ### Entering -/

/-- A known script is entered at its first instruction. -/
theorem does_enter (hm : m.Shows W ⟨[], none, []⟩) (hr : W r = some (.function [])) :
    Does (enter r m) fun _ m' => m'.Ready := by
  refine (does_push (x := .value) hm (World.holds_ofHandle hr)).bind fun _ m₁ hm₁ => ?_
  have hdescribes : W.Describes .closure (.closure ⟨r, #[]⟩) := .closure hr .nil
  refine (does_alloc hm₁ hdescribes (by simp) (by simp)).bind fun c m₂ h => ?_
  obtain ⟨V, hm₂, ht, -⟩ := h
  refine (does_drop hm₂ rfl).bind fun _ m₃ hm₃ => ?_
  refine (does_push (x := .value) hm₃ (World.holds_ofHandle ht)).bind fun _ m₄ hm₄ => ?_
  exact does_callClosure (T := []) hm₄ .nil ht

/-! ### Native functions -/

/-- A step that no error of a script stops. -/
def Quiet (x : Exec α) : Prop := ∀ m e m', x m ≠ .error (.error e) m'

/-- What no error stops is stopped by none when it is done in sequence. -/
theorem Quiet.bind {x : Exec α} {f : α → Exec β} (hx : Quiet x) (hf : ∀ a, Quiet (f a)) :
    Quiet (x >>= f) := by
  intro m e m' heq
  rw [show (x >>= f) m = EStateM.bind x f m from rfl, EStateM.bind] at heq
  split at heq
  · exact hf _ _ _ _ heq
  · next hr =>
    obtain ⟨rfl, rfl⟩ := EStateM.Result.error.inj heq
    exact hx _ _ _ hr

/-- Giving a value back is stopped by no error. -/
theorem quiet_pure (a : α) : Quiet (pure a : Exec α) := fun _ _ _ heq => by cases heq

/-- Pushing is stopped by no error. -/
theorem quiet_push (v : Value) : Quiet (push v) := fun _ _ _ heq => by cases heq

/-- Dropping is stopped by no error: an empty stack is a fault. -/
theorem quiet_drop : Quiet drop := by
  refine Quiet.bind (fun m e m' heq => ?_) fun _ => quiet_pure _
  unfold pop at heq
  split at heq <;> cases heq

/-- Reading the heap is stopped by no error: it knows faults only. -/
theorem quiet_readHeap (f : Heap → Except Fault α) : Quiet (readHeap f) := by
  intro m e m' heq
  unfold readHeap at heq
  split at heq <;> cases heq

/-- Allocating is stopped by no error: a full heap is a fault. -/
theorem quiet_changeHeapRooted (f : Heap → (Unit → List Handle) → Except Fault (α × Heap)) :
    Quiet (changeHeapRooted f) := by
  intro m e m' heq
  unfold changeHeapRooted at heq
  dsimp only at heq
  split at heq <;> cases heq

/-- Setting a global variable is stopped by no error. -/
theorem quiet_setGlobal (k : Key) (v : Value) : Quiet (setGlobal k v) := fun _ _ _ heq => by
  cases heq

/-- Defining a built-in function is stopped by no error. -/
theorem quiet_defineNative (n : Native) : Quiet (defineNative n) :=
  .bind (quiet_changeHeapRooted _) fun _ => .bind (quiet_push _) fun _ =>
    .bind (quiet_changeHeapRooted _) fun _ => .bind (quiet_push _) fun _ =>
    .bind (quiet_readHeap _) fun _ => .bind (quiet_setGlobal _ _) fun _ =>
    .bind quiet_drop fun _ => quiet_drop

/-- Defining built-in functions is stopped by no error, by induction on them. -/
theorem quiet_defineNatives (ns : List Native) : Quiet (defineNatives ns) := by
  induction ns with
  | nil => exact quiet_pure ()
  | cons n ns ih => exact .bind (quiet_defineNative n) fun _ => ih

/-- Defining a native function leaves the machine at rest. -/
theorem does_defineNative {n : Native} (hm : m.Rests)
    (hn : n.action = .clock ∨ n.arity = some 1) : Does (defineNative n m) fun _ m' => m'.Rests := by
  obtain ⟨W, hm⟩ := hm
  refine (does_intern n.name hm).bind fun name m₁ h => ?_
  obtain ⟨W₁, hm₁, hname⟩ := h
  have hm₂ : Machine.Shows { m₁ with stack := m₁.stack.push (.ofHandle name) } W₁
      ⟨[.value], none, []⟩ := does_push (x := .value) hm₁ (World.holds_ofHandle hname)
  have hkeeps : Machine.Keeps { m₁ with stack := m₁.stack.push (.ofHandle name) } name :=
    .root (Machine.mem_roots.mpr (.inl ⟨_, Array.mem_push_self, Value.toHandle?_ofHandle name⟩))
  refine does_bind_ok (n := { m₁ with stack := m₁.stack.push (.ofHandle name) }) rfl ?_
  refine (does_alloc hm₂ (.native hn) (by simp) (by simp)).bind fun r m₃ h => ?_
  obtain ⟨W₃, hm₃, hr, hkept⟩ := h
  have hname₃ : W₃ name = some (.text n.name) := hkept name _ (.inl hkeeps) hname
  refine (does_push (x := .value) hm₃ (World.holds_ofHandle hr)).bind fun _ m₄ hm₄ => ?_
  refine does_bind_ok (readHeap_eq (hm₄.fits.key hname₃)) ?_
  refine (does_setGlobal hm₄ ⟨n.name, hname₃, rfl⟩ (World.holds_ofHandle hr)).bind
    fun _ m₅ h => ?_
  refine (does_drop (S := [.value]) h.1 rfl).bind fun _ m₆ hm₆ => ?_
  exact (does_drop (S := []) hm₆ rfl).imp fun _ m' hm' => ⟨W₃, hm'⟩

/-- A machine at rest stays so when built-in functions are defined. -/
theorem does_defineNatives {ns : List Native} (hm : m.Rests)
    (hns : ∀ n ∈ ns, n.action = .clock ∨ n.arity = some 1) :
    Does (defineNatives ns m) fun _ m' => m'.Rests := by
  induction ns generalizing m with
  | nil => exact hm
  | cons n ns ih =>
    obtain ⟨hn, hns⟩ := List.forall_mem_cons.mp hns
    exact (does_defineNative hm hn).bind fun _ _ hm' => ih hm' hns

/-! ### Reporting an error -/

/-- There is an entry for an active function. -/
theorem exists_traceEntry {a : Activation} (hm : m.Shows W O) (ha : a ∈ O.active) :
    ∃ entry, traceEntry a.frame m = .ok entry m ∧ a.Traced m.heap entry := by
  have hr := hm.runs a ha
  have hclosure : m.heap.closure a.frame.closure = .ok a.closure := by
    simp only [Heap.closure, Heap.object, hr.closure]
  obtain ⟨captures, hknown⟩ := hr.known
  obtain ⟨f, hf, hobject, hd⟩ := hm.fits.prototype hknown
  obtain rfl := Object.function.inj (Option.some.inj (hr.function.symm.trans hobject))
  rw [traceEntry, bind_eq (readHeap_eq hclosure), bind_eq (readHeap_eq hf), hr.chunk]
  cases hd with
  | function name _ _ =>
    cases hname : a.prototype.name with
    | none => exact ⟨_, rfl, by rw [Prototype.Titled, hname], rfl⟩
    | some x =>
      obtain ⟨chars, hchars⟩ := name x hname
      have hstring := hm.fits.string hchars
      have htext : textOf x m = .ok chars m := by
        rw [textOf, bind_eq (readHeap_eq (f := (·.string x)) hstring)]
        rfl
      refine ⟨_, bind_eq htext, ?_, rfl⟩
      rw [Prototype.Titled, hname]
      exact ⟨_, Heap.object?_of_string hstring, rfl⟩

/-- What looks at each of some things, and leaves the machine as it is, looks at all of them. -/
theorem exists_mapM_look {P : α → β → Prop} {f : α → Exec β} {xs : List α}
    (hf : ∀ x ∈ xs, ∃ b, f x m = .ok b m ∧ P x b) :
    ∃ bs, xs.mapM f m = .ok bs m ∧ List.Forall₂ P xs bs := by
  induction xs with
  | nil => exact ⟨[], rfl, .nil⟩
  | cons x xs ih =>
    obtain ⟨⟨b, hb, hfirst⟩, hrest⟩ := List.forall_mem_cons.mp hf
    obtain ⟨bs, hbs, hothers⟩ := ih hrest
    refine ⟨b :: bs, ?_, .cons hfirst hothers⟩
    rw [List.mapM_cons, bind_eq hb, bind_eq hbs]
    rfl

/-- The report of an error has an entry for each active function, and the line of the first. It
closes every upvalue, and then nothing is active. -/
theorem failure_closes (e : RuntimeError) (hm : m.Shows W O) : ∃ f h m₁,
    failure e m = .ok f { m₁ with stack := #[], frames := #[] } ∧ f.error = e ∧ m.heap.Alike h ∧
    closeUpvalues 0 { m with heap := h } = .ok () m₁ ∧
    f.line = (f.trace.head?.map TraceEntry.line).getD 0 ∧
    List.Forall₂ (Activation.Traced m.heap) O.active f.trace := by
  obtain ⟨trace, htrace, hentries⟩ := exists_mapM_look fun a ha => exists_traceEntry hm ha
  replace htrace : m.frames.toList.reverse.mapM traceEntry m = .ok trace m := by
    rw [hm.frames, List.mapM_map]
    exact htrace
  have hlook : look (fun m => m.frames.toList.reverse) m = .ok m.frames.toList.reverse m := rfl
  obtain ⟨noted, hnoted⟩ : ∃ h, h = m.heap.note .debug fun _ =>
      s!"runtime error at line {(trace.head?.map TraceEntry.line).getD 0}: {e.message}" := ⟨_, rfl⟩
  have halike : m.heap.Alike noted := hnoted ▸ Heap.alike_note _ _ _
  obtain ⟨h', upper, lower, hclose, -⟩ := closeUpvalues_eq 0 (hm.alike halike)
  refine ⟨⟨e, (trace.head?.map TraceEntry.line).getD 0, trace⟩, noted, _, ?_, rfl, halike, hclose,
    rfl, hentries⟩
  rw [failure, bind_eq hlook, bind_eq htrace,
    bind_eq (n := { m with heap := noted }) (by rw [hnoted]; rfl), bind_eq hclose]
  rfl

/-- An error can be reported of whatever the machine shows. Then it rests, with the same globals and
the same sink, and every upvalue has the value that was read through it. The report has an entry for
each active function, and the line of the first. -/
theorem failure_eq (e : RuntimeError) (hm : m.Shows W O) : ∃ f m', failure e m = .ok f m' ∧
    f.error = e ∧ m'.Rests ∧ m.heap.Closes m.stack m.openUpvalues m'.heap ∧
    m'.globals = m.globals ∧ m'.sink = m.sink ∧
    f.line = (f.trace.head?.map TraceEntry.line).getD 0 ∧
    List.Forall₂ (Activation.Traced m.heap) O.active f.trace := by
  obtain ⟨f, noted, m₁, hfailure, hf, halike, hclose, hline, hentries⟩ := failure_closes e hm
  obtain ⟨h', upper, lower, hclosed, htyped, hsplit, hcloses⟩ :=
    closeUpvalues_eq 0 (hm.alike halike)
  obtain ⟨-, rfl⟩ := EStateM.Result.ok.inj (hclose.symm.trans hclosed)
  -- every slot goes, so no upvalue stays listed
  have hlists : W.Lists h' [] lower := (hm.alike halike).lists.close (S := []) hsplit hcloses
  obtain rfl : lower = [] := hlists.eq_nil
  have hwhole : m.openUpvalues = upper := hsplit.whole.trans (List.append_nil upper)
  refine ⟨f, { m with heap := h', openUpvalues := [], stack := #[], frames := #[] }, hfailure, hf,
    ⟨W, ⟨{ htyped with
      stack := .nil
      frames := rfl
      runs := fun _ ha => absurd ha List.not_mem_nil
      known := fun _ hs => by cases hs }, hlists⟩⟩, ?_, rfl, rfl, hline, hentries⟩
  rw [hwhole]
  refine ⟨fun r hr => ?_, fun x hx => (hcloses.kept x hx).trans (halike.object? x)⟩
  obtain ⟨j, v, hj, hv, hclosed⟩ := hcloses.closed r hr
  exact ⟨j, v, (halike.object? r).symm.trans hj, hv, hclosed⟩

end ScriptMachine.Exec
