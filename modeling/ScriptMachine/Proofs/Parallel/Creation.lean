import ScriptMachine.Proofs.Parallel.Running
import ScriptMachine.Proofs.Session.Safety

/-!
# Machines that are made

Making a machine interns the name of initializers and defines the native functions; nothing is
printed. Machines that are made with the same number of frames and the same sink correspond,
whatever their pacings and their journals are.
-/

namespace ScriptMachine

/-! ### Native functions -/

namespace Exec

open Pairing

variable {p : Pairing} {m n : Machine}

/-- The same built-in function is defined. -/
theorem agree_defineNative (f : Native) (hm : p.Machines m n) :
    Agree p Any (defineNative f m) (defineNative f n) := by
  refine (agree_intern hm).bind fun q x y m n _ hm hname => ?_
  have hpushed : q.Machines { m with stack := m.stack.push (.ofHandle x) }
      { n with stack := n.stack.push (.ofHandle y) } :=
    { hm with stack := hm.stack.push (.values (.reference hname.pair)) }
  have hkept {m : Machine} {x : Handle} :
      Machine.Keeps { m with stack := m.stack.push (.ofHandle x) } x :=
    Machine.keeps_stack Array.mem_push_self (Value.toHandle?_ofHandle x)
  show Agree q Any ((alloc (.native f) >>= _) _) ((alloc (.native f) >>= _) _)
  refine (agree_alloc hpushed .native nofun nofun).bind fun s r r' m n _ hm hg => ?_
  refine (agree_push hm (.reference hg.pair)).andThen fun _ _ m n hm => ?_
  refine agree_readHeap (hm.heaps.key (hg.held hname.pair hkept hkept)) fun k l _ _ hkey => ?_
  refine (agree_setGlobal hm hkey (.reference hg.pair)).bind fun q _ _ m n _ hm hsame => ?_
  exact agree_drop hm fun m n hm => (agree_drop_last hm).any

/-- The same built-in functions are defined, by induction on them. -/
theorem agree_defineNatives (fs : List Native) (hm : p.Machines m n) :
    Agree p Any (defineNatives fs m) (defineNatives fs n) := by
  induction fs generalizing p m n with
  | nil => exact agree_pure hm trivial
  | cons f fs ih => exact (agree_defineNative f hm).bind fun _ _ _ _ _ _ hm _ => ih hm

end Exec

namespace Pairing

variable {p : Pairing} {m n : Machine} {h : Heap}

/-- Nothing is paired yet, and everything counts. -/
def nothing : Pairing where
  Pairs _ _ := False
  unique := ⟨fun _ _ _ h => h.elim, fun _ _ _ h => h.elim⟩
  terms := ⟨True, none, fun _ _ => True⟩

/-- Empty heaps correspond, whatever their pacings are. -/
theorem heaps_empty (pacing pacing' : Pacing) (journal journal' : Journal) :
    nothing.Heaps (Heap.empty pacing journal) (Heap.empty pacing' journal') :=
  ⟨Heap.sound_empty _ _, Heap.sound_empty _ _, fun _ _ h => h.elim, fun _ _ _ h => h.elim⟩

end Pairing

/-! ### What is printed -/

namespace Exec

variable {α β : Type}

/-- A step that prints nothing where it succeeds. -/
def Silent (x : Exec α) : Prop := ∀ m a m', x m = .ok a m' → m'.sink = m.sink

/-- Silent actions are silent one after the other. -/
theorem Silent.bind {x : Exec α} {f : α → Exec β} (hx : Silent x) (hf : ∀ a, Silent (f a)) :
    Silent (x >>= f) := fun m b m' hdone => by
  obtain ⟨a, m₁, hfirst, hrest⟩ := exists_of_bind_ok hdone
  exact (hf a _ _ _ hrest).trans (hx _ _ _ hfirst)

/-- Giving a value back prints nothing. -/
theorem silent_pure (a : α) : Silent (pure a : Exec α) := fun _ _ _ hdone => by
  cases hdone
  rfl

/-- Pushing prints nothing. -/
theorem silent_push (v : Value) : Silent (push v) := fun _ _ _ hdone => by
  cases hdone
  rfl

/-- Dropping prints nothing. -/
theorem silent_drop : Silent drop := by
  refine Silent.bind (fun m v m' hdone => ?_) fun _ => silent_pure _
  unfold pop at hdone
  split at hdone <;> cases hdone
  rfl

/-- Reading the heap prints nothing. -/
theorem silent_readHeap (f : Heap → Except Fault α) : Silent (readHeap f) := fun m a m' hdone => by
  unfold readHeap at hdone
  split at hdone <;> cases hdone
  rfl

/-- Allocating prints nothing. -/
theorem silent_changeHeapRooted (f : Heap → (Unit → List Handle) → Except Fault (α × Heap)) :
    Silent (changeHeapRooted f) := fun m a m' hdone => by
  unfold changeHeapRooted at hdone
  dsimp only at hdone
  split at hdone <;> cases hdone
  rfl

/-- Setting a global variable prints nothing. -/
theorem silent_setGlobal (k : Key) (v : Value) : Silent (setGlobal k v) := fun _ _ _ hdone => by
  cases hdone
  rfl

/-- Defining built-in functions prints nothing, by induction on them. -/
theorem silent_defineNatives (fs : List Native) : Silent (defineNatives fs) := by
  induction fs with
  | nil => exact silent_pure ()
  | cons f fs ih =>
    refine .bind ?_ fun _ => ih
    exact .bind (silent_changeHeapRooted _) fun _ => .bind (silent_push _) fun _ =>
      .bind (silent_changeHeapRooted _) fun _ => .bind (silent_push _) fun _ =>
      .bind (silent_readHeap _) fun _ => .bind (silent_setGlobal _ _) fun _ =>
      .bind silent_drop fun _ => silent_drop

end Exec

/-- What comes of making a machine. -/
theorem Machine.exists_of_create {settings : Settings} {journal : Journal} {sink : Sink} {m : Machine}
    (hm : create settings journal sink = .ok m) : ∃ r h,
      (Heap.empty settings.pacing journal).InternedAs [] "init" r h ∧
      Exec.defineNatives Native.all
        ⟨h, Table.empty, #[], #[], [], r, settings.framesMax, sink, 0⟩ = .ok () m := by
  have hcovers : (Heap.empty settings.pacing journal).Covers [] := fun x hx =>
    absurd hx Heap.not_reachable_nil
  rw [create] at hm
  rcases (Heap.sound_empty settings.pacing journal).intern "init" hcovers with
    ⟨r, h, heq, hi⟩ | heq
  · rw [heq] at hm
    refine ⟨r, h, hi, ?_⟩
    dsimp only [bind, Except.bind] at hm
    have hquiet := Exec.quiet_defineNatives Native.all
      ⟨h, Table.empty, #[], #[], [], r, settings.framesMax, sink, 0⟩
    split at hm
    · next hdone =>
      rw [hdone, Except.ok.inj hm]
    · cases hm
    · next hdone => exact absurd hdone (hquiet _ _)
  · rw [heq] at hm
    cases hm

namespace Pairing

/-- Machines with the same number of frames and the same sink correspond when they are made. -/
theorem exists_created {settings settings' : Settings} {journal journal' : Journal} {sink : Sink}
    {m n : Machine} (hframes : settings.framesMax = settings'.framesMax)
    (hm : Machine.create settings journal sink = .ok m)
    (hn : Machine.create settings' journal' sink = .ok n) :
    ∃ q : Pairing, q.terms.Exact ∧ q.Machines m n := by
  obtain ⟨r, h, hi, hdone⟩ := Machine.exists_of_create hm
  obtain ⟨r', h', hi', hdone'⟩ := Machine.exists_of_create hn
  obtain ⟨q, hq, hpair, hkept⟩ :=
    (heaps_empty settings.pacing settings'.pacing journal journal').intern hi hi'
  have hstart : q.Machines ⟨h, Table.empty, #[], #[], [], r, settings.framesMax, sink, 0⟩
      ⟨h', Table.empty, #[], #[], [], r', settings'.framesMax, sink, 0⟩ :=
    { heaps := hq
      globals := tables_empty
      stack := alongside_empty
      frames := alongside_empty
      runs := fun f hf => absurd hf (Array.not_mem_empty f)
      runs' := fun f hf => absurd hf (Array.not_mem_empty f)
      starts := fun _ he => by cases hkept.terms ▸ he
      starts' := fun _ he => by cases hkept.terms ▸ he
      openUpvalues := .nil
      initName := hpair
      framesMax := hframes
      sink := rfl
      clock := rfl }
  have hdefined := Exec.agree_defineNatives Native.all hstart
  rw [hdone, hdone'] at hdefined
  cases hdefined with
  | ok terms machines _ =>
    exact ⟨_, terms ▸ hkept.terms ▸ ⟨trivial, rfl, fun _ _ => trivial⟩, machines⟩

end Pairing

/-- A machine that was made has the sink it was made with. -/
theorem Machine.sink_of_create {settings : Settings} {journal : Journal} {sink : Sink} {m : Machine}
    (hm : create settings journal sink = .ok m) : m.sink = sink := by
  obtain ⟨r, h, -, hdone⟩ := exists_of_create hm
  exact Exec.silent_defineNatives _ _ _ _ hdone

end ScriptMachine
