import ScriptMachine.Proofs.Session.Comparing
import ScriptMachine.Proofs.Session.Methods

/-!
# Searches for methods

Four instructions look for a method: reading and calling a property of an instance that has no field
of the name, in the class of the instance, and the two for superclasses, in the class on top of the
stack. What they find is what the class has under the name. A method that is read is bound, one that
is called is entered or refused, and where there is none the step stops with that error.
-/

namespace ScriptMachine

namespace Exec

variable {m n : Machine} {v : Value} {x y z : Handle} {k : UInt16} {count : UInt8} {text : String}

/-- Looking from the top depends on the stack only. -/
theorem peek_congr {j : Nat} (hpeek : peek j m = .ok v m) (hstack : n.stack = m.stack) :
    peek j n = .ok v n := by
  have hget := (peek_eq_ok hpeek).2
  unfold peek at hpeek ⊢
  split at hpeek
  · next hlt => rw [hstack, if_pos hlt, hget]
  · cases hpeek

/-- With the next word read, a constant is the same. -/
theorem constantHandle_of_fetched {f : Frame} {h : Heap} (hname : constantHandle k m = .ok z m)
    (hback : m.frames.back? = some f) :
    constantHandle k (m.fetched f h) = .ok z (m.fetched f h) := by
  obtain ⟨-, g, w, hg, hw, hat⟩ := constantHandle_found hname
  obtain rfl : f = g := Option.some.inj (hback.symm.trans hg)
  have hframe : frame (m.fetched f h) = .ok { f with ip := f.ip + 1 } (m.fetched f h) := by
    rw [frame, show (m.fetched f h).frames.back? = _ from Array.back?_push]
  have hconstant : constant k (m.fetched f h) = .ok w (m.fetched f h) := by
    rw [constant, bind_eq hframe]
    dsimp only
    rw [hw]
    rfl
  rw [constantHandle, bind_eq hconstant, handleOf, hat]
  rfl

/-- Finding a method depends on the objects only. -/
theorem findMethod_of_alike {found : Option Value} (hfound : findMethod x z m = .ok found m)
    (halike : m.heap.Alike n.heap) : findMethod x z n = .ok found n := by
  obtain ⟨-, key, c, hkey, hc, rfl⟩ := findMethod_eq_ok hfound
  have hclass : n.heap.class_ x = .ok c := by
    rw [Heap.class_, Heap.object, halike.object?, hc]
  exact (bind_eq (readHeap_eq ((halike.key z).trans hkey))).trans
    ((bind_eq (readHeap_eq hclass)).trans rfl)

/-- A search in vain stops with the name. -/
theorem raiseUndefinedProperty_eq {α : Type} {s : Interned}
    (hs : n.heap.object? z = some (.string s)) :
    (raiseUndefinedProperty z : Exec α) n = .error (.error (.undefinedProperty s.chars)) n := by
  have hread : n.heap.string z = .ok s := by rw [Heap.string, Heap.object, hs]
  have htext : textOf z n = .ok s.chars n := (bind_eq (readHeap_eq hread)).trans rfl
  exact bind_eq htext

/-- A call of a closure that is there enters it, or is refused for its arguments or for want of
room. -/
theorem callClosure_cases {c : Closure} {f : Prototype}
    (hc : n.heap.object? y = some (.closure c)) (hf : n.heap.object? c.function = some (.function f))
    (hcount : count.toNat < n.stack.size) :
    callClosure y count n = .ok () { n with
        frames := n.frames.push ⟨y, f.chunk, 0, n.stack.size - 1 - count.toNat⟩ } ∨
      (count ≠ f.arity ∧
        callClosure y count n = .error (.error (.arityMismatch f.arity count)) n) ∨
      (n.framesMax ≤ n.frames.size ∨ n.framesMax * Machine.stackPerFrame ≤ n.stack.size) ∧
        callClosure y count n = .error (.error .stackOverflow) n := by
  have hclosure : n.heap.closure y = .ok c := by rw [Heap.closure, Heap.object, hc]
  have hprototype : n.heap.prototype c.function = .ok f := by rw [Heap.prototype, Heap.object, hf]
  have hslot : slotAt count.toNat n = .ok (n.stack.size - 1 - count.toNat) n := by
    rw [slotAt, if_pos hcount]
  rw [callClosure, bind_eq (readHeap_eq (f := (·.closure y)) hclosure),
    bind_eq (readHeap_eq (f := (·.prototype c.function)) hprototype)]
  dsimp only
  split
  · next hcount => exact .inr (.inl ⟨hcount, bind_error rfl⟩)
  · cases hfull : decide (n.framesMax ≤ n.frames.size) ||
        decide (n.framesMax * Machine.stackPerFrame ≤ n.stack.size) with
    | true =>
      have hlook : look (fun m => decide (m.framesMax ≤ m.frames.size) ||
          decide (m.framesMax * Machine.stackPerFrame ≤ m.stack.size)) n = .ok true n :=
        congrArg (EStateM.Result.ok · n) hfull
      rw [Bool.or_eq_true, decide_eq_true_eq, decide_eq_true_eq] at hfull
      exact .inr (.inr ⟨hfull, (bind_eq hlook).trans (bind_error rfl)⟩)
    | false =>
      have hlook : look (fun m => decide (m.framesMax ≤ m.frames.size) ||
          decide (m.framesMax * Machine.stackPerFrame ≤ m.stack.size)) n = .ok false n :=
        congrArg (EStateM.Result.ok · n) hfull
      exact .inl ((bind_eq hlook).trans (bind_eq hslot))

end Exec

namespace Machine

open Exec

variable {m n : Machine} {W : World} {O : Outline} {x : Handle} {i : Instr} {text : String}

/-- The instruction looks for a name in the class `x`: the class of the instance that it is about,
which has no field of the name, or the superclass on top of the stack. -/
inductive LooksUp (m : Machine) (text : String) (x : Handle) : Instr → Prop
  | get {k : UInt16} {receiver : Value} {name : Handle} (there : peek 0 m = .ok receiver m)
      (names : m.Names k text name) (misses : m.Misses receiver name x) :
      LooksUp m text x (.getProperty k)
  | invoke {k : UInt16} {count : UInt8} {receiver : Value} {name : Handle}
      (there : peek count.toNat m = .ok receiver m) (names : m.Names k text name)
      (misses : m.Misses receiver name x) : LooksUp m text x (.invoke k count)
  | getSuper {k : UInt16} {name : Handle} (names : m.Names k text name)
      (top : m.stack.back? = some (.ofHandle x)) : LooksUp m text x (.getSuper k)
  | superInvoke {k : UInt16} {count : UInt8} {name : Handle} (names : m.Names k text name)
      (top : m.stack.back? = some (.ofHandle x)) : LooksUp m text x (.superInvoke k count)

/-- What a step that looks for a name comes to if it finds the closure, or nothing. A method is
bound if it is read, for which there may be no room in the arena, and entered if it is called, if
it is not refused. -/
inductive Looked (m : Machine) (text : String) (i : Instr) :
    Option Handle → EStateM.Result Halt Machine Progress → Prop
  | missing {m' : Machine} : Looked m text i none (.error (.error (.undefinedProperty text)) m')
  | bound {y r : Handle} {receiver : Value} {m' : Machine} (reads : i.arguments? = none)
      (top : m'.stack.back? = some (.ofHandle r))
      (object : m'.heap.object? r = some (.boundMethod ⟨receiver, y⟩)) :
      Looked m text i (some y) (.ok .running m')
  | full {y : Handle} {m' : Machine} (reads : i.arguments? = none) :
      Looked m text i (some y) (.error (.fault .arenaFull) m')
  | entered {y : Handle} {g : Frame} {m' : Machine} (calls : i.arguments?.isSome)
      (back : m'.frames.back? = some g) (closure : g.closure = y)
      (deeper : m'.frames.size = m.frames.size + 1) : Looked m text i (some y) (.ok .running m')
  | refused {y : Handle} {e : RuntimeError} {m' : Machine} (calls : i.arguments?.isSome)
      (why : (∃ expected got, e = .arityMismatch expected got) ∨ e = .stackOverflow) :
      Looked m text i (some y) (.error (.error e) m')

/-- The instruction binds or calls what it finds in the class, on a machine with the same objects. -/
theorem LooksUp.performs {f : Frame} {h : Heap} (hl : m.LooksUp text x i)
    (hback : m.frames.back? = some f) (halike : m.heap.Alike h) (hsize : i.operands ≤ m.stack.size) :
    ∃ z s n, m.heap.object? z = some (.string s) ∧ s.chars = text ∧ m.heap.Alike n.heap ∧
      n.frames.size = m.frames.size ∧
      ((i.arguments? = none ∧ 0 < n.stack.size ∧ perform i (m.fetched f h) = bindMethod x z n) ∨
        ∃ count, i.arguments?.isSome ∧ UInt8.toNat count < n.stack.size ∧
          perform i (m.fetched f h) = invokeFromClass x z count n) := by
  have hframes : (m.fetched f h).frames.size = m.frames.size := size_fetched hback
  have hpopped (htop : m.stack.back? = some (.ofHandle x)) : pop (m.fetched f h) =
      .ok (.ofHandle x) { m.fetched f h with stack := m.stack.pop } :=
    pop_top (m := m.fetched f h) (eq_pop_push htop)
  have hhandle {n : Machine} : handleOf (.ofHandle x) n = .ok x n := by
    rw [handleOf, Value.toHandle?_ofHandle]
    rfl
  -- a receiver without the field
  have hmissed {receiver : Value} {name : Handle} (hmiss : m.Misses receiver name x) :
      ∃ y o key, readHeap (·.instance? receiver) (m.fetched f h) = .ok (some (y, o)) (m.fetched f h) ∧
        readHeap (·.key name) (m.fetched f h) = .ok key (m.fetched f h) ∧
          o.fields.get? key = none ∧ o.class_ = x := by
    obtain ⟨y, o, key, hfound, hkey, hnone, hclass⟩ := hmiss
    exact ⟨y, o, key, readHeap_eq ((halike.instance? receiver).trans hfound),
      readHeap_eq ((halike.key name).trans hkey), hnone, hclass⟩
  cases hl with
  | @get k receiver name there names misses =>
    obtain ⟨hconstant, s, hs, hchars⟩ := names
    obtain ⟨y, o, key, hfound, hkey, hnone, rfl⟩ := hmissed misses
    refine ⟨name, s, m.fetched f h, hs, hchars, halike, hframes, .inl ⟨rfl, hsize, ?_⟩⟩
    refine (bind_eq (peek_congr (n := m.fetched f h) there rfl)).trans ((bind_eq hfound).trans ?_)
    refine (bind_eq (constantHandle_of_fetched hconstant hback)).trans ((bind_eq hkey).trans ?_)
    rw [hnone]
  | @invoke k count receiver name there names misses =>
    obtain ⟨hconstant, s, hs, hchars⟩ := names
    obtain ⟨y, o, key, hfound, hkey, hnone, rfl⟩ := hmissed misses
    refine ⟨name, s, m.fetched f h, hs, hchars, halike, hframes, .inr ⟨count, rfl, hsize, ?_⟩⟩
    refine (bind_eq (constantHandle_of_fetched hconstant hback)).trans ?_
    refine (bind_eq (peek_congr (n := m.fetched f h) there rfl)).trans ((bind_eq hfound).trans ((bind_eq hkey).trans ?_))
    rw [hnone]
  | @getSuper k name names top =>
    obtain ⟨hconstant, s, hs, hchars⟩ := names
    change 2 ≤ m.stack.size at hsize
    refine ⟨name, s, { m.fetched f h with stack := m.stack.pop }, hs, hchars, halike, hframes,
      .inl ⟨rfl, by rw [Array.size_pop]; omega, ?_⟩⟩
    exact (bind_eq (constantHandle_of_fetched hconstant hback)).trans
      ((bind_eq (hpopped top)).trans (bind_eq hhandle))
  | @superInvoke k count name names top =>
    obtain ⟨hconstant, s, hs, hchars⟩ := names
    change count.toNat + 2 ≤ m.stack.size at hsize
    refine ⟨name, s, { m.fetched f h with stack := m.stack.pop }, hs, hchars, halike, hframes,
      .inr ⟨count, rfl, by rw [Array.size_pop]; omega, ?_⟩⟩
    exact (bind_eq (constantHandle_of_fetched hconstant hback)).trans
      ((bind_eq (hpopped top)).trans (bind_eq hhandle))

/-- The class that is searched is known. -/
theorem LooksUp.knows (hl : m.LooksUp text x i) (hm : m.Shows W O) : W.Knows x := by
  cases hl with
  | get there _ misses | invoke there _ misses => exact misses.knows hm (peek_eq_ok there).2
  | getSuper _ top | superInvoke _ top =>
    exact hm.knows hm.lists (mem_roots.mpr
      (.inl ⟨_, Array.mem_of_back? top, Value.toHandle?_ofHandle x⟩))

/-- A step that looks for a name finds what the class has under it. -/
theorem Ready.looked {found : Option Handle} {c : ClassObject} (hm : m.Ready)
    (hi : m.next? = some i) (hl : m.LooksUp text x i) (hc : m.heap.object? x = some (.class_ c))
    (hfound : m.method? x text = found.map .ofHandle) : m.Looked text i found (step m) := by
  have hno : i ≠ .return_ := by
    rintro rfl
    cases hl
  have hdoes := does_step hm
  obtain ⟨f, h, hback, halike, hstep⟩ := hm.step_eq hi hno
  obtain ⟨_, -, hsize, -⟩ := hm.depth hi
  obtain ⟨z, s, n, hs, rfl, hn, hframes, hperform⟩ :=
    hl.performs hback halike (Nat.le_of_add_left_le hsize)
  obtain ⟨W, O, hshows, -⟩ := hm
  have hknown := hl.knows hshows
  have hmethod := hshows.findMethod_eq hknown hc hs
  rw [hfound] at hmethod
  have hfind := findMethod_of_alike hmethod hn
  have hs' : n.heap.object? z = some (.string s) := (hn.object? z).trans hs
  rw [hstep] at hdoes ⊢
  have hgoesOn {m' : Machine} (hr : perform i (m.fetched f h) = .ok () m') :
      (do perform i; return .running : Exec Progress) (m.fetched f h) = .ok .running m' :=
    bind_eq hr
  have hstops {e : Halt} {m' : Machine} (hr : perform i (m.fetched f h) = .error e m') :
      (do perform i; return .running : Exec Progress) (m.fetched f h) = .error e m' :=
    bind_error hr
  rcases hperform with ⟨hreads, hpos, hbinds⟩ | ⟨count, hcalls, hlt, hinvokes⟩
  · cases found with
    | none =>
      have hraise : bindMethod x z n = .error (.error (.undefinedProperty s.chars)) n :=
        (bind_eq hfind).trans (raiseUndefinedProperty_eq hs')
      rw [hstops (hbinds.trans hraise)]
      exact .missing
    | some y =>
      obtain ⟨below, receiver, hstack⟩ : ∃ (below : Array Value) (v : Value), n.stack = below.push v :=
        ⟨_, _, eq_pop_push (Array.getElem?_eq_getElem (Nat.sub_lt hpos Nat.one_pos))⟩
      have hhandle : handleOf (.ofHandle y) n = .ok y n := by
        rw [handleOf, Value.toHandle?_ofHandle]
        rfl
      have hbound : bindMethod x z n = (do
          let r ← alloc (.boundMethod ⟨receiver, y⟩)
          drop
          push (.ofHandle r) : Exec Unit) n :=
        (bind_eq hfind).trans ((bind_eq (peek_top hstack)).trans (bind_eq hhandle))
      cases halloc : alloc (.boundMethod ⟨receiver, y⟩) n with
      | error halt m' =>
        rw [hstops (hbinds.trans (hbound.trans (bind_error halloc)))] at hdoes ⊢
        cases halt with
        | error e => exact absurd halloc (quiet_changeHeapRooted _ _ _ _)
        | fault f =>
          obtain rfl : f = .arenaFull := hdoes
          exact .full hreads
      | ok r m' =>
        obtain ⟨h', hok, rfl⟩ := alloc_eq_ok halloc
        have hdrop : drop { n with heap := h' } = .ok () { n with heap := h', stack := below } :=
          drop_top hstack
        rw [hgoesOn (hbinds.trans (hbound.trans ((bind_eq halloc).trans (bind_eq hdrop))))]
        exact .bound hreads Array.back?_push
          (Heap.object?_of_alloc (hshows.sound.arena.congr hn) hok)
  · cases found with
    | none =>
      have hraise : invokeFromClass x z count n = .error (.error (.undefinedProperty s.chars)) n :=
        (bind_eq hfind).trans (raiseUndefinedProperty_eq hs')
      rw [hstops (hinvokes.trans hraise)]
      exact .missing
    | some y =>
      have hhandle : handleOf (.ofHandle y) n = .ok y n := by
        rw [handleOf, Value.toHandle?_ofHandle]
        rfl
      have hcall : invokeFromClass x z count n = callClosure y count n :=
        (bind_eq hfind).trans (bind_eq hhandle)
      obtain ⟨y', hy, htype⟩ := closure_of_findMethod hshows.fits hknown hmethod
      obtain rfl : y = y' := Option.some.inj ((Value.toHandle?_ofHandle y).symm.trans hy)
      obtain ⟨d, captures, -, hd, hfunction, -⟩ := hshows.fits.closure htype
      obtain ⟨e, -, he, -⟩ := hshows.fits.prototype hfunction
      rcases callClosure_cases ((hn.object? y).trans hd) ((hn.object? _).trans he) hlt with
        hentered | ⟨-, hrefused⟩ | ⟨-, hrefused⟩
      · rw [hgoesOn (hinvokes.trans (hcall.trans hentered))]
        refine .entered hcalls Array.back?_push rfl ?_
        show (n.frames.push _).size = _
        rw [Array.size_push, hframes]
      · rw [hstops (hinvokes.trans (hcall.trans hrefused))]
        exact .refused hcalls (.inl ⟨_, _, rfl⟩)
      · rw [hstops (hinvokes.trans (hcall.trans hrefused))]
        exact .refused hcalls (.inr rfl)

end Machine

end ScriptMachine
