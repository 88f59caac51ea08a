import ScriptMachine.Proofs.Session.Effects

/-!
# Steps, one instruction each

A step reads the next word of the running function and carries its instruction out. On the code of
compiled functions the operands are above the first slot of the function, so a step changes the
function's own slots alone, but for the assignment of a captured variable; it enters a callee where
the callee's own slots begin, or leaves the function with a single value.
-/

namespace ScriptMachine

/-- The arguments of a call. -/
def Instr.arguments? : Instr → Option UInt8
  | .call count | .invoke _ count | .superInvoke _ count => some count
  | _ => none

/-- The machine with the next word read: its innermost function `f` is behind the word. -/
def Machine.fetched (m : Machine) (f : Frame) (h : Heap) : Machine :=
  { m with heap := h, frames := m.frames.pop.push { f with ip := f.ip + 1 } }

namespace Exec

variable {α β : Type} {m m' : Machine}

/-! ### Reading an instruction -/

/-- An action that stops stops whatever follows. -/
theorem bind_error {x : Exec α} {f : α → Exec β} {e : Halt} (hx : x m = .error e m') :
    (x >>= f) m = .error e m' := by
  show EStateM.bind x f m = .error e m'
  rw [EStateM.bind, hx]

/-- Noting the next instruction changes the journal alone. -/
theorem noteInstruction_eq_ok (hdone : noteInstruction m = .ok () m') :
    ∃ h, m.heap.Alike h ∧ m' = { m with heap := h } := by
  obtain ⟨keeps, m₁, hlook, hrest⟩ := exists_of_bind_ok hdone
  obtain ⟨-, rfl⟩ := EStateM.Result.ok.inj hlook
  split at hrest
  · obtain ⟨f, m₂, hframe, htext⟩ := exists_of_bind_ok hrest
    obtain ⟨rfl, -⟩ := frame_eq_ok hframe
    obtain ⟨text, m₃, hlook, hnote⟩ := exists_of_bind_ok htext
    obtain ⟨-, rfl⟩ := EStateM.Result.ok.inj hlook
    cases text with
    | ok text =>
      obtain ⟨-, rfl⟩ := EStateM.Result.ok.inj hnote
      exact ⟨_, Heap.alike_note _ _ _, rfl⟩
    | error e => cases hnote
  · obtain ⟨-, rfl⟩ := EStateM.Result.ok.inj hrest
    exact ⟨m.heap, .refl _, rfl⟩

/-- No error stops a look. -/
theorem quiet_look (f : Machine → α) : Quiet (look f) := fun _ _ _ hdone => by cases hdone

/-- A fault is no error. -/
theorem quiet_fault (f : Fault) : Quiet (fault f : Exec α) := fun _ _ _ hdone => by cases hdone

/-- No error stops the reading of a frame: where there is none it is a fault. -/
theorem quiet_frame : Quiet frame := by
  intro m e m' hdone
  unfold frame at hdone
  split at hdone <;> cases hdone

/-- No error stops the journal. -/
theorem quiet_noteInstruction : Quiet noteInstruction := by
  refine .bind (quiet_look _) fun keeps => ?_
  split
  · refine .bind quiet_frame fun f => .bind (quiet_look _) fun text => ?_
    split
    · exact fun _ _ _ hdone => by cases hdone
    · exact quiet_fault _
  · exact quiet_pure ()

/-- A change of the last element takes its place. -/
theorem modify_last {γ : Type} {xs : Array γ} {y : γ} (g : γ → γ) (h : xs.back? = some y) :
    xs.modify (xs.size - 1) g = xs.pop.push (g y) := by
  rw [Array.back?] at h
  have hpos : xs.size - 1 < xs.size := (Array.getElem?_eq_some_iff.mp h).1
  refine Array.ext_getElem? fun i => ?_
  rw [Array.getElem?_modify, Array.getElem?_push, Array.size_pop, Array.getElem?_pop]
  by_cases hi : i = xs.size - 1
  · rw [if_pos hi.symm, if_pos hi, hi, h]
    rfl
  · rw [if_neg (Ne.symm hi), if_neg hi]
    split
    · rfl
    · exact Array.getElem?_eq_none (by omega)

/-- An array without its last entry and the last entry. -/
theorem eq_pop_push {γ : Type} {xs : Array γ} {y : γ} (h : xs.back? = some y) :
    xs = xs.pop.push y := by
  have hmodify := modify_last (fun _ => y) h
  rw [← hmodify]
  refine Array.ext_getElem? fun i => ?_
  rw [Array.getElem?_modify]
  split
  · next hi =>
    rw [Array.back?, hi] at h
    rw [h, Option.map_some]
  · rfl

/-- Reading a word of code moves the innermost function on. -/
theorem fetch_eq_ok {w : UInt32} (hdone : fetch m = .ok w m') :
    ∃ f, m.frames.back? = some f ∧ f.chunk.code[f.ip]? = some w ∧ m' = m.fetched f m.heap := by
  obtain ⟨f, m₁, hframe, hrest⟩ := exists_of_bind_ok hdone
  obtain ⟨rfl, hback⟩ := frame_eq_ok hframe
  cases hword : f.chunk.code[f.ip]? with
  | none =>
    rw [hword] at hrest
    cases hrest
  | some word =>
    rw [hword] at hrest
    obtain ⟨_, m₂, hset, hrest⟩ := exists_of_bind_ok hrest
    obtain ⟨-, rfl⟩ := EStateM.Result.ok.inj hset
    obtain ⟨rfl, rfl⟩ := EStateM.Result.ok.inj hrest
    refine ⟨f, hback, hword, ?_⟩
    rw [Machine.fetched, ← modify_last (fun g => { g with ip := f.ip + 1 }) hback]

/-- No error stops the fetching of a word. -/
theorem quiet_fetch : Quiet fetch :=
  .bind quiet_frame fun f => by
    split
    · exact .bind (fun _ _ _ hdone => by cases hdone) fun _ => quiet_pure _
    · exact quiet_fault _

/-- Carries out the instruction that a word is. -/
def carryOut (w : UInt32) : Exec Progress :=
  match Instr.decode? w with
  | none => fault (.unknownOperation (wordOperation w))
  | some .return_ => return_
  | some i => do
    perform i
    return .running

/-- A step faults, or carries out the instruction that the machine is at. -/
theorem step_cases (m : Machine) : (∃ f m', step m = .error (.fault f) m') ∨
    ∃ f i h, m.frames.back? = some f ∧ m.next? = some i ∧ m.heap.Alike h ∧
      (i = .return_ → step m = return_ (m.fetched f h)) ∧
      (i ≠ .return_ → step m = (do perform i; return .running : Exec Progress) (m.fetched f h)) := by
  cases hnote : noteInstruction m with
  | error halt m' =>
    cases halt with
    | error e => exact absurd hnote (quiet_noteInstruction m e m')
    | fault f => exact .inl ⟨f, m', bind_error hnote⟩
  | ok _ m₁ =>
    obtain ⟨h, halike, rfl⟩ := noteInstruction_eq_ok hnote
    cases hfetch : fetch { m with heap := h } with
    | error halt m' =>
      cases halt with
      | error e => exact absurd hfetch (quiet_fetch _ e m')
      | fault f => exact .inl ⟨f, m', (bind_eq hnote).trans (bind_error hfetch)⟩
    | ok w m₂ =>
      obtain ⟨f, hback, hword, rfl⟩ := fetch_eq_ok hfetch
      have hstep : step m = carryOut w (m.fetched f h) := (bind_eq hnote).trans (bind_eq hfetch)
      unfold carryOut at hstep
      cases hi : Instr.decode? w with
      | none =>
        simp only [hi] at hstep
        exact .inl ⟨_, _, hstep⟩
      | some i =>
        refine .inr ⟨f, i, h, hback, ?_, halike, fun hreturn => ?_, fun hno => ?_⟩
        · rw [Machine.next?, show m.frames.back? = some f from hback, Option.bind_some, hword,
            Option.bind_some, hi]
        · subst hreturn
          simp only [hi] at hstep
          exact hstep
        · simp only [hi] at hstep
          cases i with
          | return_ => exact absurd rfl hno
          | _ => exact hstep

/-! ### The instructions -/

/-- An instruction on values works on the operands alone. -/
theorem moves_perform {i : Instr} (hcall : i.arguments? = none) (hreturn : i ≠ .return_)
    (hlocal : ∀ j, i ≠ .setLocal j) (hupvalue : ∀ j, i ≠ .setUpvalue j) :
    Moves i.operands i.results (perform i) := by
  cases i with
  | constant k => exact ((steady_constant k).moves 0).bind fun _ => moves_push _
  | null | true_ | false_ => exact moves_push _
  | pop => exact moves_drop
  | duplicate => exact ((steady_peek 0).moves 1).bind fun _ => (moves_push _).above 1
  | getLocal j => exact (steady_frame.moves 0).bind fun _ =>
      ((steady_readSlot _).moves 0).bind fun _ => moves_push _
  | setLocal j => exact absurd rfl (hlocal j)
  | getGlobal k => exact moves_getGlobal k
  | defineGlobal k => exact moves_defineGlobal k
  | setGlobal k => exact (steady_assignGlobal k).moves 1
  | getUpvalue j => exact ((steady_frameUpvalue _).moves 0).bind fun _ =>
      ((steady_readUpvalue _).moves 0).bind fun _ => moves_push _
  | setUpvalue j => exact absurd rfl (hupvalue j)
  | getProperty k => exact moves_getProperty k
  | setProperty k => exact moves_setProperty k
  | getSuper k => exact ((steady_constantHandle k).moves 2).bind fun _ =>
      (moves_pop.above 1).bind fun _ => ((steady_handleOf _).moves 1).bind fun _ =>
      moves_bindMethod _ _
  | equal => exact moves_equal
  | greater => exact moves_arithmetic .greater fun x y => .ofBool (x > y)
  | less => exact moves_arithmetic .less fun x y => .ofBool (x < y)
  | subtract => exact moves_arithmetic .minus fun x y => .ofFloat (x - y)
  | multiply => exact moves_arithmetic .star fun x y => .ofFloat (x * y)
  | divide => exact moves_arithmetic .slash fun x y => .ofFloat (x / y)
  | add => exact moves_add
  | not => exact moves_pop.bind fun _ => moves_push _
  | negate => exact moves_negate
  | print => exact moves_print
  | jump d => exact moves_skip _ 0
  | jumpIfFalse d =>
    refine ((steady_peek 0).moves 1).bind fun v => ?_
    split
    · exact moves_skip _ 1
    · exact (steady_pure ()).moves 1
  | loop d => exact moves_goBack _ 0
  | call _ | invoke _ _ | superInvoke _ _ => cases hcall
  | closure k => exact moves_makeClosure k
  | closeUpvalue => exact ((steady_slotAt 0).moves 1).bind fun _ =>
      ((steady_closeUpvalues _).moves 1).bind fun _ => moves_drop
  | class_ k => exact ((steady_constantHandle k).moves 0).bind fun _ =>
      ((steady_alloc _).moves 0).bind fun _ => moves_push _
  | inherit => exact moves_inherit
  | method k => exact moves_addMethod k
  | return_ => exact absurd rfl hreturn

/-- A call replaces its operands by the answer, or enters the callee where they begin. -/
theorem called_perform {i : Instr} (hcall : i.arguments?.isSome) (hsize : i.operands ≤ m.stack.size)
    (hdone : perform i m = .ok () m') : Machine.Called (m.stack.size - i.operands) m m' := by
  cases i with
  | call count =>
    have h : Calling count (perform (.call count)) :=
      .after (steady_peek _) fun _ => calling_callValue _ _
    have hcalled := h m m' hsize hdone
    rwa [Nat.sub_sub, Nat.add_comm] at hcalled
  | invoke k count =>
    have h : Calling count (perform (.invoke k count)) :=
      .after (steady_constantHandle _) fun _ => calling_invoke _ _
    have hcalled := h m m' hsize hdone
    rwa [Nat.sub_sub, Nat.add_comm] at hcalled
  | superInvoke k count =>
    obtain ⟨name, m₁, hname, hrest⟩ := exists_of_bind_ok hdone
    have hsteady := (steady_constantHandle k).ok hname
    obtain ⟨v, m₂, hpop, hrest⟩ := exists_of_bind_ok hrest
    obtain ⟨rfl, -⟩ := pop_eq_ok hpop
    have hcalling : Calling count (do
        let superclass ← handleOf v
        invokeFromClass superclass name count) :=
      .after (steady_handleOf v) fun _ => calling_invokeFromClass _ _ _
    change count.toNat + 2 ≤ m.stack.size at hsize
    have hcalled := hcalling _ m' (by
      show count.toNat < m₁.stack.pop.size
      rw [Array.size_pop, hsteady.stack]
      omega) hrest
    have hcallee : m₁.stack.pop.size - 1 - count.toNat =
        m.stack.size - (Instr.superInvoke k count).operands := by
      rw [Array.size_pop, hsteady.stack, Instr.operands]
      omega
    rw [show ({ m₁ with stack := m₁.stack.pop } : Machine).stack.size = m₁.stack.pop.size from rfl,
      hcallee] at hcalled
    refine hcalled.after hsteady.frames hsteady.limit fun j hj => ?_
    show m₁.stack.pop[j]? = m.stack[j]?
    rw [Array.getElem?_pop, hsteady.stack, if_pos]
    rw [Instr.operands] at hj
    omega
  | _ => cases hcall

/-- A return drops the slots of the function and hands its value on. -/
theorem return_eq_ok {f : Frame} (hback : m.frames.back? = some f) (hlow : f.base < m.stack.size)
    (hdone : return_ m = .ok .running m') : ∃ v, m.stack.back? = some v ∧
      m'.frames = m.frames.pop ∧ m'.framesMax = m.framesMax ∧ m'.stack.size = f.base + 1 ∧
      m'.stack[f.base]? = some v ∧ ∀ j < f.base, m'.stack[j]? = m.stack[j]? := by
  obtain ⟨v, m₁, hpop, hrest⟩ := exists_of_bind_ok hdone
  obtain ⟨rfl, htop⟩ := pop_eq_ok hpop
  obtain ⟨g, m₂, hframe, hrest⟩ := exists_of_bind_ok hrest
  obtain ⟨rfl, hg⟩ := frame_eq_ok hframe
  obtain rfl : f = g := Option.some.inj (hback.symm.trans hg)
  obtain ⟨_, m₃, hmodify, hrest⟩ := exists_of_bind_ok hrest
  obtain ⟨-, rfl⟩ := EStateM.Result.ok.inj hmodify
  obtain ⟨_, m₄, hclose, hrest⟩ := exists_of_bind_ok hrest
  have hsteady := (steady_closeUpvalues f.base).ok hclose
  obtain ⟨_, m₅, hcut, hrest⟩ := exists_of_bind_ok hrest
  obtain ⟨-, rfl⟩ := EStateM.Result.ok.inj hcut
  obtain ⟨last, m₆, hlook, hrest⟩ := exists_of_bind_ok hrest
  obtain ⟨rfl, rfl⟩ := EStateM.Result.ok.inj hlook
  split at hrest
  · cases hrest
  · obtain ⟨_, m₇, hpush, hrest⟩ := exists_of_bind_ok hrest
    obtain ⟨-, rfl⟩ := EStateM.Result.ok.inj hpush
    obtain ⟨-, rfl⟩ := EStateM.Result.ok.inj hrest
    have hstack : m₄.stack = m.stack.pop := hsteady.stack
    have hsize : (m₄.stack.shrink f.base).size = f.base := by
      rw [Array.size_shrink, hstack, Array.size_pop]
      omega
    refine ⟨v, htop, hsteady.frames, hsteady.limit, by rw [Array.size_push, hsize], ?_, fun j hj => ?_⟩
    · show ((m₄.stack.shrink f.base).push v)[f.base]? = some v
      rw [Array.getElem?_push, if_pos hsize.symm]
    · show ((m₄.stack.shrink f.base).push v)[j]? = m.stack[j]?
      rw [Array.getElem?_push_lt (by rwa [hsize]), Array.getElem_shrink,
        ← Array.getElem?_eq_getElem, hstack, Array.getElem?_pop, if_pos (by omega)]

/-- Finding an upvalue of the running closure changes nothing. -/
theorem frameUpvalue_eq_ok {j : Nat} {r : Handle} (hdone : frameUpvalue j m = .ok r m') :
    m' = m ∧ ∃ f c, m.frames.back? = some f ∧ m.heap.object? f.closure = some (.closure c) ∧
      c.upvalues[j]? = some r := by
  obtain ⟨f, m₁, hframe, hrest⟩ := exists_of_bind_ok hdone
  obtain ⟨rfl, hback⟩ := frame_eq_ok hframe
  obtain ⟨c, m₂, hread, hfound⟩ := exists_of_bind_ok hrest
  obtain ⟨rfl, hclosure⟩ := readHeap_eq_ok hread
  cases hget : c.upvalues[j]? with
  | none =>
    rw [hget] at hfound
    cases hfound
  | some x =>
    rw [hget] at hfound
    obtain ⟨rfl, rfl⟩ := EStateM.Result.ok.inj hfound
    exact ⟨rfl, f, c, hback, Heap.object?_of_closure hclosure, hget⟩

/-- Assigning through an upvalue writes the slot that it stands for, if it stands for one. -/
theorem writeUpvalue_eq_ok {r : Handle} {v : Value} (hdone : writeUpvalue r v m = .ok () m') :
    (∃ j, m.heap.StandsFor r j ∧ writeSlot j v m = .ok () m') ∨ m.Untouched m' := by
  obtain ⟨u, m₁, hread, hrest⟩ := exists_of_bind_ok hdone
  obtain ⟨rfl, hu⟩ := readHeap_eq_ok hread
  cases u with
  | onStack j => exact .inl ⟨j, Heap.object?_of_upvalue hu, hrest⟩
  | closed _ => exact .inr ((steady_changeHeap _).ok hrest)

end Exec

namespace Machine

variable {m m' : Machine}

/-- A captured variable of the running function. -/
def upvalue? (m : Machine) (index : UInt16) : Option Handle :=
  m.frames.back?.bind fun f =>
    match m.heap.object? f.closure with
    | some (.closure c) => c.upvalues[index.toNat]?
    | _ => none

/-- The machine is at an assignment of the captured variable in the slot `j`, and `m'` has the
assigned value there. -/
inductive Assigns (m : Machine) (j : Nat) (m' : Machine) : Prop
  | intro (index : UInt16) (r : Handle) (next : m.next? = some (.setUpvalue index))
      (upvalue : m.upvalue? index = some r) (stands : m.heap.StandsFor r j)
      (value : m'.stack[j]? = m.stack.back?)

/-- What carrying out the instruction `i` makes of `m`, where `f` is the innermost function. -/
inductive Advanced (m : Machine) (f : Frame) : Instr → Machine → Prop
  | within {i : Instr} {m' : Machine} (call : i.arguments? = none)
      (outer : m'.frames.pop = m.frames.pop)
      (inner : m'.frames.back?.map Frame.rewound = some f.rewound)
      (limit : m'.framesMax = m.framesMax)
      (slots : ∀ j < f.base, m'.stack[j]? = m.stack[j]? ∨ m.Assigns j m') : Advanced m f i m'
  | called {i : Instr} {m' : Machine} {h : Heap} (call : i.arguments?.isSome)
      (deep : f.base < m.stack.size - i.operands)
      (called : (m.fetched f h).Called (m.stack.size - i.operands) m') : Advanced m f i m'
  | returned {v : Value} {m' : Machine} (top : m.stack.back? = some v)
      (frames : m'.frames = m.frames.pop) (limit : m'.framesMax = m.framesMax)
      (size : m'.stack.size = f.base + 1) (result : m'.stack[f.base]? = some v)
      (slots : ∀ j < f.base, m'.stack[j]? = m.stack[j]?) : Advanced m f .return_ m'

/-- An instruction of an inner function leaves the outermost one where it is. -/
theorem Advanced.bottom {f : Frame} {i : Instr} (h : m.Advanced f i m')
    (hsize : 1 < m.frames.size) :
    m'.frames[0]? = m.frames[0]? := by
  have hlt : 0 < m.frames.pop.size := by
    rw [Array.size_pop]
    omega
  have hpop {xs : Array Frame} (hxs : 1 < xs.size) : xs[0]? = xs.pop[0]? := by
    rw [Array.getElem?_pop, if_pos (by omega)]
  have hfetched (h : Heap) : (m.fetched f h).frames[0]? = m.frames[0]? := by
    show (m.frames.pop.push _)[0]? = _
    rw [hpop hsize, Array.getElem?_push_lt hlt, Array.getElem?_eq_getElem hlt]
  cases h with
  | within _ outer rewound =>
    obtain ⟨x, hx, -⟩ := Option.map_eq_some_iff.mp rewound
    rw [Exec.eq_pop_push hx, outer, hpop hsize, Array.getElem?_push_lt hlt, Array.getElem?_eq_getElem hlt]
  | @called _ _ h _ _ called =>
    cases called with
    | entered x _ _ _ frames =>
      have hdeep : 0 < (m.fetched f h).frames.size := by
        rw [fetched, Array.size_push]
        exact Nat.succ_pos _
      rw [frames, Array.getElem?_push_lt hdeep, ← Array.getElem?_eq_getElem, hfetched]
    | answered _ _ frames => rw [frames, hfetched]
  | returned _ frames => rw [frames, ← hpop hsize]

/-- The instruction that the innermost function of an outline is at. -/
theorem Shows.next?_eq {W : World} {S : List Slot} {g : Option String} {a : Activation}
    {rest : List Activation} {i : Instr} (hm : m.Shows W ⟨S, g, a :: rest⟩)
    (hword : a.layout.words[a.frame.ip]? = some i.encode) : m.next? = some i := by
  have hr := hm.runs a List.mem_cons_self
  have hcode : a.frame.chunk.code[a.frame.ip]? = some i.encode := by
    rw [hr.chunk, ← Array.getElem?_toList, ← hr.words, hword]
  rw [next?, hm.back_frames rfl, Option.bind_some, hcode, Option.bind_some, Instr.decode?_encode]

/-- The operands of an instruction are above the first slot of its function. -/
theorem Ready.depth {i : Instr} (hm : m.Ready) (hi : m.next? = some i) :
    ∃ f, m.frames.back? = some f ∧ f.base + i.operands ≤ m.stack.size ∧
      (0 < i.operands → f.base + i.operands < m.stack.size) := by
  obtain ⟨W, O, hm, hp⟩ := hm
  cases hp with
  | @intro a rest below A outer base lands =>
    obtain ⟨i', E, hword, hfits, hstep⟩ :=
      Exec.exists_step (hm.runs a List.mem_cons_self) lands
    obtain rfl : i' = i := Option.some.inj ((hm.next?_eq hword).symm.trans hi)
    have hsize : m.stack.size = a.frame.base + E.slots.length := by
      rw [hm.size_stack, List.length_append, hfits.slots.length_eq, base]
    have hdeep : 0 < i'.operands → i'.operands < E.slots.length := by
      cases hstep with
      | effect effect => exact effect.checked.operands
      | return_ below | jumpIfFalse below =>
        have := List.length_pos_iff.mpr below
        intro _
        simp only [Instr.operands, List.length_append, List.length_singleton]
        omega
      | closure | jump | loop => exact fun hpos => absurd hpos (Nat.lt_irrefl 0)
    refine ⟨a.frame, hm.back_frames rfl, ?_, ?_⟩ <;> omega

end Machine

namespace Exec

variable {m m' : Machine}

/-- An instruction that is no call and no return keeps the functions and the slots below its own
function's, except that an assignment writes the slot of the captured variable. -/
theorem keeping_perform {i : Instr} {f : Frame} (hcall : i.arguments? = none) (hno : i ≠ .return_)
    (hback : m.frames.back? = some f) (hdepth : f.base + i.operands ≤ m.stack.size)
    (hdone : perform i m = .ok () m') : Machine.Keeping 0 m m' ∧
      ∀ j < f.base, m'.stack[j]? = m.stack[j]? ∨ ∃ index r, i = .setUpvalue index ∧
        m.upvalue? index = some r ∧ m.heap.StandsFor r j ∧ m'.stack[j]? = m.stack.back? := by
  have hkept (hkeeping : Machine.Keeping f.base m m') : Machine.Keeping 0 m m' ∧
      ∀ j < f.base, m'.stack[j]? = m.stack[j]? ∨ ∃ index r, i = .setUpvalue index ∧
        m.upvalue? index = some r ∧ m.heap.StandsFor r j ∧ m'.stack[j]? = m.stack.back? :=
    ⟨hkeeping.mono (Nat.zero_le _), fun j hj => .inl (hkeeping.slots j hj)⟩
  by_cases hlocal : ∃ j, i = .setLocal j
  · obtain ⟨j, rfl⟩ := hlocal
    obtain ⟨g, m₂, hframe, hrest⟩ := exists_of_bind_ok hdone
    obtain ⟨rfl, hg⟩ := frame_eq_ok hframe
    obtain rfl : f = g := Option.some.inj (hback.symm.trans hg)
    obtain ⟨v, m₃, hpeek, hwrite⟩ := exists_of_bind_ok hrest
    obtain ⟨rfl, -⟩ := peek_eq_ok hpeek
    exact hkept (keeping_writeSlot hwrite (Nat.le_add_right _ _))
  by_cases hupvalue : ∃ j, i = .setUpvalue j
  · obtain ⟨index, rfl⟩ := hupvalue
    obtain ⟨r, m₂, hfound, hrest⟩ := exists_of_bind_ok hdone
    obtain ⟨rfl, g, c, hg, hclosure, hget⟩ := frameUpvalue_eq_ok hfound
    obtain ⟨v, m₃, hpeek, hwrite⟩ := exists_of_bind_ok hrest
    obtain ⟨rfl, htop⟩ := peek_eq_ok hpeek
    rcases writeUpvalue_eq_ok hwrite with ⟨j, hstands, hslot⟩ | huntouched
    · refine ⟨keeping_writeSlot hslot (Nat.zero_le j), fun i _ => ?_⟩
      obtain ⟨rfl, hlt⟩ := writeSlot_eq_ok hslot
      by_cases hij : i = j
      · subst hij
        refine .inr ⟨index, r, rfl, ?_, hstands, ?_⟩
        · rw [Machine.upvalue?, hg, Option.bind_some, hclosure]
          exact hget
        · rw [Array.getElem?_setIfInBounds_self_of_lt hlt, Array.back?]
          exact htop.symm
      · exact .inl (Array.getElem?_setIfInBounds_ne (Ne.symm hij))
    · exact hkept (huntouched.keeping _)
  · obtain ⟨hkeeping, -⟩ := moves_perform hcall hno (fun j hj => hlocal ⟨j, hj⟩)
      (fun j hj => hupvalue ⟨j, hj⟩) m () m' (by omega) hdone
    exact hkept (hkeeping.mono (by omega))

/-- A step that does not finish the run carries out one instruction. -/
theorem advanced_of_step (hm : m.Ready) (hdone : step m = .ok .running m') :
    ∃ f i, m.frames.back? = some f ∧ m.next? = some i ∧ m.Advanced f i m' := by
  rcases step_cases m with ⟨e, m₁, hfault⟩ | ⟨f, i, h, hback, hi, halike, hreturn, hperform⟩
  · cases hfault.symm.trans hdone
  obtain ⟨g, hg, hdepth, hdeep⟩ := hm.depth hi
  obtain rfl : f = g := Option.some.inj (hback.symm.trans hg)
  refine ⟨f, i, hback, hi, ?_⟩
  have hback' : (m.fetched f h).frames.back? = some { f with ip := f.ip + 1 } := by
    simp [Machine.fetched]
  have houter : (m.fetched f h).frames.pop = m.frames.pop := by simp [Machine.fetched]
  by_cases hno : i = .return_
  · subst hno
    have hlow : f.base < m.stack.size := by
      have := hdeep Nat.one_pos
      omega
    obtain ⟨v, htop, hframes, hlimit, hsize, hresult, hslots⟩ :=
      return_eq_ok hback' hlow ((hreturn rfl).symm.trans hdone)
    exact .returned htop (hframes.trans houter) hlimit hsize hresult hslots
  obtain ⟨_, m₁, hcarried, hpure⟩ := exists_of_bind_ok ((hperform hno).symm.trans hdone)
  obtain ⟨-, rfl⟩ := EStateM.Result.ok.inj hpure
  cases hcall : i.arguments? with
  | some count =>
    have hsome : i.arguments?.isSome := by rw [hcall]; rfl
    have hpos : 0 < i.operands := by
      cases i <;> first | exact Nat.succ_pos _ | cases hcall
    have := hdeep hpos
    exact .called hsome (by omega)
      (called_perform (m := m.fetched f h) hsome (Nat.le_of_add_left_le hdepth) hcarried)
  | none =>
    obtain ⟨hkeeping, hslots⟩ := keeping_perform hcall hno hback' hdepth hcarried
    refine .within hcall (hkeeping.outer.trans houter) (hkeeping.inner.trans ?_) hkeeping.limit
      fun j hj => (hslots j hj).imp_right ?_
    · rw [hback']
      rfl
    · rintro ⟨index, r, rfl, hupvalue, hstands, hvalue⟩
      refine .intro index r hi ?_ ((halike.object? r).symm.trans hstands) hvalue
      rw [Machine.upvalue?, hback', Option.bind_some] at hupvalue
      rw [Machine.upvalue?, hback, Option.bind_some, ← halike.object?]
      exact hupvalue

end Exec

end ScriptMachine
