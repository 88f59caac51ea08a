import ScriptMachine.Proofs.Code.Listing
import ScriptMachine.Proofs.Machine.Instructions

/-!
# Running

A machine at an instruction takes it to the next one, wherever that is, or finishes with nothing on
the stack, or stops with an error of the script. So it does for any number of instructions: nothing
that it needs is ever missing, and a fault can only come from an exhausted arena.
-/

namespace ScriptMachine

namespace Exec

variable {m : Machine} {W : World} {below own : List Slot} {g : Option String}
  {act rest : List Activation} {a : Activation}

/-- With the slots that the next instruction asks for, the machine is at it. -/
theorem ready_next {B : Shape} (hm : m.Shows W ⟨below ++ B.slots, B.known, a :: rest⟩)
    (outer : Suspended rest below) (base : a.frame.base = below.length)
    (next : a.layout.Lands none a.frame.ip B) : m.Ready := ⟨W, _, hm, .intro outer base next⟩

/-! ### Instructions that are followed by the next one -/

/-- No value is left on the stack. -/
theorem withValues_zero (S T : List Slot) : S ++ withValues T 0 = S ++ T := by
  rw [withValues, List.replicate_zero, List.append_nil]

/-- One value is left on the stack. -/
theorem withValues_one (S T : List Slot) : S ++ withValues T 1 = S ++ T ++ [.value] := by
  rw [withValues, List.replicate_one, List.append_assoc]

/-- Two values are left on the stack. -/
theorem withValues_two (S T : List Slot) :
    S ++ withValues T 2 = S ++ T ++ [.value] ++ [.value] := by
  simp [withValues]

/-- One value is left below the others. -/
theorem withValues_succ (S T : List Slot) (n : Nat) :
    S ++ withValues T (n + 1) = S ++ T ++ List.replicate (n + 1) .value :=
  (List.append_assoc _ _ _).symm

/-- Pushing a value that is no reference. -/
theorem does_push_plain {S : List Slot} {v : Value} (hm : m.Shows W ⟨S, g, act⟩)
    (hv : v.toHandle? = none) : Does (push v m) fun _ m' => m'.Shows W ⟨S ++ [.value], g, act⟩ :=
  does_push (x := .value) hm (World.holds_of_not_reference hv)

/-- An instruction on temporary values. -/
theorem does_plain {i : Instr} {n k : Nat} (h : Plain a.context i n k)
    (hm : m.Shows W ⟨below ++ withValues own n, g, a :: rest⟩) (outer : Suspended rest below)
    (base : a.frame.base = below.length) (nonempty : own ≠ [])
    (next : a.layout.Lands none a.frame.ip (.plain (withValues own k))) :
    Does (perform i m) fun _ m' => m'.Ready := by
  have hready {V : World} {g : Option String} {S : List Slot} {m' : Machine}
      (hS : below ++ withValues own k = S) (hm' : m'.Shows V ⟨S, g, a :: rest⟩) : m'.Ready := by
    subst hS
    exact ready_next (B := .plain (withValues own k)) hm'.forget outer base next
  have hcalls (hone : k = 1) : Suspended (a :: rest) (below ++ own) :=
    .cons outer base nonempty (by subst hone; exact next)
  have hzero := withValues_zero below own
  have hone := withValues_one below own
  have htwo := withValues_two below own
  cases h with
  | @constant k bound =>
    rw [hzero] at hm
    refine (does_constant hm (List.getElem?_eq_getElem bound)).bind fun v m' h => ?_
    obtain ⟨rfl, -, hv, -⟩ := h
    exact (does_push (x := .value) hm hv).imp fun _ _ => hready hone
  | null =>
    rw [hzero] at hm
    exact (does_push_plain hm Value.toHandle?_null).imp fun _ _ => hready hone
  | true_ | false_ =>
    rw [hzero] at hm
    exact (does_push_plain hm (Value.toHandle?_ofBool _)).imp fun _ _ => hready hone
  | pop =>
    rw [hone] at hm
    exact (does_drop hm rfl).imp fun _ _ => hready hzero
  | defineGlobal name =>
    rw [hone] at hm
    exact (does_defineGlobal hm rfl name).imp fun _ _ hm' => hready hzero hm'.1
  | setGlobal name =>
    rw [hone] at hm
    exact (does_assignGlobal hm name).imp fun _ _ => hready hone
  | setUpvalue variable_ =>
    rw [hone] at hm
    exact (does_setUpvalue hm variable_).imp fun _ _ => hready hone
  | getProperty name =>
    rw [hone] at hm
    exact (does_getProperty hm name).imp fun _ _ ⟨_, hm'⟩ => hready hone hm'
  | setProperty name =>
    rw [htwo] at hm
    exact (does_setProperty hm name).imp fun _ _ => hready hone
  | equal =>
    rw [htwo] at hm
    exact (does_equal hm).imp fun _ _ => hready hone
  | greater =>
    rw [htwo] at hm
    show Does (arithmetic .greater (fun x y => .ofBool (x > y)) m) _
    exact (does_arithmetic hm fun _ _ => Value.toHandle?_ofBool _).imp fun _ _ => hready hone
  | less =>
    rw [htwo] at hm
    show Does (arithmetic .less (fun x y => .ofBool (x < y)) m) _
    exact (does_arithmetic hm fun _ _ => Value.toHandle?_ofBool _).imp fun _ _ => hready hone
  | add =>
    rw [htwo] at hm
    exact (does_add hm).imp fun _ _ ⟨_, hm'⟩ => hready hone hm'
  | subtract =>
    rw [htwo] at hm
    show Does (arithmetic .minus (fun x y => .ofFloat (x - y)) m) _
    exact (does_arithmetic hm fun _ _ => Value.toHandle?_ofFloat _).imp fun _ _ => hready hone
  | multiply =>
    rw [htwo] at hm
    show Does (arithmetic .star (fun x y => .ofFloat (x * y)) m) _
    exact (does_arithmetic hm fun _ _ => Value.toHandle?_ofFloat _).imp fun _ _ => hready hone
  | divide =>
    rw [htwo] at hm
    show Does (arithmetic .slash (fun x y => .ofFloat (x / y)) m) _
    exact (does_arithmetic hm fun _ _ => Value.toHandle?_ofFloat _).imp fun _ _ => hready hone
  | not =>
    rw [hone] at hm
    exact (does_pop hm rfl).bind fun v m' h =>
      (does_push_plain h.1 (Value.toHandle?_ofBool _)).imp fun _ _ => hready hone
  | negate =>
    rw [hone] at hm
    exact (does_negate hm).imp fun _ _ => hready hone
  | print =>
    rw [hone] at hm
    exact (does_print hm).imp fun _ _ => hready hzero
  | @call count =>
    rw [withValues_succ] at hm
    refine (does_peek (T := List.replicate count.toNat .value) hm List.length_replicate).bind
      fun v m' h => ?_
    obtain ⟨rfl, -, hv⟩ := h
    exact does_callValue hm (hcalls rfl) (List.cons_ne_nil _ _) hv
  | invoke name =>
    rw [withValues_succ] at hm
    refine (does_constantHandle hm name).bind fun r m' h => ?_
    obtain ⟨rfl, ht, -⟩ := h
    exact does_invoke hm (hcalls rfl) (List.cons_ne_nil _ _) ht
  | duplicate =>
    rw [hone] at hm
    refine (does_peek_top hm).bind fun v m' h => ?_
    obtain ⟨rfl, hv⟩ := h
    exact (does_push (x := .value) hm hv).imp fun _ _ => hready htwo

/-- An instruction that is followed by the next one. -/
theorem does_effect {i : Instr} {A B : Shape} (h : Effect a.context i A B)
    (hm : m.Shows W ⟨below ++ A.slots, A.known, a :: rest⟩) (outer : Suspended rest below)
    (base : a.frame.base = below.length) (next : a.layout.Lands none a.frame.ip B) :
    Does (perform i m) fun _ m' => m'.Ready := by
  have hready {V : World} {S : List Slot} {m' : Machine} (hS : below ++ B.slots = S)
      (hm' : m'.Shows V ⟨S, B.known, a :: rest⟩) : m'.Ready := by
    subst hS
    exact ready_next hm' outer base next
  have hassoc (S T : List Slot) : below ++ (S ++ T) = below ++ S ++ T :=
    (List.append_assoc _ _ _).symm
  have htwo (S : List Slot) (x y : Slot) : below ++ (S ++ [x, y]) = below ++ S ++ [x] ++ [y] := by
    simp
  cases h with
  | plain plain nonempty => exact does_plain plain hm outer base nonempty next
  | getLocal slot => exact (does_getLocal hm base slot).imp fun _ _ => hready (hassoc _ _)
  | setLocal slot content =>
    exact (does_setLocal hm base slot content).imp fun _ _ hm' => hready rfl hm'.forget
  | getUpvalue variable_ =>
    exact (does_getUpvalue hm variable_).imp fun _ _ => hready (hassoc _ _)
  | getGlobal name =>
    refine (does_getGlobal (x := .value) hm name fun r v hr hget => ?_).imp
      fun _ _ => hready (hassoc _ _)
    exact hm.globals.get? ⟨_, hr, rfl⟩ hget
  | getKnown name =>
    refine (does_getGlobal (x := .aClass) hm name fun r v hr hget => ?_).imp
      fun _ _ => hready (hassoc _ _)
    obtain ⟨r', v', hr', hget', hv'⟩ := hm.known _ rfl
    obtain rfl := World.text_unique hm.sound hm.fits hr hr'
    exact Option.some.inj (hget'.symm.trans hget) ▸ hv'
  | defineClass name =>
    rw [hassoc] at hm
    exact (does_defineGlobal hm rfl name).imp fun _ _ hm' => hready rfl (hm'.2 rfl)
  | class_ name =>
    exact (does_class hm name).imp fun _ _ ⟨V, hm'⟩ => hready (hassoc _ _) hm'.forget
  | inherit =>
    rw [htwo] at hm
    exact (does_inherit hm).imp fun _ _ => hready (hassoc _ _)
  | method name =>
    rw [htwo] at hm
    exact (does_addMethod hm name).imp fun _ _ hm' => hready (hassoc _ _) hm'.forget
  | getSuper name =>
    rw [htwo] at hm
    exact (does_getSuper hm name).imp fun _ _ ⟨V, hm'⟩ => hready (hassoc _ _) hm'.forget
  | @superInvoke k count s S g name nonempty =>
    rw [hassoc, withValues_succ] at hm
    refine (does_constantHandle hm name).bind fun r m' h => ?_
    obtain ⟨rfl, ht, -⟩ := h
    refine (does_pop hm rfl).bind fun v m₁ h => (does_handleOf h.2).bind fun x m' h' => ?_
    obtain ⟨rfl, -, hx⟩ := h'
    exact does_invokeFromClass h.1 (.cons outer base nonempty next) hx ht
  | closeUpvalue =>
    rw [hassoc] at hm
    exact (does_closeUpvalue hm).imp fun _ _ hm' => hready rfl hm'.1.forget

/-! ### Returns -/

/-- A return hands its value to the function that waits for it, or finishes; the variables of the
function are closed. -/
theorem does_return (hm : m.Shows W ⟨below ++ (own ++ [.value]), g, a :: rest⟩)
    (outer : Suspended rest below) (base : a.frame.base = below.length) :
    Does (return_ m) fun progress m' =>
      ((progress = .running ∧ m'.Ready) ∨ (progress = .finished ∧ m'.Rests)) ∧
        Machine.ClosedFrom below.length m m' := by
  rw [← List.append_assoc] at hm
  obtain ⟨v, hpop, hv, hvalues⟩ := exists_pop hm.toTyped
  have hm₁ : Machine.Shows { m with stack := m.stack.pop } W ⟨below ++ own, g, a :: rest⟩ :=
    hm.restack hvalues (.of_append fun x hx => by rw [List.mem_singleton.mp hx]; rfl)
  refine does_bind_ok hpop ((does_frame hm₁.toTyped).bind fun f m' h => ?_)
  obtain ⟨rfl, rfl⟩ := h
  have hframes : m.frames.pop.toList.reverse = rest.map Activation.frame := by
    rw [Array.toList_pop, ← List.tail_reverse, hm.frames]
    rfl
  have hm₂ : Machine.Shows { m with stack := m.stack.pop, frames := m.frames.pop } W
      ⟨below ++ own, g, rest⟩ :=
    hm₁.reframe hframes fun b hb => hm₁.runs b (List.mem_cons_of_mem _ hb)
  obtain ⟨h', upper, lower, hclose, htyped, hsplit, hcloses⟩ := closeUpvalues_eq below.length hm₂
  rw [base]
  refine does_bind_ok (n := { m with stack := m.stack.pop, frames := m.frames.pop }) rfl
    (does_bind_ok hclose ?_)
  have hlists := hm₂.lists.close hsplit hcloses
  -- only the slots of the functions that wait are left
  have hm₃ : Machine.Shows { m with
      heap := h', openUpvalues := lower, frames := m.frames.pop
      stack := m.stack.pop.shrink below.length } W ⟨below, g, rest⟩ := by
    refine ⟨{ htyped with stack := ?_ }, hlists⟩
    show List.Forall₂ _ (m.stack.pop.shrink below.length).toList below
    rw [Array.toList_shrink]
    exact List.forall₂_take_append _ _ _ htyped.stack
  have hsize : m.stack.pop.size = below.length + own.length := by
    rw [← Array.length_toList, hvalues.length_eq, List.length_append]
  have hpopped (j : Nat) (hj : j < below.length + own.length) : m.stack.pop[j]? = m.stack[j]? := by
    rw [Array.size_pop] at hsize
    rw [Array.getElem?_pop, if_pos (by omega)]
  have hclosed {m' : Machine} (hheap : m'.heap = h')
      (hstack : ∀ j, j < below.length → m'.stack[j]? = m.stack.pop[j]?) :
      Machine.ClosedFrom below.length m m' := by
    refine Machine.closedFrom hm.lists hsplit ?_ fun j hj =>
      (hstack j hj).trans (hpopped j (by omega))
    rw [hheap]
    refine hcloses.restack fun j v hj => ?_
    have hlt : j < m.stack.pop.size := (Array.getElem?_eq_some_iff.mp hj).1
    exact (hpopped j (hsize ▸ hlt)).symm.trans hj
  refine does_bind_ok (n := { m with
    heap := h', openUpvalues := lower, frames := m.frames.pop
    stack := m.stack.pop.shrink below.length }) rfl (does_bind_ok (n := { m with
    heap := h', openUpvalues := lower, frames := m.frames.pop
    stack := m.stack.pop.shrink below.length }) rfl ?_)
  cases hrest : rest with
  | nil =>
    subst hrest
    have hempty : m.frames.pop.isEmpty = true := by
      rw [Array.isEmpty_iff, ← Array.toList_eq_nil_iff, ← List.reverse_eq_nil_iff, hframes]
      rfl
    cases outer
    rw [if_pos hempty]
    exact ⟨.inr ⟨rfl, W, hm₃.forget⟩, hclosed rfl fun j hj => absurd hj (Nat.not_lt_zero j)⟩
  | cons b others =>
    have hnonempty : ¬ m.frames.pop.isEmpty = true := by
      rw [Array.isEmpty_iff, ← Array.toList_eq_nil_iff, ← List.reverse_eq_nil_iff, hframes, hrest]
      exact List.cons_ne_nil _ _
    rw [if_neg hnonempty]
    have hm₄ := does_push (x := .value) hm₃ hv
    refine ⟨.inl ⟨rfl, ?_⟩, hclosed rfl fun j hj => ?_⟩
    · exact hm₄.ready outer (by rw [hrest]; exact List.cons_ne_nil _ _)
    · show (m.stack.pop.shrink below.length |>.push v)[j]? = m.stack.pop[j]?
      have hshrunk : (m.stack.pop.shrink below.length).size = below.length := by
        rw [Array.size_shrink, hsize]
        omega
      rw [Array.getElem?_push_lt (by rw [hshrunk]; exact hj), Array.getElem_shrink,
        Array.getElem?_eq_getElem]

/-! ### Steps -/

/-- Where control lands, an instruction takes the slots as they are. -/
theorem exists_step {A : Shape} (hr : W.Runs m.heap a) (hl : a.layout.Lands none a.frame.ip A) :
    ∃ i E, a.layout.words[a.frame.ip]? = some i.encode ∧ A.Fits E ∧
      Layout.Step a.context a.layout.words (a.layout.Lands none) a.frame.ip i E := by
  rcases hl with ⟨w, E, hget, hfits⟩ | ⟨-, E, hE, -⟩
  · obtain ⟨i, rfl, hstep⟩ := hr.valid.steps _ _ _ hget
    rw [Nat.zero_add] at hstep
    refine ⟨i, E, ?_, hfits, hstep⟩
    rw [Layout.words, List.getElem?_map, hget]
    rfl
  · cases hE

/-- What the stack and the next instruction look like. -/
theorem exists_instructionText (hm : m.Shows W ⟨below, g, a :: rest⟩) {A : Shape}
    (hl : a.layout.Lands none a.frame.ip A) : ∃ text, instructionText m a.frame = .ok text := by
  have hr := hm.runs a List.mem_cons_self
  obtain ⟨i, E, hword, -, hstep⟩ := exists_step hr hl
  have hdisplayed (v : Value) (hv : v ∈ m.stack.toList) : ∃ text, m.heap.display v = .ok text := by
    obtain ⟨x, -, hx⟩ := exists_of_mem_left hm.stack hv
    exact hm.fits.display hx.any
  obtain ⟨shown, hshown⟩ := exists_mapM hdisplayed
  obtain ⟨captures, hknown⟩ := hr.known
  obtain ⟨f, -, hobject, hd⟩ := hm.fits.prototype hknown
  rw [hr.function, Option.some.injEq, Object.function.injEq] at hobject
  subst hobject
  have hconstants : ∀ v ∈ a.prototype.chunk.constants, W.Holds v .any := by
    cases hd with
    | function _ constants _ => exact constants
  rw [hr.words, Array.getElem?_toList] at hword
  have hin : a.frame.ip < a.prototype.chunk.code.size := (Array.getElem?_eq_some_iff.mp hword).1
  obtain ⟨line, hline⟩ := Prototype.exists_listInstr hm.fits hconstants hin fun k hk => by
    rw [Prototype.instr?, hword, Option.bind_some, Instr.decode?_encode, Option.some.injEq] at hk
    subst hk
    cases hstep with
    | effect effect => cases effect with
      | plain plain => cases plain
    | closure function =>
      rw [hr.constants] at function
      obtain ⟨v, r, o, hv, hat, ho, hd⟩ :=
        World.exists_constant (f := a.prototype) hm.fits function
      cases hd with
      | function => exact ⟨v, r, _, hv, hat, ho⟩
  rw [instructionText, hshown, hr.chunk]
  show ∃ text, (a.prototype.chunk.listInstr m.heap a.frame.ip >>= _) = .ok text
  rw [hline]
  exact ⟨_, rfl⟩

/-- Noting the next instruction changes the journal alone. -/
theorem does_noteInstruction (hm : m.Shows W ⟨below, g, a :: rest⟩) {A : Shape}
    (hl : a.layout.Lands none a.frame.ip A) :
    Does (noteInstruction m) fun _ m' => m'.Shows W ⟨below, g, a :: rest⟩ := by
  refine does_bind_ok (n := m) rfl ?_
  split
  · refine (does_frame hm.toTyped).bind fun f m' h => ?_
    obtain ⟨rfl, rfl⟩ := h
    obtain ⟨text, htext⟩ := exists_instructionText hm hl
    refine does_bind_ok (n := m') (b := .ok text) (congrArg (EStateM.Result.ok · m') htext) ?_
    exact hm.alike (Heap.alike_note _ _ _)
  · exact hm

/-- What a step leads to: an instruction, or the end of the run. -/
def GoesOn (progress : Progress) (m : Machine) : Prop :=
  (progress = .running ∧ m.Ready) ∨ (progress = .finished ∧ m.Rests)

/-- A step leads to an instruction or to the end of the run. -/
theorem does_step (hm : m.Ready) : Does (step m) GoesOn := by
  obtain ⟨W, O, hm, hp⟩ := hm
  cases hp with
  | @intro a rest below A outer base lands =>
    refine (does_noteInstruction hm lands).bind fun _ m₁ hm₁ => ?_
    obtain ⟨i, E, hword, hfits, hstep⟩ := exists_step (hm₁.runs a List.mem_cons_self) lands
    refine (does_fetch hm₁ hword).bind fun w m₂ h => ?_
    obtain ⟨rfl, hm₂⟩ := h
    have hm₂ : m₂.Shows W ⟨below ++ E.slots, E.known, a.goTo (a.frame.ip + 1) :: rest⟩ := by
      have hslots := hm₂.weaken (SlotsFit.append (.refl below) hfits.slots)
      rcases hfits.known with hknown | hknown
      · rw [hknown]
        exact hslots.forget
      · rw [← hknown]
        exact hslots
    rw [Instr.decode?_encode]
    have hon {x : Exec Unit} {m : Machine} (hx : Does (x m) fun _ m' => m'.Ready) :
        Does ((do x; return Progress.running : Exec Progress) m) GoesOn :=
      hx.bind fun _ _ hm' => .inl ⟨rfl, hm'⟩
    cases hstep with
    | effect effect next =>
      have hperform := does_effect (a := a.goTo (a.frame.ip + 1)) effect hm₂ outer base next
      cases i with
      | return_ => cases effect with
        | plain plain => cases plain
      | _ => exact hon hperform
    | closure function fits captures words next =>
      refine hon ((does_makeClosure hm₂ base function fits captures words).imp fun _ m' hm' => ?_)
      obtain ⟨V, hm'⟩ := hm'
      exact ready_next (a := (a.goTo (a.frame.ip + 1)).goTo _) (B := .plain _) hm'.forget outer
        base next
    | return_ => exact (does_return hm₂ outer base).imp fun _ _ => And.left
    | jump next =>
      refine hon ((does_frame hm₂.toTyped).bind fun f m' h => ?_)
      obtain ⟨rfl, rfl⟩ := h
      exact (does_setIp _ hm₂).imp fun _ _ hm' =>
        ready_next (a := (a.goTo (a.frame.ip + 1)).goTo _) hm' outer base next
    | @jumpIfFalse d S g nonempty next target =>
      have hpeek := hm₂
      rw [← List.append_assoc] at hpeek
      refine hon ((does_peek_top hpeek).bind fun v m' h => ?_)
      obtain ⟨rfl, -⟩ := h
      split
      · refine (does_frame hm₂.toTyped).bind fun f m' h => ?_
        obtain ⟨rfl, rfl⟩ := h
        exact (does_setIp _ hm₂).imp fun _ _ hm' =>
          ready_next (a := (a.goTo (a.frame.ip + 1)).goTo _) (B := .plain _) hm'.forget outer base
            target
      · exact ready_next (B := .plain _) hm₂.forget outer base next
    | @loop d A back next =>
      refine hon ((does_frame hm₂.toTyped).bind fun f m' h => ?_)
      obtain ⟨rfl, rfl⟩ := h
      have hback : ¬ (a.goTo (a.frame.ip + 1)).frame.ip < d.toNat := Nat.not_lt.mpr back
      rw [if_neg hback]
      exact (does_setIp _ hm₂).imp fun _ _ hm' =>
        ready_next (a := (a.goTo (a.frame.ip + 1)).goTo _) hm' outer base next

/-- So does a run, however long it is. -/
theorem does_run (fuel : Nat) (hm : m.Ready) : Does (run fuel m) GoesOn := by
  induction fuel generalizing m with
  | zero => exact .inl ⟨rfl, hm⟩
  | succ fuel ih =>
    refine (does_step hm).bind fun progress m' h => ?_
    rcases h with ⟨rfl, hm'⟩ | ⟨rfl, hm'⟩
    · exact ih hm'
    · exact .inr ⟨rfl, hm'⟩

end Exec

end ScriptMachine
