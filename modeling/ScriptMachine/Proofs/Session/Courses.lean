import ScriptMachine.Proofs.Session.Commands
import ScriptMachine.Proofs.Session.Disassembly
import ScriptMachine.Proofs.Session.Traces

/-!
# Scripts on their course

A script is a row of stretches and a final return. While it is the outermost function, a machine
that runs it is in the midst of it whatever function is the innermost one: the closure of the script
is in the lowest slot, and what the script leads to lasts. Up to the final return the script itself
stays within its row, and in front of that return it is alone on the stack.
-/

namespace ScriptMachine

open Compile (FunctionKind)

/-! ### Steps within a row -/

namespace Exec

variable {m m' : Machine} {g : Frame} {i : Instr} {S : Nat → Prop}

/-- An instruction that neither returns nor makes a closure leads the innermost function to where
the instruction goes, perhaps with another function on top of it. -/
theorem moves_of_step (hi : m.next? = some i) (hno : i ≠ .return_)
    (hclosure : ∀ k, i ≠ .closure k) (hback : m.frames.back? = some g) (hgoes : i.Goes g.ip S)
    (hstep : step m = .ok .running m') : ∃ t, S t ∧
      (m'.frames = m.frames.pop.push { g with ip := t } ∨
        ∃ x, m'.frames = (m.frames.pop.push { g with ip := t }).push x) := by
  obtain ⟨f, h, hf, -, hcarried⟩ := perform_of_step hi hno hstep
  obtain rfl : g = f := Option.some.inj (hback.symm.trans hf)
  cases hstraight : i.isStraight with
  | false =>
    obtain ⟨t, ht, hmoved⟩ := jump_eq_ok (m := m.fetched g h) hstraight hno hclosure
      Array.back?_push rfl hgoes hcarried
    refine ⟨t, ht, .inl ?_⟩
    rw [hmoved]
    show (m.frames.pop.push _).pop.push _ = _
    rw [Array.pop_push]
  | true =>
    refine ⟨g.ip + 1, (Instr.goes_of_isStraight hstraight).mp hgoes, ?_⟩
    cases hcall : i.arguments? with
    | none => exact .inl ((stays_perform hstraight hcall).ok hcarried)
    | some count =>
      have hentering := (enters_perform (by rw [hcall]; rfl)).ok hcarried
      cases hentering with
      | stays frames => exact .inl frames
      | enters _ _ frames => exact .inr ⟨_, frames⟩

/-- Only a return ends a run, and only that of the outermost function. -/
theorem return_of_finished (hstep : step m = .ok .finished m') :
    m.next? = some .return_ ∧ m.frames.size ≤ 1 ∧ m'.framesMax = m.framesMax := by
  rcases step_cases m with ⟨f, m₁, hfault⟩ | ⟨f, i, h, hback, hi, -, hreturn, hperform⟩
  · cases hfault.symm.trans hstep
  by_cases hno : i = .return_
  · subst hno
    refine ⟨hi, ?_⟩
    rw [hreturn rfl] at hstep
    obtain ⟨v, m₁, hpop, hrest⟩ := exists_of_bind_ok hstep
    obtain ⟨rfl, -⟩ := pop_eq_ok hpop
    obtain ⟨g, m₂, hframe, hrest⟩ := exists_of_bind_ok hrest
    obtain ⟨rfl, -⟩ := frame_eq_ok hframe
    obtain ⟨_, m₃, hmodify, hrest⟩ := exists_of_bind_ok hrest
    obtain ⟨-, rfl⟩ := EStateM.Result.ok.inj hmodify
    obtain ⟨_, m₄, hclose, hrest⟩ := exists_of_bind_ok hrest
    have hsteady := (steady_closeUpvalues _).ok hclose
    have hframes : m₄.frames = (m.fetched f h).frames.pop := hsteady.frames
    obtain ⟨_, m₅, hcut, hrest⟩ := exists_of_bind_ok hrest
    obtain ⟨-, rfl⟩ := EStateM.Result.ok.inj hcut
    obtain ⟨last, m₆, hlook, hrest⟩ := exists_of_bind_ok hrest
    obtain ⟨rfl, rfl⟩ := EStateM.Result.ok.inj hlook
    split at hrest
    · next hempty =>
      have hsize : m₄.frames.size = 0 := by simpa using hempty
      rw [hframes, Machine.fetched, Array.pop_push, Array.size_pop] at hsize
      obtain ⟨-, rfl⟩ := EStateM.Result.ok.inj hrest
      exact ⟨by omega, hsteady.limit⟩
    · obtain ⟨_, m₇, -, hpure⟩ := exists_of_bind_ok hrest
      cases hpure
  · rw [hperform hno] at hstep
    obtain ⟨_, m₁, -, hpure⟩ := exists_of_bind_ok hstep
    cases hpure

end Exec

namespace Machine

variable {m m' : Machine} {a b : Row} {g : Frame} {rest : List Frame} {p : Part} {ps : List Part}
  {k n : Nat} {done : Atoms} {i : Instr}

/-- A step of a function that is no initializer leads it from within a part of its row, which leads
only to marks of its own, to within the same part or to the end of that. -/
theorem Works.moves_within (hw : m.Works g rest p ps k done) (hm : m.Ready)
    (hi : m.next? = some i) (hno : i ≠ .return_) (hrow : p.row = a ++ b)
    (hlaid : Row.Laid p.body (a.Mark n) 0 a) (hkind : p.body.kind ≠ .initializer)
    (hip : g.ip < a.words.length) (hstep : Exec.step m = .ok .running m') :
    ∃ t ≤ a.words.length, m'.frames = m.frames.pop.push { g with ip := t } ∨
      ∃ x, m'.frames = (m.frames.pop.push { g with ip := t }).push x := by
  obtain ⟨height, ws, left, -, hat⟩ := hw.position hi
  obtain ⟨before, after, ha, offset⟩ := (hrow ▸ hat).split_left hip
  have hbehind : g.ip + (i.encode :: ws).length ≤ a.words.length := by
    rw [ha, offset]
    simp
    omega
  have hnext : p.body.Next before.words.length height (a.Mark n) done (i.encode :: ws) left := by
    have hstretch := hlaid
    rw [ha, Row.laid_append, Row.Laid, Nat.zero_add, ← ha] at hstretch
    exact hstretch.2.1.next
  have hplain (hclosure : ∀ k, i ≠ .closure k) (hgoes : i.Goes g.ip (· ≤ a.words.length)) :=
    Exec.moves_of_step hi hno hclosure hw.back hgoes hstep
  have hstraight (hi : i.isStraight = true) : i.Goes g.ip (· ≤ a.words.length) := by
    rw [Instr.goes_of_isStraight hi]
    rw [List.length_cons] at hbehind
    omega
  generalize hatom : i.encode :: ws = atom at hnext
  cases hnext with
  | @instr j permits goes =>
    obtain ⟨heq, -⟩ := List.cons.inj hatom
    obtain rfl := Instr.encode_injective heq
    rw [List.flatten_nil, List.length_nil, Nat.add_zero] at offset
    refine hplain (fun k hk => ?_) ?_
    · subst hk
      exact permits
    · have hshifted : i.Goes (0 + before.words.length) (· ≤ a.words.length) :=
        goes.shift fun t ht => by
          rw [Nat.zero_add]
          exact ht.le
      rwa [Nat.zero_add, ← offset] at hshifted
  | answer kind => exact absurd kind hkind
  | inner inner _ =>
    cases inner with
    | @instr j declares =>
      obtain ⟨heq, -⟩ := List.cons.inj hatom
      obtain rfl := Instr.encode_injective heq
      refine hplain (fun k hk => ?_) (hstraight declares.isStraight)
      have := declares.isStraight
      rw [hk] at this
      cases this
    | @method _ _ _ k =>
      obtain ⟨heq, -⟩ := List.cons.inj hatom
      obtain rfl := Instr.encode_injective heq
      exact hplain (by simp) (hstraight rfl)
    | closure codes rooted proper =>
      subst hatom
      obtain ⟨r, c, B, f', -, -, -, -, hframes, -⟩ :=
        hw.makes hm hi hat codes rooted proper hstep
      exact ⟨_, hbehind, .inl hframes⟩

end Machine

/-! ### What scripts lead to -/

namespace Heap

variable {h h' : Heap} {r x : Handle}

/-- A script leads to functions and texts only. -/
def LeadsToCode (h : Heap) (r : Handle) : Prop :=
  ∀ x, h.Reachable [r] x → ∃ o, h.object? x = some o ∧ o.IsCode

/-- What lasts of a script that leads to code only is all that it leads to. -/
theorem LeadsToCode.object? (hr : h.LeadsToCode r) (hl : h.Lasts h' r) (hx : h.Reachable [r] x) :
    h'.object? x = h.object? x := by
  have hfixed {o : Object} (ho : o.IsCode) : o.isFixed = true := by cases ho <;> rfl
  have hinvolves : h.Involves r x := by
    induction hx with
    | root mem => exact List.mem_singleton.mp mem ▸ .self
    | step from_ object stores ih =>
      obtain ⟨o, ho, hcoded⟩ := hr _ from_
      obtain rfl := Option.some.inj (ho.symm.trans object)
      exact ih.stored object (hfixed hcoded) stores
  obtain ⟨o, ho, hcoded⟩ := hr x hx
  rw [ho]
  exact hl.object hinvolves ho (hfixed hcoded)

end Heap

/-- A script that was compiled leads to code only. -/
theorem Compile.leadsToCode_of_compile {source : String} {heap h : Heap} {outer : List Handle}
    {r : Handle} (hs : heap.Sound) (hc : heap.Covers outer)
    (hdone : compile source heap outer = (.function r, h)) : h.LeadsToCode r := by
  obtain ⟨W, hscripted⟩ := scripted_of_compile hs hc hdone
  obtain ⟨all, hgrove, -⟩ := hscripted.planted
  intro x hx
  have hroots : [Value.ofHandle r].filterMap Value.toHandle? = [r] := by
    rw [List.filterMap_cons_some (Value.toHandle?_ofHandle r), List.filterMap_nil]
  rcases hgrove.reached (hroots ▸ hx) with hall | ⟨s, hs⟩
  · obtain ⟨f, hf, -⟩ := hgrove.functions x hall
    exact ⟨_, hf, .function f⟩
  · exact ⟨_, hs, .string s⟩

/-! ### Courses -/

/-- A compiled script: in front of its final return is the row of stretches `row`, which leads from
the lowest slot to the lowest slot. -/
structure Course where
  heap : Heap
  script : Handle
  function : Prototype
  body : Body
  row : Row
  object : heap.object? script = some (.function function)
  code : function.chunk.code.toList = row.words ++ FunctionKind.finalReturn .script
  isScript : Compile.IsScript function
  kind : body.kind = .script
  height : row.height 1 = 1
  laid : Row.Laid body (row.Mark 1) 0 row
  leads : heap.LeadsToCode script
  wellFormed : function.WellFormed heap

/-- A source that compiles comes to a course. -/
theorem Compile.exists_course {source : String} {heap h : Heap} {outer : List Handle} {r : Handle}
    (hs : heap.Sound) (hc : heap.Covers outer)
    (hdone : compile source heap outer = (.function r, h)) :
    ∃ c : Course, c.heap = h ∧ c.script = r ∧
      c.body = ⟨h, .script, c.function.chunk.constants.toList, [], []⟩ := by
  obtain ⟨body, f, ws, scope, hspells, hf, codes, code⟩ := scripts_of_compile hs hc hdone
  have hprogram := isProgram_of_compile hs hc hdone
  obtain ⟨g, hg, hscript⟩ := hprogram.script
  obtain rfl : f = g := Object.function.inj (Option.some.inj (hf.symm.trans hg))
  have houter : Body.Rooted ⟨h, .script, f.chunk.constants.toList, [], []⟩ :=
    fun level hlevel => by cases hlevel
  have hpasses := codes.passes (fun s _ _ _ _ hs ht hp h => h.passes houter hs ht hp)
    (Scope.rooted_start .script []) (fun _ => ⟨rfl, rfl⟩)
    (hspells.tokens ▸ properNames_source source)
  have hone : scope.length = 1 := (hpasses.topmost rfl).1
  obtain ⟨a, hwords, hheight, hlaid⟩ := hpasses.flows
  rw [hone] at hheight hlaid
  exact ⟨{
    heap := h
    script := r
    function := f
    body := ⟨h, .script, f.chunk.constants.toList, [], []⟩
    row := a
    object := hf
    code := by rw [code, hwords]
    isScript := hscript
    kind := rfl
    height := hheight
    laid := hlaid
    leads := leadsToCode_of_compile hs hc hdone
    wellFormed := hprogram.wellFormed r f (.root List.mem_cons_self) hf }, rfl, rfl, rfl⟩

namespace Course

variable {c : Course} {h : Heap}

/-- The row of the final return of a script. -/
def last : Row := [(1, [[Instr.null.encode]]), (2, [[Instr.return_.encode]])]

/-- The part that the whole script is. -/
def part (c : Course) : Part := ⟨c.body, c.row ++ last⟩

/-- The words of the part are those of the script. -/
theorem words_part (c : Course) : c.part.row.words = c.function.chunk.code.toList := by
  rw [c.code, part, Row.words_append]
  rfl

/-- The part starts with the callee on the stack. -/
theorem height_part (c : Course) : c.part.row.height 0 = 1 := by
  rw [part, Row.height_append]
  exact c.height

/-- The part leads only to its own marks. -/
theorem laid_part (c : Course) : Row.Laid c.body (c.part.row.Mark 0) 0 c.part.row := by
  have hkind : c.body.kind ≠ .initializer := by
    rw [c.kind]
    exact nofun
  refine Row.laid_append.mpr ⟨by simpa [part] using c.laid.within [] last (m := 0) rfl,
    .instr trivial ?_, .instr hkind trivial, trivial⟩
  rw [Nat.zero_add]
  exact ⟨c.row ++ [(1, [[Instr.null.encode]])], [(2, [[Instr.return_.encode]])],
    by simp [part, last], by simp, rfl⟩

/-- Where the script lasts, its function is the same. -/
theorem function_of_lasts (hl : c.heap.Lasts h c.script) :
    h.object? c.script = some (.function c.function) :=
  (c.leads.object? hl (.root List.mem_cons_self)).trans c.object

/-- Where the script lasts, its constants are the same. -/
theorem sameConstants (hl : c.heap.Lasts h c.script) : c.function.SameConstants c.heap h :=
  fun _ hv _ hy => c.leads.object? hl
    ((Heap.Reachable.root List.mem_cons_self).step c.object (.functionConstant hv hy))

end Course

namespace Machine

variable {m m' : Machine} {c : Course} {y : Handle}

/-- The machine is in the midst of a script: the script is the outermost function, as the closure
`y` in the lowest slot, and every active function is at its place. -/
structure OnCourse (m : Machine) (c : Course) (y : Handle) : Prop where
  ready : m.Ready
  sourced : m.Sourced
  sits : ∃ done ps, m.Sits done (ps ++ [c.part])
  lowest : ∃ g, m.frames[0]? = some g ∧ g.closure = y ∧ g.base = 0
  callee : m.stack[0]? = some (.ofHandle y)
  object : m.heap.object? y = some (.closure ⟨c.script, #[]⟩)
  lasts : c.heap.Lasts m.heap c.script

/-- The script alone is active, at the offset `ip`, with nothing but itself on the stack. -/
structure Alone (m : Machine) (c : Course) (y : Handle) (ip : Nat) : Prop where
  stack : m.stack = #[.ofHandle y]
  frames : m.frames = #[⟨y, c.function.chunk, ip, 0⟩]
  openUpvalues : m.openUpvalues = []

/-- `m'` is the machine `m` after it has loaded a source: at the start of the script, with what `m`
kept alive. -/
structure Begins (m : Machine) (source : String) (c : Course) (y : Handle) (m' : Machine) :
    Prop where
  compiled : Compile.compile source m.heap m.roots = (.function c.script, c.heap)
  onCourse : m'.OnCourse c y
  alone : m'.Alone c y 0
  globals : m'.globals = m.globals
  initName : m'.initName = m.initName
  framesMax : m'.framesMax = m.framesMax
  sink : m'.sink = m.sink
  clock : m'.clock = m.clock
  kept : ∀ x, c.heap.Reachable (c.script :: m.roots) x → m'.heap.object? x = c.heap.object? x

/-- A source that is loaded begins. -/
theorem Rests.begins {source : String} (hm : m.Rests) (hs : m.Sourced)
    (hdone : m.load source = (.unfinished, m')) : ∃ c y, m.Begins source c y m' := by
  obtain ⟨r, m₁, hmade, henter⟩ := load_unfinished hdone
  have hready : m'.Ready := by
    have hleads := leads_load source hm
    rw [hdone] at hleads
    cases hleads with
    | unfinished ready => exact ready
  obtain ⟨W, hm⟩ := hm
  have hempty := Rests.clean ⟨W, hm⟩
  have hcompiled := hm.compiled source
  have hretains := hm.retains_compile hmade (by simp)
  obtain ⟨hresult, hm₁⟩ := Prod.mk.inj ((compile_eq m source).symm.trans hmade)
  obtain ⟨c, hheap, rfl, hbody⟩ := Compile.exists_course (r := r)
    (h := (Compile.compile source m.heap m.roots).2) hm.sound (hm.covers hm.lists)
    (Prod.ext hresult rfl)
  have hmade' : Compile.compile source m.heap m.roots = (.function c.script, c.heap) :=
    Prod.ext hresult hheap.symm
  rw [← hheap] at hm₁ hbody
  subst hm₁
  rw [hmade] at hcompiled
  cases hcompiled with
  | @function V _ _ shows known =>
  have hs₁ : Sourced { m with heap := c.heap } := hs.rest hretains ⟨V, shows⟩
  have hscripts := Compile.scripts_of_compile hm.sound (hm.covers hm.lists) hmade'
  have hnone (u : Handle) (j : Nat) : ¬ c.heap.StandsFor u j := fun hj =>
    absurd (shows.lists.eq_nil ▸ shows.lists.all u j hj) List.not_mem_nil
  rcases enter_cases shows known with ⟨fault, m₂, hfault⟩ | ⟨y, m₂, hloaded, hcall⟩
  · cases hfault.symm.trans henter
  rw [hcall] at henter
  have hcalm := ((Exec.calm_callClosure y 0).ok henter).toRetains
  obtain ⟨hsourced, hserves⟩ :=
    hs₁.loaded hnone (hscripts.embodies c.object c.isScript.arity) hloaded hcalm
  obtain ⟨d, g, hd, hg, -, -, heq⟩ := Exec.callClosure_eq_ok henter
  obtain rfl := Object.closure.inj (Option.some.inj (hd.symm.trans hloaded.object))
  have hfunction : m₂.heap.object? c.script = some (.function c.function) :=
    (hloaded.objects c.script (.root List.mem_cons_self)).trans c.object
  obtain rfl := Object.function.inj (Option.some.inj (hg.symm.trans hfunction))
  obtain ⟨h', hrest⟩ := hloaded.rest
  have hstack₂ : m₂.stack = #[.ofHandle y] := by
    rw [hloaded.stack, hempty.stack]
    rfl
  have hstack : m'.stack = #[.ofHandle y] := by rw [heq, hstack₂]
  have hframes : m'.frames = #[⟨y, c.function.chunk, 0, 0⟩] := by
    rw [heq, hloaded.frames, hempty.frames, hstack₂]
    rfl
  have hheap' : m'.heap = m₂.heap := by rw [heq]
  have hobject : m'.heap.object? y = some (.closure ⟨c.script, #[]⟩) :=
    hheap' ▸ hloaded.object
  have hserved : m'.Serves ⟨c.script, #[]⟩ c.body c.function := by
    rw [hbody]
    exact hserves _ hobject
  have hplays : m'.Plays ⟨y, c.function.chunk, 0, 0⟩ c.part :=
    ⟨c.function, ⟨⟨_, hobject, hserved⟩, c.words_part,
      by rw [c.height_part, c.isScript.arity]; rfl, c.laid_part⟩, rfl⟩
  have honCourse : m'.OnCourse c y :=
    { ready := hready
      sourced := hsourced
      sits := ⟨[], [], .intro (g := ⟨y, c.function.chunk, 0, 0⟩) (k := 1)
        { frames := by rw [hframes]; rfl
          plays := hplays
          stands := .mark ⟨[], c.part.row, rfl, rfl, c.height_part⟩
          height := by rw [hstack]; rfl
          low := by rw [hstack]; exact Nat.one_pos
          made := made_nil
          outer := .nil }⟩
      lowest := ⟨_, by rw [hframes]; rfl, rfl, rfl⟩
      callee := by rw [hstack]; rfl
      object := hobject
      lasts := hheap' ▸ hloaded.lasts }
  refine ⟨c, y,
    { compiled := hmade'
      onCourse := honCourse
      alone := ⟨hstack, hframes, by rw [heq, hrest]; exact hempty.openUpvalues⟩
      globals := by rw [heq, hrest]
      initName := by rw [heq, hrest]
      framesMax := by rw [heq, hrest]
      sink := by rw [heq, hrest]
      clock := by rw [heq, hrest]
      kept := fun x hx => ?_ }⟩
  rw [hheap']
  exact hloaded.objects x hx

end Machine

/-! ### From step to step -/

namespace Machine

variable {m m' : Machine} {c : Course} {y : Handle} {g : Frame} {i : Instr} {now : Float}

/-- Where no upvalue is listed, none is open. -/
theorem Ready.not_standsFor (hm : m.Ready) (hnone : m.openUpvalues = []) (u : Handle) (j : Nat) :
    ¬ m.heap.StandsFor u j := by
  obtain ⟨W, O, hm, -⟩ := hm
  intro hj
  have hlisted := hm.lists.all u j hj
  rw [hnone] at hlisted
  exact List.not_mem_nil hlisted

/-- A listed upvalue stands for a slot of the stack. -/
theorem Ready.standsFor {u : Handle} (hm : m.Ready) (hu : u ∈ m.openUpvalues) :
    ∃ j < m.stack.size, m.heap.StandsFor u j := by
  obtain ⟨W, O, hm, -⟩ := hm
  obtain ⟨js, hstands, -⟩ := hm.lists.ordered
  obtain ⟨j, -, hj⟩ := exists_of_mem_left hstands hu
  obtain ⟨_, -, hslot⟩ := hm.lists.slot u hu j hj
  exact ⟨j, hm.size_stack ▸ (List.getElem?_eq_some_iff.mp hslot).1, hj⟩

namespace OnCourse

/-- A step that goes on is one in the midst of the same script. -/
theorem step (hm : m.OnCourse c y) (hstep : Exec.step m = .ok .running m') : m'.OnCourse c y := by
  have hm' : m'.Ready := by
    rcases (Exec.does_step hm.ready).of_ok hstep with ⟨-, hm'⟩ | ⟨hfinished, -⟩
    · exact hm'
    · cases hfinished
  obtain ⟨f, i, hback, hi, hadvanced⟩ := Exec.advanced_of_step hm.ready hstep
  obtain ⟨x, hx⟩ := hm'.exists_back
  have hpos : 0 < m'.frames.size := Array.size_pos_of_mem (Array.mem_of_back? hx)
  obtain ⟨g, hg, hclosure, hbase⟩ := hm.lowest
  have hmem : g ∈ m.frames := Array.mem_of_getElem? hg
  obtain ⟨done, ps, hsits⟩ := hm.sits
  obtain ⟨hs', done', ps', hsits', hcallee⟩ : m'.Sourced ∧ ∃ done' ps',
      m'.Sits done' (ps' ++ [c.part]) ∧ m'.stack[0]? = m.stack[0]? := by
    generalize hps : ps ++ [c.part] = qs at hsits
    cases hsits with
    | @intro g' rest p qs k done works =>
      obtain ⟨hs', done', hturned⟩ := works.step hm.ready hm' hm.sourced hi hstep
      refine ⟨hs', ?_⟩
      cases hturned with
      | on _ sits callees =>
        exact ⟨done', ps, hps ▸ sits, hbase ▸ callees g hmem⟩
      | entered _ sits callees =>
        obtain ⟨c, hc⟩ := hm'.exists_closure (Array.mem_of_back? hx)
        obtain ⟨B, f, hserves⟩ := hs'.closures x.closure c hc
        obtain ⟨q, -, hosts⟩ := exists_hosts hc hserves
        refine ⟨[], q :: ps, ?_, hbase ▸ callees g hmem⟩
        rw [List.cons_append, hps]
        exact sits x q f hx hosts
      | returned size sits callees =>
        have hgpop : g ∈ m.frames.pop := by
          refine Array.mem_of_getElem? (i := 0) ?_
          rw [Array.getElem?_pop, if_pos (by omega)]
          exact hg
        cases ps with
        | nil =>
          obtain ⟨-, rfl⟩ := List.cons.inj hps
          cases sits
        | cons p' ps =>
          obtain ⟨-, rfl⟩ := List.cons.inj hps
          exact ⟨[], ps, sits, hbase ▸ callees g hgpop⟩
  have hfirst := hadvanced.outermost hback hpos
  rw [hg, Array.getElem?_eq_getElem hpos, Option.map_some, Option.map_some] at hfirst
  have hrewound := Option.some.inj hfirst
  have hclosure' : m'.frames[0].closure = y := (rewound_closure hrewound).trans hclosure
  obtain ⟨new, hretains, hnew⟩ := hm.ready.retains_active hstep
  obtain ⟨d, hd⟩ := hm'.exists_closure (Array.getElem_mem hpos)
  rw [hclosure'] at hd
  have hynew : y ∉ new := hclosure ▸ hnew g hmem
  have hbefore := hretains.heap.object y _ hd rfl hynew
  obtain rfl := Object.closure.inj (Option.some.inj (hm.object.symm.trans hbefore))
  exact
    { ready := hm'
      sourced := hs'
      sits := ⟨done', ps', hsits'⟩
      lowest := ⟨m'.frames[0], Array.getElem?_eq_getElem hpos, hclosure',
        (congrArg Frame.base hrewound : m'.frames[0].rewound.base = g.rewound.base).trans hbase⟩
      callee := hcallee.trans hm.callee
      object := hd
      lasts := hm.lasts.trans (hretains.heap.stored y _ c.script hd rfl hynew .closureFunction) }

/-- The clock may tell another time. -/
theorem ticked (hm : m.OnCourse c y) (now : Float) : { m with clock := now }.OnCourse c y := by
  have hready : Ready { m with clock := now } :=
    InPhase.imp (p := .running) hm.ready fun W O hm => ⟨{ hm.toTyped with }, hm.lists⟩
  obtain ⟨done, ps, hsits⟩ := hm.sits
  exact
    { hm with
      ready := hready
      sourced := hm.sourced.retain ⟨.of_alike (.refl _), rfl⟩
        (clears_of_frames fun x hx => ⟨x, hx, rfl⟩)
      sits := ⟨done, ps, hsits.alike hready (.refl _) rfl rfl rfl⟩ }

/-- The script at work, where no other function is active. -/
theorem works (hm : m.OnCourse c y) (hsize : m.frames.size = 1) : ∃ g k done,
    m.Works g [] c.part [] k done ∧ m.frames = #[g] ∧ g.closure = y ∧ g.base = 0 := by
  obtain ⟨done, ps, hsits⟩ := hm.sits
  obtain ⟨g, hg, hclosure, hbase⟩ := hm.lowest
  have hframes : m.frames = #[g] := by
    refine Array.ext_getElem? fun j => ?_
    rcases j with _ | j
    · exact hg
    · rw [Array.getElem?_eq_none (by omega), Array.getElem?_eq_none (by simp)]
  generalize hps : ps ++ [c.part] = qs at hsits
  cases hsits with
  | @intro g' rest p qs k done works =>
    have hall := works.frames
    rw [hframes] at hall
    obtain ⟨rfl, rfl⟩ := List.cons.inj (show g :: [] = g' :: rest from hall)
    have hnone {callee : Nat} (houter : m.Waits [] qs callee) : qs = [] := by
      cases houter
      rfl
    obtain rfl := hnone works.outer
    obtain ⟨-, rfl, -⟩ := append_cons_eq_singleton hps.symm
    exact ⟨g, k, done, works, hframes, hclosure, hbase⟩

/-- Up to its final return the script stays in its row. -/
theorem within (hm : m.OnCourse c y) (hstep : Exec.step m = .ok .running m')
    (hno : m.frames.size = 1 → m.next? ≠ some .return_)
    (hbefore : ∀ g, m.frames[0]? = some g → g.ip ≤ c.row.words.length)
    (hgo : m.frames.size = 1 → ∀ g, m.frames[0]? = some g → g.ip ≠ c.row.words.length) :
    ∀ g, m'.frames[0]? = some g → g.ip ≤ c.row.words.length := by
  obtain ⟨f, i, hback, hi, hadvanced⟩ := Exec.advanced_of_step hm.ready hstep
  have hpos : 0 < m.frames.size := Array.size_pos_of_mem (Array.mem_of_back? hback)
  by_cases hsize : m.frames.size = 1
  · obtain ⟨g, k, done, hworks, hframes, -, -⟩ := hm.works hsize
    have hg : m.frames[0]? = some g := by rw [hframes]; rfl
    have hip := Nat.lt_of_le_of_ne (hbefore g hg) (hgo hsize g hg)
    have hkind : c.part.body.kind ≠ .initializer := by
      rw [show c.part.body.kind = _ from c.kind]
      exact nofun
    obtain ⟨t, ht, hmoved⟩ := hworks.moves_within hm.ready hi
      (fun heq => hno hsize (heq ▸ hi)) rfl c.laid hkind hip hstep
    intro g' hg'
    rw [hframes] at hmoved
    rcases hmoved with hmoved | ⟨x, hmoved⟩ <;>
    · rw [hmoved] at hg'
      obtain rfl := Option.some.inj hg'
      exact ht
  · rw [hadvanced.bottom (by omega)]
    exact hbefore

/-- In front of the final return only the script is on the stack. -/
theorem stack_end (hm : m.OnCourse c y) (hsize : m.frames.size = 1)
    (hend : ∀ g, m.frames[0]? = some g → g.ip = c.row.words.length) :
    m.stack = #[.ofHandle y] := by
  obtain ⟨g, k, done, hworks, hframes, -, hbase⟩ := hm.works hsize
  have hip := hend g (by rw [hframes]; rfl)
  have hi : m.next? = some .null := by
    obtain ⟨f, hosts, hchunk⟩ := hworks.plays
    rw [next?, hworks.back, Option.bind_some, hchunk, ← Array.getElem?_toList, ← hosts.words,
      hip, Course.part, Row.words_append, List.getElem?_append_right (Nat.le_refl _), Nat.sub_self]
    exact Instr.decode?_encode .null
  obtain ⟨n, ws, left, hk, hat⟩ := hworks.position hi
  obtain ⟨rfl, rfl, -⟩ := hat.split_end hip (by simp)
  have hone : m.stack.size = 1 := by rw [hworks.height, hbase, hk]; rfl
  refine Array.ext_getElem? fun j => ?_
  rcases j with _ | j
  · exact hm.callee
  · rw [Array.getElem?_eq_none (by omega), Array.getElem?_eq_none (by simp)]

end OnCourse

end Machine

/-! ### Runs that come to their ends -/

namespace Machine

variable {m m' : Machine}

/-- A run that comes to its end leaves how many functions may be active. -/
theorem Bounded.finished {fuel : Nat} (hb : m.Bounded) (hm : m.Ready)
    (hdone : Exec.run fuel m = .ok .finished m') : m'.framesMax = m.framesMax := by
  induction fuel generalizing m with
  | zero => cases hdone
  | succ fuel ih =>
    obtain ⟨progress, m₁, hstep, hrest⟩ := Exec.exists_of_bind_ok hdone
    rcases (Exec.does_step hm).of_ok hstep with ⟨rfl, hm₁⟩ | ⟨rfl, -⟩
    · obtain ⟨hb₁, hlimit⟩ := hb.step hm hstep
      exact (ih hb₁ hm₁ hrest).trans hlimit
    · obtain ⟨-, rfl⟩ := EStateM.Result.ok.inj hrest
      exact (Exec.return_of_finished hstep).2.2

/-- So does one in slices. -/
theorem Bounded.runSlices {slices : List (Float × Nat)} (hb : m.Bounded) (hm : m.Ready)
    (hdone : m.runSlices slices = (.ok, m')) : m'.framesMax = m.framesMax := by
  induction slices generalizing m with
  | nil => cases (Prod.mk.inj hdone).1
  | cons slice rest ih =>
    obtain ⟨now, fuel⟩ := slice
    have hticked : Ready { m with clock := now } :=
      InPhase.imp (p := .running) hm fun W O hm => ⟨{ hm.toTyped with }, hm.lists⟩
    have hb' : Bounded { m with clock := now } := ⟨hb.count, hb.bases⟩
    have hdoes := Exec.does_run fuel hticked
    rw [Machine.runSlices, resume] at hdone
    cases hrun : Exec.run fuel { m with clock := now } with
    | ok progress m₁ =>
      rw [hrun] at hdone hdoes
      cases progress with
      | running =>
        rcases hdoes with ⟨-, hm₁⟩ | ⟨hfinished, -⟩
        · obtain ⟨hb₁, hlimit⟩ := hb'.run hticked hrun
          exact (ih hb₁ hm₁ hdone).trans hlimit
        · cases hfinished
      | finished =>
        obtain ⟨-, rfl⟩ := Prod.mk.inj hdone
        exact hb'.finished hticked hrun
    | error halt m₁ =>
      rw [hrun] at hdone hdoes
      cases halt with
      | fault f => cases (Prod.mk.inj hdone).1
      | error e =>
        obtain ⟨W, O, hshows⟩ := hdoes
        obtain ⟨f, m₂, hfailure, -⟩ := Exec.failure_eq e hshows
        simp only [settle, hfailure] at hdone
        cases (Prod.mk.inj hdone).1

end Machine

end ScriptMachine
