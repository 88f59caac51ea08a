import ScriptMachine.Proofs.Session.Account
import ScriptMachine.Proofs.Session.Limits
import ScriptMachine.Proofs.Session.Lookups

/-!
# Traces of errors

While a script runs, every active function but the innermost one is right behind the call that it
waits for, and the outermost one is the script. An instruction that an error stops has been read and
has called nothing. So the word before the next one of an active function is an instruction and no
capture, and the report of the error has its line. Lines are counted from 1, as long as no source
has so many that their numbers do not fit.
-/

namespace ScriptMachine

/-- The word before the next one of the frame is a call. -/
def Frame.AtCall (g : Frame) : Prop :=
  ∃ o i, g.ip = o + 1 ∧ (g.chunk.code[o]?).bind Instr.decode? = some i ∧ i.arguments?.isSome

/-- The layout that an activation goes through lays its function out. -/
theorem World.Runs.laidOut {W : World} {h : Heap} {a : Activation} (hr : W.Runs h a)
    (hw : W.Fits h) : LaidOut h a.context a.prototype a.layout where
  words := hr.words
  valid := hr.valid
  count _ _ hk := World.captureCount_eq hw (hr.constants ▸ hk)

namespace Machine

variable {settings : Settings} {journal : Journal} {sink : Sink} {m m' : Machine} {W : World}
  {O : Outline} {a : Activation} {g g' : Frame} {i : Instr} {e : TraceEntry} {f : Prototype}
  {new : List Handle}

/-! ### What the frames execute -/

/-- The frame is one of a closure of the function `f`. -/
structure Executes (m : Machine) (g : Frame) (f : Prototype) : Prop where
  closure : ∃ c, m.heap.object? g.closure = some (.closure c) ∧
    m.heap.object? c.function = some (.function f)
  chunk : g.chunk = f.chunk

/-- A frame executes one function. -/
theorem Executes.unique {f' : Prototype} (h : m.Executes g f) (h' : m.Executes g f') : f = f' := by
  obtain ⟨c, hc, hf⟩ := h.closure
  obtain ⟨c', hc', hf'⟩ := h'.closure
  obtain rfl := Object.closure.inj (Option.some.inj (hc.symm.trans hc'))
  exact Object.function.inj (Option.some.inj (hf.symm.trans hf'))

/-- Frames that differ in their offsets only are of one closure. -/
theorem rewound_closure (hg : g'.rewound = g.rewound) : g'.closure = g.closure :=
  (congrArg Frame.closure hg : g'.rewound.closure = g.rewound.closure)

/-- Wherever it is in its code, a frame executes the function as long as its closure stays. -/
theorem Executes.carry (h : m.Executes g f) (hr : m.Retains new m') (hnew : g.closure ∉ new)
    (hm' : ∃ c, m'.heap.object? g.closure = some (.closure c)) (hg : g'.rewound = g.rewound) :
    m'.Executes g' f := by
  obtain ⟨c, hc, hf⟩ := h.closure
  obtain ⟨c', hc'⟩ := hm'
  obtain rfl := Object.closure.inj (Option.some.inj
    (hc.symm.trans (hr.heap.object _ _ hc' rfl hnew)))
  have hlasts := hr.heap.stored _ _ _ hc' rfl hnew .closureFunction
  have hclosure : g'.closure = g.closure := rewound_closure hg
  have hchunk : g'.chunk = g.chunk :=
    (congrArg Frame.chunk hg : g'.rewound.chunk = g.rewound.chunk)
  exact ⟨⟨c, hclosure ▸ hc', hlasts.object .self hf rfl⟩, hchunk.trans h.chunk⟩

/-- An active function executes its code. -/
theorem Shows.executes (hm : m.Shows W O) (ha : a ∈ O.active) :
    m.Executes a.frame a.prototype :=
  have hr := hm.runs a ha
  ⟨⟨a.closure, hr.closure, hr.function⟩, hr.chunk⟩

/-- A step may make or change closures and classes, but none that a frame is of. -/
theorem Ready.retains_active (hm : m.Ready) (hstep : Exec.step m = .ok .running m') :
    ∃ new, m.Retains new m' ∧ ∀ x ∈ m.frames, x.closure ∉ new := by
  obtain ⟨-, i, -, hi, -⟩ := Exec.advanced_of_step hm hstep
  have hfresh {r : Handle} (hr : m.Retains [r] m') (hfresh : ∀ x, m.Keeps x → x ≠ r) :
      ∃ new, m.Retains new m' ∧ ∀ x ∈ m.frames, x.closure ∉ new :=
    ⟨[r], hr, fun x hx hmem => hfresh x.closure
      (.root (mem_roots.mpr (.inr (.inl ⟨x, hx, rfl⟩)))) (List.mem_singleton.mp hmem)⟩
  have hreshaped {f : Frame} {h : Heap} {r : Handle} {c : ClassObject} {methods : Table}
      (hback : m.frames.back? = some f) (halike : m.heap.Alike h)
      (hr : (m.fetched f h).Reshaped r c methods m') :
      ∃ new, m.Retains new m' ∧ ∀ x ∈ m.frames, x.closure ∉ new := by
    refine ⟨[r], (fetched_preserves hback halike).retains.trans hr.retains, fun x hx hmem => ?_⟩
    obtain ⟨d, hd⟩ := hm.exists_closure hx
    rw [List.mem_singleton.mp hmem] at hd
    cases hd.symm.trans ((halike.object? r).symm.trans hr.before)
  cases hcode : i.shapesCode with
  | false => exact ⟨[], hm.retains_step hi hcode hstep, fun x _ => List.not_mem_nil⟩
  | true =>
    cases i with
    | closure k =>
      obtain ⟨W, O, hshows, hpoised⟩ := hm
      cases hpoised with
      | intro outer base lands =>
        obtain ⟨r, c, hclosed⟩ := hshows.closed base lands hi hstep
        exact hfresh hclosed.retains hclosed.fresh
    | class_ k =>
      obtain ⟨W, O, hshows, hpoised⟩ := hm
      cases hpoised with
      | intro outer base lands =>
        obtain ⟨r, hclassed⟩ := hshows.classed lands hi hstep
        exact hfresh hclassed.retains hclassed.fresh
    | inherit =>
      obtain ⟨f, h, hback, halike, hcarried⟩ := Exec.perform_of_step hi (by simp) hstep
      obtain ⟨v, w, x, r, s, c, -, -, -, -, -, hr⟩ := Exec.inherit_eq_ok hcarried
      exact hreshaped hback halike hr
    | method k =>
      obtain ⟨f, h, hback, halike, hcarried⟩ := Exec.perform_of_step hi (by simp) hstep
      obtain ⟨name, key, v, w, r, c, -, -, -, -, -, hr⟩ := Exec.addMethod_eq_ok hcarried
      exact hreshaped hback halike hr
    | _ => cases hcode

/-! ### Down to the script -/

/-- Every frame but the innermost one is behind a call, and the outermost one executes a function
without a name. -/
structure Descends (m : Machine) : Prop where
  waiting : ∀ g ∈ m.frames.pop, g.AtCall
  script : ∃ g f, m.frames[0]? = some g ∧ m.Executes g f ∧ f.name = none

/-- An instruction leaves the outermost function what it is, unless it returns. -/
theorem Advanced.outermost {inner : Frame} (h : m.Advanced inner i m')
    (hback : m.frames.back? = some inner) (hpos : 0 < m'.frames.size) :
    (m'.frames[0]?).map Frame.rewound = (m.frames[0]?).map Frame.rewound := by
  have hreplaced {xs : Array Frame} {x y : Frame} (hx : xs.back? = some x)
      (hxy : y.rewound = x.rewound) :
      ((xs.pop.push y)[0]?).map Frame.rewound = (xs[0]?).map Frame.rewound := by
    conv_rhs => rw [Exec.eq_pop_push hx]
    rw [Array.getElem?_push, Array.getElem?_push]
    split
    · exact congrArg some hxy
    · rfl
  have hfetched (h : Heap) : ((m.fetched inner h).frames[0]?).map Frame.rewound =
      (m.frames[0]?).map Frame.rewound := hreplaced hback rfl
  cases h with
  | within _ outer rewound =>
    obtain ⟨x, hx, hrewound⟩ := Option.map_eq_some_iff.mp rewound
    rw [Exec.eq_pop_push hx, outer]
    exact hreplaced hback hrewound
  | @called _ _ h _ _ called =>
    cases called with
    | entered x _ _ _ frames =>
      have hdeep : 0 < (m.fetched inner h).frames.size := by
        rw [fetched, Array.size_push]
        exact Nat.succ_pos _
      rw [frames, Array.getElem?_push_lt hdeep, ← Array.getElem?_eq_getElem, hfetched]
    | answered _ _ frames => rw [frames, hfetched]
  | returned _ frames =>
    rw [frames, Array.size_pop] at hpos
    rw [frames, Array.getElem?_pop, if_pos hpos]

/-- One step keeps that. -/
theorem Descends.step (hd : m.Descends) (hm : m.Ready) (hm' : m'.Ready)
    (hstep : Exec.step m = .ok .running m') : m'.Descends := by
  obtain ⟨inner, i, hback, hi, hadvanced⟩ := Exec.advanced_of_step hm hstep
  constructor
  · intro g hg
    cases hadvanced with
    | within _ outer => exact hd.waiting g (outer ▸ hg)
    | called hcall _ called =>
      cases called with
      | entered x _ _ _ frames =>
        rw [frames, Array.pop_push, fetched] at hg
        rcases Array.mem_push.mp hg with hg | rfl
        · exact hd.waiting g hg
        · rw [next?, hback, Option.bind_some] at hi
          exact ⟨inner.ip, i, rfl, hi, hcall⟩
      | answered _ _ frames =>
        rw [frames, fetched, Array.pop_push] at hg
        exact hd.waiting g hg
    | returned _ frames =>
      rw [frames] at hg
      refine hd.waiting g ?_
      rw [← Array.mem_toList_iff, Array.toList_pop] at hg ⊢
      exact List.dropLast_subset _ hg
  · obtain ⟨g, f, hg, hexecutes, hname⟩ := hd.script
    obtain ⟨new, hretains, hnew⟩ := hm.retains_active hstep
    obtain ⟨x, hx⟩ := hm'.exists_back
    have hpos : 0 < m'.frames.size := Array.size_pos_of_mem (Array.mem_of_back? hx)
    have hfirst := hadvanced.outermost hback hpos
    rw [Array.getElem?_eq_getElem hpos, hg, Option.map_some, Option.map_some] at hfirst
    have hrewound := Option.some.inj hfirst
    have hthere := hm'.exists_closure (Array.getElem_mem hpos)
    exact ⟨m'.frames[0], f, Array.getElem?_eq_getElem hpos,
      hexecutes.carry hretains (hnew g (Array.mem_of_getElem? hg))
        (rewound_closure hrewound ▸ hthere) hrewound, hname⟩

/-- So does a run. -/
theorem Descends.run {fuel : Nat} (hd : m.Descends) (hm : m.Ready)
    (hdone : Exec.run fuel m = .ok .running m') : m'.Descends := by
  induction fuel generalizing m with
  | zero =>
    obtain ⟨-, rfl⟩ := EStateM.Result.ok.inj hdone
    exact hd
  | succ fuel ih =>
    obtain ⟨progress, m₁, hstep, hrest⟩ := Exec.exists_of_bind_ok hdone
    rcases (Exec.does_step hm).of_ok hstep with ⟨rfl, hm₁⟩ | ⟨rfl, -⟩
    · exact ih (hd.step hm hm₁ hstep) hm₁ hrest
    · cases hrest

/-- It is a matter of the frames and the objects. -/
theorem Descends.congr (hd : m.Descends) (halike : m.heap.Alike m'.heap)
    (hframes : m'.frames = m.frames) : m'.Descends := by
  obtain ⟨g, f, hg, ⟨⟨c, hc, hf⟩, hchunk⟩, hname⟩ := hd.script
  exact ⟨fun g hg => hd.waiting g (hframes ▸ hg), g, f, hframes ▸ hg,
    ⟨⟨c, (halike.object? _).trans hc, (halike.object? _).trans hf⟩, hchunk⟩, hname⟩

/-! ### Entering a script -/

/-- A script that was compiled is entered as the only function, unless the arena is full or no
function may be active at all. -/
inductive Enters (m : Machine) : EStateM.Result Halt Machine Unit → Prop
  | fault {f : Fault} {m' : Machine} : Enters m (.error (.fault f) m')
  | refused {m' : Machine} (none : m.framesMax = 0) : Enters m (.error (.error .stackOverflow) m')
  | entered {m' : Machine} {g : Frame} {f : Prototype} (frames : m'.frames = #[g])
      (executes : m'.Executes g f) (name : f.name = none) (limit : m'.framesMax = m.framesMax) :
      Enters m (.ok () m')

/-- What a machine compiles a source to is a program; how many functions may be active stays. -/
theorem Shows.compiles {source : String} {r : Handle} (hm : m.Shows W O)
    (hdone : m.compile source = (.function r, m')) :
    m'.heap.IsProgram r ∧ m'.framesMax = m.framesMax := by
  obtain ⟨hresult, rfl⟩ := Prod.mk.inj hdone
  exact ⟨Compile.isProgram_of_compile hm.sound (hm.covers hm.lists) (Prod.ext hresult rfl), rfl⟩

/-- A machine at rest enters a script that compiled. -/
theorem Rests.enters {source : String} {r : Handle} {m₁ : Machine} (hm : m.Rests)
    (hdone : m.compile source = (.function r, m₁)) : m.Enters (Exec.enter r m₁) := by
  obtain ⟨W, hm⟩ := hm
  have hcompiled := hm.compiled source
  rw [hdone] at hcompiled
  obtain ⟨⟨⟨f, hf, hscript⟩, -⟩, hlimit₁⟩ := hm.compiles hdone
  cases hcompiled with
  | @function V _ _ shows known =>
    rcases enter_cases shows known with ⟨fault, m₂, hfault⟩ | ⟨y, m₂, hloaded, henter⟩
    · exact hfault ▸ .fault
    have hempty := Rests.clean ⟨V, shows⟩
    have hframes : m₂.frames = #[] := hloaded.frames.trans hempty.frames
    have hsize : m₂.stack.size = 1 := by
      rw [hloaded.stack, hempty.stack]
      rfl
    have hlimit : m₂.framesMax = m.framesMax := by
      obtain ⟨h, rfl⟩ := hloaded.rest
      exact hlimit₁
    have hfunction : m₂.heap.object? r = some (.function f) :=
      (hloaded.objects r (.root List.mem_cons_self)).trans hf
    rw [henter]
    have hcount : (0 : UInt8).toNat < m₂.stack.size := hsize ▸ Nat.one_pos
    rcases Exec.callClosure_cases hloaded.object hfunction hcount with hok | ⟨hcount, -⟩ | ⟨hfull, hrefused⟩
    · rw [hok]
      refine .entered (g := ⟨y, f.chunk, 0, m₂.stack.size - 1⟩) ?_
        ⟨⟨_, hloaded.object, hfunction⟩, rfl⟩ hscript.name hlimit
      rw [hframes]
      rfl
    · exact absurd hscript.arity.symm hcount
    · rw [hrefused]
      refine .refused ?_
      rw [hframes, hsize, hlimit, stackPerFrame] at hfull
      have hnone : (#[] : Array Frame).size = 0 := rfl
      omega

/-- In the midst of every run of a session. -/
theorem Reached.descends (hm : Reached settings journal sink .running m) : m.Descends := by
  generalize hp : Phase.running = p at hm
  induction hm with
  | created | disassembled | collected => cases hp
  | @loaded m m' source outcome p before done phase =>
    subst hp
    cases outcome with
    | unfinished =>
      obtain ⟨r, m₁, hmade, henter⟩ := load_unfinished done
      have henters := before.inPhase.enters hmade
      rw [henter] at henters
      cases henters with
      | @entered _ g f frames executes name =>
        exact ⟨fun x hx => by simp [frames] at hx, g, f, by rw [frames]; rfl, executes, name⟩
    | _ => cases phase
  | @resumed m m' fuel outcome p before done phase ih =>
    subst hp
    cases outcome with
    | unfinished => exact (ih rfl).run before.inPhase (resume_unfinished done)
    | _ => cases phase
  | tookOutput _ ih => exact (ih hp).congr (.refl _) rfl
  | tookEvents _ ih => exact (ih hp).congr ⟨rfl, rfl, rfl, rfl, rfl⟩ rfl
  | ticked _ _ ih => exact (ih hp).congr (.refl _) rfl

/-! ### What a report says -/

/-- The entry `e` is right for the frame, which is executing the instruction `i`: the entry names
the function of the frame, and has the line that is recorded for the offset of the instruction. -/
def Traces (m : Machine) (g : Frame) (i : Instr) (e : TraceEntry) : Prop :=
  ∃ f o, m.Executes g f ∧ g.ip = o + 1 ∧ f.At m.heap o i ∧ f.Titled m.heap e.function ∧
    f.chunk.lines[o]? = some e.line

/-- The entry of a report is right wherever the word before the next one is read as an instruction
other than a constant. -/
theorem Shows.traces {o : Nat} (hm : m.Shows W O) (ha : a ∈ O.active) (he : a.Traced m.heap e)
    (hip : a.frame.ip = o + 1) (hi : (a.frame.chunk.code[o]?).bind Instr.decode? = some i)
    (hplain : ∀ k, i ≠ .constant k) : m.Traces a.frame i e := by
  have hr := hm.runs a ha
  rw [hr.chunk] at hi
  have hat := (hr.laidOut hm.fits).at_of_instr hi hplain
  obtain ⟨w, hword, -⟩ := Option.bind_eq_some_iff.mp hi
  have hlined : a.prototype.chunk.Lined := by
    obtain ⟨captures, hknown⟩ := hr.known
    obtain ⟨t, ht, hd⟩ := hm.fits _ _ hknown
    obtain rfl := Option.some.inj (hr.function.symm.trans ht)
    cases hd with
    | function _ _ code => exact code.lines
  have hlt : o < a.prototype.chunk.lines.size :=
    hlined.size ▸ (Array.getElem?_eq_some_iff.mp hword).1
  have hline : e.line = a.prototype.chunk.lines[o] := by
    rw [he.line, hip, Nat.add_sub_cancel, Chunk.lineAt, Array.getElem?_eq_getElem hlt]
    rfl
  exact ⟨a.prototype, o, hm.executes ha, hip, hat, he.function,
    hline ▸ Array.getElem?_eq_getElem hlt⟩

/-- Where all recorded lines are counted from 1, so are those of right entries. -/
theorem Traces.one_le_line (h : m.Traces g i e) (hm : m.heap.LinesFromOne) : 1 ≤ e.line := by
  obtain ⟨f, o, hexecutes, -, -, -, hline⟩ := h
  obtain ⟨c, -, hfunction⟩ := hexecutes.closure
  have hlines : f.chunk.LinesFromOne := hm _ _ hfunction
  exact hlines _ (Array.mem_of_getElem? hline)

/-- No error stops a constant. -/
theorem Ready.ne_constant {error : RuntimeError} (hm : m.Ready) (hi : m.next? = some i)
    (hstop : Exec.step m = .error (.error error) m') (k : UInt16) : i ≠ .constant k := by
  rintro rfl
  obtain ⟨f, h, -, -, hstep⟩ := hm.step_eq hi (by simp)
  rcases Exec.error_of_bind (hstep.symm.trans hstop) with hcarried | ⟨_, _, -, hpure⟩
  · have hquiet : Exec.Quiet (Exec.constant k) := .bind Exec.quiet_frame fun g => by
      split
      · exact Exec.quiet_pure _
      · exact Exec.quiet_fault _
    exact (hquiet.bind fun v => Exec.quiet_push v) _ _ _ hcarried
  · cases hpure

end Machine

/-- The failure reports what stops the step of `n`, and `n'` is the machine that is stopped: the
innermost frame has read the instruction that the error stops and is otherwise as it was, like all
others. The trace has an entry for each frame, the innermost first. The first entry is right for the
instruction that is stopped, and its line is the one of the failure; every other one is right for a
call; and the last one is of the script. -/
structure Failure.Reports (f : Failure) (n n' : Machine) : Prop where
  stopped : Exec.step n = .error (.error f.error) n'
  frames : ∃ g, n.frames.back? = some g ∧ n'.frames = n.frames.pop.push { g with ip := g.ip + 1 }
  first : ∃ g i e, n'.frames.back? = some g ∧ n.next? = some i ∧ f.trace.head? = some e ∧
    n'.Traces g i e ∧ f.line = e.line
  others : List.Forall₂ (fun g e => ∃ i, i.arguments?.isSome ∧ n'.Traces g i e)
    n'.frames.toList.reverse.tail f.trace.tail
  script : f.trace.getLast?.map TraceEntry.function = some "script"
  length : f.trace.length = n.frames.size
  positive : 1 ≤ f.trace.length
  bounded : f.trace.length ≤ n.framesMax

/-- Where all recorded lines are counted from 1, so are those of a report. -/
theorem Failure.Reports.one_le_line {f : Failure} {n n' : Machine} (h : f.Reports n n')
    (hn : n'.heap.LinesFromOne) : ∀ e ∈ f.trace, 1 ≤ e.line := by
  obtain ⟨g, i, first, -, -, hhead, hfirst, -⟩ := h.first
  intro e he
  rw [List.eq_cons_of_mem_head? hhead] at he
  rcases List.mem_cons.mp he with rfl | he
  · exact hfirst.one_le_line hn
  · obtain ⟨g', -, j, -, hother⟩ := exists_of_mem_right h.others he
    exact hother.one_le_line hn

namespace Machine

variable {settings : Settings} {journal : Journal} {sink : Sink} {m m' : Machine}

/-- The last entry of a trace is the one of the outermost frame. -/
theorem exists_last {W : World} {O : Outline} {g : Frame} {trace : List TraceEntry}
    (hm : m.Shows W O) (hentries : List.Forall₂ (Activation.Traced m.heap) O.active trace)
    (hg : m.frames[0]? = some g) :
    ∃ a e, a ∈ O.active ∧ a.frame = g ∧ trace.getLast? = some e ∧ a.Traced m.heap e := by
  have hframes : m.frames.toList = O.active.reverse.map Activation.frame := by
    rw [List.map_reverse, ← hm.frames, List.reverse_reverse]
  rw [← Array.getElem?_toList, hframes] at hg
  have hreversed := List.forall₂_reverse_iff.mpr hentries
  rw [List.getLast?_eq_head?_reverse]
  have hmem (a : Activation) : a ∈ O.active.reverse → a ∈ O.active := List.mem_reverse.mp
  generalize O.active.reverse = active at hreversed hg hmem
  generalize trace.reverse = entries at hreversed
  cases hreversed with
  | nil => cases hg
  | @cons a e _ _ he => exact ⟨a, e, hmem a List.mem_cons_self, Option.some.inj hg, rfl, he⟩

/-- A step that an error stops is reported. -/
theorem Ready.reports {e : RuntimeError} {f : Failure} {m'' : Machine} (hm : m.Ready)
    (hd : m.Descends) (hb : m.Bounded) (hstop : Exec.step m = .error (.error e) m')
    (hdone : m'.settle (.error e) = (.failed f, m'')) : f.Reports m m' := by
  have hshows := Exec.does_step hm
  rw [hstop] at hshows
  obtain ⟨W, O, hshows⟩ := hshows
  obtain ⟨f', m₂, heq, rfl, -, -, -, -, hline, hentries⟩ := Exec.failure_eq e hshows
  simp only [settle, heq] at hdone
  obtain ⟨hfailed, -⟩ := Prod.mk.inj hdone
  obtain rfl := Outcome.failed.inj hfailed
  obtain ⟨g, i, h, hback, hi, -, hspared⟩ := hm.spared hstop
  have hframes : m'.frames = m.frames.pop.push { g with ip := g.ip + 1 } := hspared.frames
  have hpos : 0 < m.frames.size := Array.size_pos_of_mem (Array.mem_of_back? hback)
  have hsize : m'.frames.size = m.frames.size := by
    rw [hframes, Array.size_push, Array.size_pop]
    omega
  have hlength : f'.trace.length = m.frames.size := by
    rw [← hentries.length_eq, ← List.length_map (f := Activation.frame), ← hshows.frames,
      List.length_reverse, Array.length_toList, hsize]
  have hscript : f'.trace.getLast?.map TraceEntry.function = some "script" := by
    obtain ⟨x, p, hx, hexecutes, hname⟩ := hd.script
    obtain ⟨y, hy, hrewound⟩ : ∃ y, m'.frames[0]? = some y ∧ y.rewound = x.rewound := by
      rw [Exec.eq_pop_push hback, Array.getElem?_push] at hx
      rw [hframes, Array.getElem?_push]
      split at hx
      · next hone =>
        rw [if_pos hone]
        exact ⟨_, rfl, by rw [← Option.some.inj hx]; rfl⟩
      · next hmore =>
        rw [if_neg hmore]
        exact ⟨x, hx, rfl⟩
    obtain ⟨a, e, ha, rfl, hlast, he⟩ := exists_last hshows hentries hy
    have hsame : a.prototype = p := (hshows.executes ha).unique
      (hexecutes.carry (hm.retains_last (.inr ⟨_, hstop⟩)) List.not_mem_nil
        ⟨_, rewound_closure hrewound ▸ (hshows.runs a ha).closure⟩ hrewound)
    have htitle := he.function
    rw [Prototype.Titled, hsame, hname] at htitle
    rw [hlast, Option.map_some, htitle]
  have hactive := hshows.frames
  rw [hframes, reverse_pop_push] at hactive
  obtain ⟨a, rest, hO, ha, hrest⟩ := List.map_eq_cons_iff.mp hactive.symm
  rw [hO] at hentries
  have hmem (b : Activation) (hb : b ∈ a :: rest) : b ∈ O.active := hO ▸ hb
  have hwaiting : ∀ b ∈ rest, b ∈ O.active ∧ b.frame.AtCall := fun b hb => by
    refine ⟨hmem b (List.mem_cons_of_mem _ hb), hd.waiting _ ?_⟩
    rw [← Array.mem_toList_iff, Array.toList_pop, ← List.mem_reverse, ← List.tail_reverse, ← hrest]
    exact List.mem_map_of_mem hb
  generalize htrace : f'.trace = trace at hentries
  cases hentries with
  | @cons _ first _ others hfirst hothers =>
    have hcode : (g.chunk.code[g.ip]?).bind Instr.decode? = some i := by
      rwa [next?, hback, Option.bind_some] at hi
    refine
      { stopped := hstop
        frames := ⟨g, hback, hframes⟩
        first := ⟨a.frame, i, first, ?_, hi, by rw [htrace]; rfl, ?_, by rw [hline, htrace]; rfl⟩
        others := ?_
        script := hscript
        length := hlength
        positive := hlength ▸ hpos
        bounded := hlength ▸ hb.count }
    · rw [hframes, ha, Array.back?_push]
    · refine hshows.traces (o := g.ip) (hmem a List.mem_cons_self) hfirst ?_ ?_
        (hm.ne_constant hi hstop)
      · rw [ha]
      · rw [ha]
        exact hcode
    · rw [hframes, reverse_pop_push, List.tail_cons, ← hrest, htrace, List.tail_cons,
        List.forall₂_map_left_iff]
      refine ((List.forall₂_and_left _ _).mpr ⟨hwaiting, hothers⟩).imp ?_
      rintro b e ⟨⟨hactive, o, j, hip, hj, hcall⟩, he⟩
      refine ⟨j, hcall, hshows.traces hactive he hip hj fun k heq => ?_⟩
      rw [heq] at hcall
      cases hcall

/-- So is a run that fails. -/
theorem Ready.reports_run {fuel : Nat} {f : Failure} (hm : m.Ready) (hd : m.Descends)
    (hb : m.Bounded) (hdone : m.resume fuel = (.failed f, m')) : ∃ k n n',
      Exec.run k m = .ok .running n ∧ n.framesMax = m.framesMax ∧ f.Reports n n' := by
  unfold resume at hdone
  cases hrun : Exec.run fuel m with
  | ok progress n =>
    rw [hrun] at hdone
    cases progress <;> cases hdone
  | error halt n' =>
    rw [hrun] at hdone
    cases halt with
    | fault _ => cases hdone
    | error e =>
      obtain ⟨k, n, hbefore, hstop⟩ := exists_stopped hrun
      rcases (Exec.does_run k hm).of_ok hbefore with ⟨-, hn⟩ | ⟨hfinished, -⟩
      · obtain ⟨hbounded, hlimit⟩ := hb.run hm hbefore
        exact ⟨k, n, n', hbefore, hlimit, hn.reports (hd.run hm hbefore) hbounded hstop hdone⟩
      · cases hfinished

/-- With room for one function, entering a script is not what fails. -/
theorem Rests.load_ne_failed {source : String} {f : Failure} (hm : m.Rests)
    (hmax : 0 < m.framesMax) : m.load source ≠ (.failed f, m') := by
  intro hdone
  unfold load at hdone
  split at hdone
  · cases hdone
  · cases hdone
  · next r m₁ hmade =>
    have henters := hm.enters hmade
    generalize Exec.enter r m₁ = entered at henters hdone
    cases henters with
    | fault => cases hdone
    | refused none => exact absurd none (Nat.ne_of_gt hmax)
    | entered => cases hdone

/-- What is reported of a run has lines from 1 if all recorded lines are. -/
theorem one_le_line_run {k : Nat} {n n' : Machine} {f : Failure} (hm : m.heap.LinesFromOne)
    (hrun : Exec.run k m = .ok .running n) (hreports : f.Reports n n') :
    ∀ e ∈ f.trace, 1 ≤ e.line := by
  have hevolves : m.memory.Evolves n.memory := (Exec.works_run k).ok hrun
  have hstopped : n.memory.Evolves n'.memory := Exec.works_step.error hreports.stopped id
  exact hreports.one_le_line (hstopped.lines (hevolves.lines hm))

/-- Traces of errors are accurate. Whenever a run fails, an instruction was stopped by the error, and
the failure reports it: with one entry for each function that was active, no more than may be, each
with the line of the instruction that it was at. A source that is run from the start fails like that
if at least one function may be active. Every line is at least 1, unless the session was fed with a
source of 2^32 lines or more. -/
theorem sessions_trace_failures (settings : Settings) (journal : Journal) (sink : Sink) :
    (∀ p m, Reached settings journal sink p m → ∃ sources, Fed settings journal sink sources p m) ∧
    (∀ sources m, Fed settings journal sink sources .running m → ∀ fuel f m',
      m.resume fuel = (.failed f, m') →
        (∃ k n n', Exec.run k m = .ok .running n ∧ n.framesMax = m.framesMax ∧ f.Reports n n') ∧
        ((∀ source ∈ sources, (Source.Lines.ofText source).count < 2 ^ 32) →
          ∀ e ∈ f.trace, 1 ≤ e.line)) ∧
    ∀ sources m, Fed settings journal sink sources .resting m → 0 < m.framesMax →
      ∀ fuel source f m', m.interpret fuel source = (.failed f, m') →
        (∃ m₀ k n n', m.load source = (.unfinished, m₀) ∧ Exec.run k m₀ = .ok .running n ∧
          n.framesMax = m.framesMax ∧ f.Reports n n') ∧
        ((∀ s ∈ source :: sources, (Source.Lines.ofText s).count < 2 ^ 32) →
          ∀ e ∈ f.trace, 1 ≤ e.line) := by
  refine ⟨fun p m hm => hm.fed, fun sources m hfed fuel f m' hdone => ?_,
    fun sources m hfed hmax fuel source f m' hdone => ?_⟩
  · have hm := hfed.reached
    obtain ⟨k, n, n', hrun, hlimit, hreports⟩ :=
      hm.inPhase.reports_run hm.descends hm.bounded hdone
    exact ⟨⟨k, n, n', hrun, hlimit, hreports⟩, fun hcount =>
      one_le_line_run (hfed.linesFromOne hcount) hrun hreports⟩
  · have hm := hfed.reached
    unfold interpret at hdone
    split at hdone
    · next m₀ hload =>
      have hfed₀ := hfed.loaded hload rfl
      have hm₀ := hfed₀.reached
      obtain ⟨k, n, n', hrun, hlimit, hreports⟩ :=
        hm₀.inPhase.reports_run hm₀.descends hm₀.bounded hdone
      obtain ⟨r, m₁, hmade, henter⟩ := load_unfinished hload
      have henters := hm.inPhase.enters hmade
      rw [henter] at henters
      cases henters with
      | entered _ _ _ limit =>
        exact ⟨⟨m₀, k, n, n', hload, hrun, hlimit.trans limit, hreports⟩, fun hcount =>
          one_le_line_run (hfed₀.linesFromOne hcount) hrun hreports⟩
    · exact absurd hdone (hm.inPhase.load_ne_failed hmax)

/-- The failure of a run that failed. -/
def failureOf? : Outcome → Option Failure
  | .failed f => some f
  | _ => none

/-- An unknown variable in a function that the script calls is reported with both of them, at lines
that are counted from 1. -/
theorem called_failure_traced : ∃ m f m',
    Fed Settings.standard Journal.off Sink.unlimited [] .resting m ∧ 0 < m.framesMax ∧
    m.interpret 9 "def f() \x7b\n  print y;\n\x7d\nf();" = (.failed f, m') ∧
    f.trace.map TraceEntry.function = ["f()", "script"] ∧
    f.trace.map TraceEntry.line = [2, 4] ∧ (∃ n n', f.Reports n n') ∧ ∀ e ∈ f.trace, 1 ≤ e.line := by
  have hruns : (create Settings.standard Journal.off Sink.unlimited).toOption.any (fun m =>
      decide (0 < m.framesMax) &&
        (failureOf? (m.interpret 9 "def f() \x7b\n  print y;\n\x7d\nf();").1).any fun f =>
          decide (f.trace.map TraceEntry.function = ["f()", "script"]) &&
            decide (f.trace.map TraceEntry.line = [2, 4])) = true := by decide +kernel
  obtain ⟨m, hcreated, hruns⟩ := exists_created hruns
  rw [Bool.and_eq_true, decide_eq_true_eq] at hruns
  obtain ⟨hmax, hruns⟩ := hruns
  cases hdone : m.interpret 9 "def f() \x7b\n  print y;\n\x7d\nf();" with
  | mk outcome m' =>
    rw [hdone] at hruns
    cases outcome with
    | failed f =>
      simp only [failureOf?, Option.any_some, Bool.and_eq_true, decide_eq_true_eq] at hruns
      have hfed : Fed Settings.standard Journal.off Sink.unlimited [] .resting m :=
        .created hcreated
      have hcount : ∀ s ∈ ["def f() \x7b\n  print y;\n\x7d\nf();"],
          (Source.Lines.ofText s).count < 2 ^ 32 :=
        List.forall_mem_singleton.mpr (by decide +kernel)
      obtain ⟨⟨-, -, n, n', -, -, -, hreports⟩, hlines⟩ :=
        (sessions_trace_failures Settings.standard Journal.off Sink.unlimited).2.2 [] m hfed hmax
          9 _ f m' hdone
      exact ⟨m, f, m', hfed, hmax, hdone, hruns.1, hruns.2, ⟨n, n', hreports⟩, hlines hcount⟩
    | _ => cases hruns

end Machine

end ScriptMachine
