import ScriptMachine.Proofs.Session.Sourcing

/-!
# What runs in every session

In every state of a session each closure has the code of a function of some source, and each class
has as its initializer only closures that were compiled as initializers; in the midst of a run every
active function is at a place of its row of stretches. Nothing that a session does in between
changes a closure or a class: compiling makes neither, and reporting an error closes upvalues.
-/

namespace ScriptMachine

namespace Exec

variable {α β : Type} {m m' : Machine} {r : Handle}

/-! ### Errors -/

instance looks_mapM (f : α → Exec β) [hf : ∀ a, Looks (f a)] (as : List α) : Looks (as.mapM f) := by
  rw [← List.mapM'_eq_mapM]
  induction as with
  | nil => exact inferInstanceAs (Looks (pure []))
  | cons a as ih =>
    rw [List.mapM']
    infer_instance

instance looks_traceEntry (f : Frame) : Looks (traceEntry f) :=
  (looks_readHeap _).bind fun c => (looks_readHeap _).bind fun p => by
    dsimp only
    split <;> infer_instance

/-- Reporting an error makes and changes no code. -/
theorem calm_failure (e : RuntimeError) : Calm (failure e) := by
  have hclear : Calm (modify fun m => { m with stack := #[], frames := #[] } : Exec Unit) :=
    calm_modify (fun _ => .refl _) (fun _ => rfl) fun _ => rfl
  refine (calm_of_looks _).bind fun frames => (calm_of_looks _).bind fun trace => .bind ?_ fun _ =>
    (calm_closeUpvalues 0).bind fun _ => hclear.bind fun _ => inferInstance
  exact calm_modify (fun _ => Heap.alike_note _ _ _) (fun _ => rfl) fun _ => rfl

/-- An instruction that an error stops has made and changed no code. -/
theorem retains_of_stopped {i : Instr} {e : RuntimeError} (ha : m.heap.Arena) (hc : m.heap.Unmarked)
    (hstop : perform i m = .error (.error e) m') : m.Retains [] m' := by
  have hrefused {x : Exec Unit} (hx : Refuses x) (hstop : x m = .error (.error e) m') :
      m.Retains [] m' :=
    ⟨.of_alike (hx.error hstop).heap, (hx.error hstop).initName⟩
  cases hcode : i.shapesCode with
  | false => exact ((mild_perform hcode).error ha hc hstop).toRetains
  | true =>
    cases i with
    | closure k => exact absurd hstop (quiet_makeClosure k m e m')
    | class_ k =>
      exact absurd hstop ((Quiet.bind (quiet_constantHandle k) fun name =>
        .bind (quiet_changeHeapRooted _) fun r => quiet_push _) m e m')
    | inherit => exact hrefused refuses_inherit hstop
    | method k => exact hrefused (refuses_addMethod k) hstop
    | _ => cases hcode

/-! ### Native functions -/

/-- With its name and its object made, a native function is put into a global. -/
theorem calm_setNative (name r : Handle) : Calm (do
    push (.ofHandle r)
    let key ← readHeap (·.key name)
    let _ ← setGlobal key (.ofHandle r)
    drop
    drop) := inferInstance

/-- Defining a native function makes no code. -/
theorem retains_defineNative {n : Native} (hm : m.Rests) (hdone : defineNative n m = .ok () m') :
    m.Retains [] m' := by
  obtain ⟨W, hm⟩ := hm
  obtain ⟨name, m₁, hname, hrest⟩ := exists_of_bind_ok hdone
  obtain ⟨V, hm₁, -⟩ := (does_intern n.name hm).of_ok hname
  have hinterned := (mild_intern n.name).ok hm.sound.arena hm.sound.unmarked hname
  obtain ⟨_, m₂, hpush, hrest⟩ := exists_of_bind_ok hrest
  have hpushed := (calm_push _).ok hpush
  obtain ⟨r, m₃, halloc, hrest⟩ := exists_of_bind_ok hrest
  have hmade := (mild_alloc rfl).ok (hpushed.arena hm₁.sound.arena)
    (hpushed.unmarked hm₁.sound.unmarked) halloc
  exact (((hinterned.trans hpushed.toUpholds).trans hmade).trans
    ((calm_setNative name r).ok hrest).toUpholds).toRetains

/-- Defining native functions makes no code. -/
theorem retains_defineNatives {ns : List Native} (hm : m.Rests)
    (hns : ∀ n ∈ ns, n.action = .clock ∨ n.arity = some 1)
    (hdone : defineNatives ns m = .ok () m') : m.Retains [] m' := by
  induction ns generalizing m with
  | nil =>
    obtain ⟨-, rfl⟩ := EStateM.Result.ok.inj hdone
    exact ⟨.refl _, rfl⟩
  | cons n ns ih =>
    obtain ⟨hn, hns⟩ := List.forall_mem_cons.mp hns
    obtain ⟨_, m₁, hfirst, hrest⟩ := exists_of_bind_ok hdone
    exact (retains_defineNative hm hfirst).trans
      (ih ((does_defineNative hm hn).of_ok hfirst) hns hrest)

end Exec

namespace Machine

variable {settings : Settings} {journal : Journal} {sink : Sink} {m m₁ m' : Machine} {W : World}
  {O : Outline} {r : Handle}

/-- Where no function is active, what is retained is sourced. -/
theorem Sourced.rest (hs : m.Sourced) (hr : m.Retains [] m') (hm' : m'.Rests) : m'.Sourced :=
  hs.retain hr (clears_of_frames fun x hx => by simp [hm'.frames_eq] at hx)

/-- An error that is reported makes and changes no code, and no function is active then. -/
theorem Shows.retains_settle {e : RuntimeError} {outcome : Outcome} (hm : m.Shows W O)
    (hdone : m.settle (.error e) = (outcome, m')) : m.Retains [] m' ∧ m'.Rests := by
  obtain ⟨f, m₂, heq, -, hrests, -⟩ := Exec.failure_eq e hm
  simp only [settle, heq] at hdone
  obtain ⟨-, rfl⟩ := Prod.mk.inj hdone
  exact ⟨((Exec.calm_failure e).ok heq).toRetains, hrests⟩

/-- If `m'` has a class as `x`, it is the one that `m` has, and what that stores lasts. -/
def SameClass (m : Machine) (x : Handle) (m' : Machine) : Prop :=
  ∃ new, m.Retains new m' ∧ ((∃ c, m'.heap.object? x = some (.class_ c)) → x ∉ new)

/-- A class that stays the same was there before. -/
theorem SameClass.object {x : Handle} {c : ClassObject} (h : m.SameClass x m')
    (hc : m'.heap.object? x = some (.class_ c)) : m.heap.object? x = some (.class_ c) := by
  obtain ⟨new, hr, hnew⟩ := h
  exact hr.heap.object x _ hc rfl (hnew ⟨c, hc⟩)

/-- A class that stays the same twice is the same. -/
theorem SameClass.trans {x : Handle} (h : m.SameClass x m₁) (h' : m₁.SameClass x m') :
    m.SameClass x m' := by
  obtain ⟨new, hr, hnew⟩ := h
  obtain ⟨new', hr', hnew'⟩ := h'
  refine ⟨new ++ new', hr.trans hr', fun ⟨c, hc⟩ hmem => ?_⟩
  rcases List.mem_append.mp hmem with hmem | hmem
  · exact hnew ⟨c, hr'.heap.object x _ hc rfl (hnew' ⟨c, hc⟩)⟩ hmem
  · exact hnew' ⟨c, hc⟩ hmem

/-- Classes that are retained stay the same. -/
theorem Retains.sameClass (h : m.Retains [] m') (x : Handle) : m.SameClass x m' :=
  ⟨[], h, fun _ => List.not_mem_nil⟩

/-- A new closure is no class. -/
theorem Retains.sameClass_of_closure {y : Handle} {c : Closure} (h : m.Retains [y] m')
    (hy : m'.heap.object? y = some (.closure c)) (x : Handle) : m.SameClass x m' := by
  refine ⟨[y], h, fun ⟨d, hd⟩ hmem => ?_⟩
  obtain rfl := List.mem_singleton.mp hmem
  cases hy.symm.trans hd

/-! ### Steps -/

/-- A machine in the midst of a run, with everything sourced and all functions at their places. -/
structure Stands (m : Machine) : Prop where
  ready : m.Ready
  sourced : m.Sourced
  sits : ∃ done ps, m.Sits done ps

/-- Wherever a step leads, functions are active there: behind the atoms `done`, or where a stretch
starts. -/
theorem Turned.sits {p : Part} {ps : List Part} {done : Atoms} (h : m.Turned p ps done m')
    (hm' : m'.Ready) (hs' : m'.Sourced) :
    ∃ done' ps', (done' = done ∨ done' = []) ∧ m'.Sits done' ps' := by
  cases h with
  | on _ sits => exact ⟨_, _, .inl rfl, sits⟩
  | returned _ sits => exact ⟨_, _, .inr rfl, sits⟩
  | entered _ sits =>
    obtain ⟨x, hback⟩ := hm'.exists_back
    obtain ⟨c, hc⟩ := hm'.exists_closure (Array.mem_of_back? hback)
    obtain ⟨B, f, hserves⟩ := hs'.closures x.closure c hc
    obtain ⟨q, -, hosts⟩ := exists_hosts hc hserves
    exact ⟨_, _, .inr rfl, sits x q f hback hosts⟩

/-- Each step keeps that. -/
theorem Stands.step (h : m.Stands) (hstep : Exec.step m = .ok .running m') : m'.Stands := by
  obtain ⟨hm, hs, done, ps, hsits⟩ := h
  have hm' : m'.Ready := by
    rcases (Exec.does_step hm).of_ok hstep with ⟨-, hm'⟩ | ⟨hfinished, -⟩
    · exact hm'
    · cases hfinished
  obtain ⟨f, i, -, hi, -⟩ := Exec.advanced_of_step hm hstep
  cases hsits with
  | intro works =>
    obtain ⟨hs', _, hturned⟩ := works.step hm hm' hs hi hstep
    obtain ⟨done', ps', -, hsits'⟩ := hturned.sits hm' hs'
    exact ⟨hm', hs', done', ps', hsits'⟩

/-- A step that ends the run or that an error stops makes and changes no code. -/
theorem Ready.retains_last (hm : m.Ready)
    (hlast : Exec.step m = .ok .finished m' ∨ ∃ e, Exec.step m = .error (.error e) m') :
    m.Retains [] m' := by
  rcases Exec.step_cases m with ⟨f, m₁, hfault⟩ | ⟨f, i, h, hback, -, halike, hreturn, hperform⟩
  · rcases hlast with hlast | ⟨e, hlast⟩ <;> cases hfault.symm.trans hlast
  obtain ⟨W, O, hshows, -⟩ := hm
  have hfetched := (fetched_preserves hback halike).retains
  have harena : h.Arena := hshows.sound.arena.congr halike
  have hunmarked : h.Unmarked := hshows.sound.unmarked.congr halike
  by_cases hno : i = .return_
  · rw [hreturn hno] at hlast
    rcases hlast with hlast | ⟨e, hlast⟩
    · exact hfetched.trans (Exec.calm_return.ok hlast).toRetains
    · exact hfetched.trans (Exec.calm_return.error hlast).toRetains
  · rw [hperform hno] at hlast
    rcases hlast with hlast | ⟨e, hlast⟩
    · obtain ⟨_, m₁, -, hpure⟩ := Exec.exists_of_bind_ok hlast
      cases hpure
    · rcases Exec.error_of_bind hlast with hstop | ⟨_, m₁, -, hpure⟩
      · exact hfetched.trans (Exec.retains_of_stopped harena hunmarked hstop)
      · cases hpure

/-- Where a run may get to. -/
inductive Ends : EStateM.Result Halt Machine Progress → Prop
  | running {m : Machine} (stands : m.Stands) : Ends (.ok .running m)
  | finished {m : Machine} (sourced : m.Sourced) : Ends (.ok .finished m)
  | stopped {n m : Machine} {e : RuntimeError} (sourced : n.Sourced) (retains : n.Retains [] m) :
      Ends (.error (.error e) m)
  | fault {m : Machine} {f : Fault} : Ends (.error (.fault f) m)

/-- A run of any length. -/
theorem Stands.run (h : m.Stands) (fuel : Nat) : Ends (Exec.run fuel m) := by
  induction fuel generalizing m with
  | zero => exact .running h
  | succ fuel ih =>
    cases hstep : Exec.step m with
    | ok progress m₁ =>
      rw [Exec.run, Exec.bind_eq hstep]
      cases progress with
      | running => exact ih (h.step hstep)
      | finished =>
        have hrests : m₁.Rests := by
          rcases (Exec.does_step h.ready).of_ok hstep with ⟨hrunning, -⟩ | ⟨-, hrests⟩
          · cases hrunning
          · exact hrests
        exact .finished (h.sourced.rest (h.ready.retains_last (.inl hstep)) hrests)
    | error halt m₁ =>
      rw [Exec.run, Exec.bind_error hstep]
      cases halt with
      | error e => exact .stopped h.sourced (h.ready.retains_last (.inr ⟨e, hstep⟩))
      | fault f => exact .fault

/-! ### Making a machine -/

/-- A machine starts without closures and classes. -/
theorem sourced_create (hdone : create settings journal sink = .ok m) : m.Sourced := by
  have hcovers : (Heap.empty settings.pacing journal).Covers [] := fun x hx =>
    absurd hx Heap.not_reachable_nil
  have hsound := Heap.sound_empty settings.pacing journal
  obtain ⟨⟨r, h⟩, hinit, hdone⟩ := exists_of_bind_eq_ok hdone
  have hstart : Rests ⟨h, Table.empty, #[], #[], [], r, settings.framesMax, sink, 0⟩ := by
    rcases hsound.intern "init" hcovers with ⟨r', h', heq, hi⟩ | heq
    · obtain ⟨rfl, rfl⟩ := Prod.mk.inj (Except.ok.inj (heq.symm.trans hinit))
      exact rests_start settings.framesMax hi
    · cases heq.symm.trans hinit
  have hempty : Sourced ⟨h, Table.empty, #[], #[], [], r, settings.framesMax, sink, 0⟩ := by
    have hretains := Heap.retains_intern hsound.arena hsound.unmarked hinit
    have hnone {x : Handle} {o : Object} : (Heap.empty settings.pacing journal).object? x ≠ some o := by
      simp [Heap.object?, Heap.empty]
    exact ⟨fun y c hy => absurd (hretains.object y _ hy rfl List.not_mem_nil) hnone,
      fun x c hx => absurd (hretains.object x _ hx rfl List.not_mem_nil) hnone⟩
  have harguments : ∀ n ∈ Native.all, n.action = .clock ∨ n.arity = some 1 := by decide
  dsimp only at hdone
  split at hdone
  · next hdefines =>
    obtain rfl := Except.ok.inj hdone
    exact hempty.rest (Exec.retains_defineNatives hstart harguments hdefines)
      ((Exec.does_defineNatives hstart harguments).of_ok hdefines)
  · cases hdone
  · next hstop => exact absurd hstop (Exec.quiet_defineNatives Native.all _ _ _)

/-! ### Loading a source -/

/-- Compiling makes no closure and no class. -/
theorem Shows.retains_compile {source : String} {result : Compile.Result} (hm : m.Shows W O)
    (hdone : m.compile source = (result, m')) (hwhole : ∀ f, result ≠ .fault f) :
    m.Retains [] m' := by
  have hspec := Compile.compile_spec source hm.sound (hm.covers hm.lists)
  rw [compile_eq] at hdone
  generalize Compile.compile source m.heap m.roots = made at hspec hdone
  obtain ⟨made, h⟩ := made
  obtain ⟨rfl, rfl⟩ := Prod.mk.inj hdone
  cases made with
  | function r => exact ⟨hspec.1.retains, rfl⟩
  | errors es => exact ⟨hspec.retains, rfl⟩
  | fault f => exact absurd rfl (hwhole f)

/-- Listing the code of a source makes no closure and no class. -/
theorem Shows.retains_disassemble {source : String} {listed : Disassembly} (hm : m.Shows W O)
    (hdone : m.disassemble source = (listed, m')) (hwhole : ∀ f, listed ≠ .fault f) :
    m.Retains [] m' := by
  unfold disassemble at hdone
  split at hdone
  · next hc =>
    obtain ⟨-, rfl⟩ := Prod.mk.inj hdone
    exact hm.retains_compile hc (by simp)
  · obtain ⟨rfl, -⟩ := Prod.mk.inj hdone
    exact absurd rfl (hwhole _)
  · next hc =>
    split at hdone <;>
    · obtain ⟨-, rfl⟩ := Prod.mk.inj hdone
      exact hm.retains_compile hc (by simp)

/-- A script that compiles has the code of a body. -/
theorem Shows.embodies_compile {source : String} (hm : m.Shows W O)
    (hdone : m.compile source = (.function r, m')) : ∃ B f, m'.heap.Embodies r B f := by
  obtain ⟨hresult, rfl⟩ := Prod.mk.inj hdone
  have hcompiled : Compile.compile source m.heap m.roots =
      (.function r, (Compile.compile source m.heap m.roots).2) := Prod.ext hresult rfl
  obtain ⟨f, hf, hscript⟩ :=
    (Compile.isProgram_of_compile hm.sound (hm.covers hm.lists) hcompiled).script
  exact ⟨_, f, (Compile.scripts_of_compile hm.sound (hm.covers hm.lists) hcompiled).embodies hf
    hscript.arity⟩

/-- `m'` is `m` with the script `r` on the stack, as the closure `y`. -/
structure Loaded (m : Machine) (r y : Handle) (m' : Machine) : Prop where
  retains : m.Retains [y] m'
  object : m'.heap.object? y = some (.closure ⟨r, #[]⟩)
  lasts : m.heap.Lasts m'.heap r
  objects : ∀ x, m.heap.Reachable (r :: m.roots) x → m'.heap.object? x = m.heap.object? x
  rest : ∃ h, m' = { m with heap := h, stack := m.stack.push (.ofHandle y) }

/-- Loading leaves the frames. -/
theorem Loaded.frames {y : Handle} (h : m.Loaded r y m') : m'.frames = m.frames := by
  obtain ⟨_, rfl⟩ := h.rest
  rfl

/-- Loading pushes the closure of the script. -/
theorem Loaded.stack {y : Handle} (h : m.Loaded r y m') :
    m'.stack = m.stack.push (.ofHandle y) := by
  obtain ⟨_, rfl⟩ := h.rest
  rfl

/-- Loading leaves the classes. -/
theorem Loaded.sameClass {y : Handle} (h : m.Loaded r y m') (x : Handle) : m.SameClass x m' :=
  h.retains.sameClass_of_closure h.object x

/-- Entering a script faults, or puts it on the stack and calls it. -/
theorem enter_cases (hm : m.Shows W ⟨[], none, []⟩) (hr : W r = some (.function [])) :
    (∃ f m', Exec.enter r m = .error (.fault f) m') ∨
      ∃ y m₁, m.Loaded r y m₁ ∧ Exec.enter r m = Exec.callClosure y 0 m₁ := by
  obtain ⟨m₁, hm₁⟩ : ∃ m₁, m₁ = { m with stack := m.stack.push (.ofHandle r) } := ⟨_, rfl⟩
  have hpush : Exec.push (.ofHandle r) m = .ok () m₁ := hm₁ ▸ rfl
  have hshows := (Exec.does_push (x := .value) hm (World.holds_ofHandle hr)).of_ok hpush
  have hkeeps : m₁.Keeps r := .root (mem_roots.mpr (.inl
    ⟨.ofHandle r, by rw [hm₁]; exact Array.mem_push_self, Value.toHandle?_ofHandle r⟩))
  cases halloc : Exec.alloc (.closure ⟨r, #[]⟩) m₁ with
  | error halt m₂ =>
    cases halt with
    | error e => exact absurd halloc (Exec.quiet_changeHeapRooted _ _ _ _)
    | fault f => exact .inl ⟨f, m₂, (Exec.bind_eq hpush).trans (Exec.bind_error halloc)⟩
  | ok y m₂ =>
    have hdescribes : W.Describes .closure (.closure ⟨r, #[]⟩) := .closure hr .nil
    have hadds := Exec.alloc_adds ⟨hshows.toTyped, hshows.lists⟩ hdescribes (by simp) halloc
    obtain ⟨h, hm₂⟩ := hadds.rest
    have hstack : m₂.stack = m.stack.push (.ofHandle r) := by rw [hm₂, hm₁]
    refine .inr ⟨y, { m₂ with stack := m.stack.push (.ofHandle y) },
      ⟨?_, hadds.object, ?_, fun x hx => ?_, h, by rw [hm₂, hm₁]⟩, ?_⟩
    · refine ⟨?_, hadds.retains.initName.trans (by rw [hm₁])⟩
      have hheap := hadds.retains.heap
      rwa [hm₁] at hheap
    · have hlasts := lasts_of_kept hkeeps hadds.objects
      rwa [hm₁] at hlasts
    · have hkept : m₁.Keeps x := by
        rw [hm₁]
        refine hx.mono fun y hy => ?_
        rcases List.mem_cons.mp hy with rfl | hy
        · exact mem_roots.mpr (.inl ⟨_, Array.mem_push_self, Value.toHandle?_ofHandle y⟩)
        · exact (mem_roots.mp hy).elim (fun ⟨v, hv, hr⟩ => mem_roots.mpr (.inl
            ⟨v, Array.mem_push_of_mem _ hv, hr⟩)) fun hy => mem_roots.mpr (.inr hy)
      have hobject := hadds.objects x hkept
      rwa [hm₁] at hobject
    · have hdrop : Exec.drop m₂ = .ok () { m₂ with stack := m.stack } := Exec.drop_top hstack
      exact (Exec.bind_eq hpush).trans ((Exec.bind_eq halloc).trans (Exec.bind_eq hdrop))

/-- With a script on the stack everything is sourced, also after it is called. -/
theorem Sourced.loaded {B : Body} {f : Prototype} {y : Handle} (hs : m.Sourced)
    (hnone : ∀ u j, ¬ m.heap.StandsFor u j) (he : m.heap.Embodies r B f)
    (hl : m.Loaded r y m₁) (hr : m₁.Retains [] m') :
    m'.Sourced ∧ ∀ c, m'.heap.object? y = some (.closure c) → m'.Serves c B f := by
  have hserves (c : Closure) (hc : m'.heap.object? y = some (.closure c)) : m'.Serves c B f := by
    have hbefore := hr.heap.object y _ hc rfl List.not_mem_nil
    obtain rfl := Object.closure.inj (Option.some.inj (hl.object.symm.trans hbefore))
    have hstored := hr.heap.stored y _ r hc rfl List.not_mem_nil .closureFunction
    exact ⟨he.carry (hl.lasts.trans hstored), fun u hu => by simp at hu, fun j u hu => by simp at hu⟩
  refine ⟨hs.carry (hl.retains.trans hr) (fun g _ => .inr fun u => hnone u _) (fun x c hx hc => ?_)
    (fun x c hx hc => ?_), hserves⟩
  · obtain rfl : x = y := by simpa using hx
    exact ⟨B, f, hserves c hc⟩
  · obtain rfl : x = y := by simpa using hx
    cases hl.object.symm.trans (hr.heap.object x _ hc rfl List.not_mem_nil)

/-- Loading a source leaves everything sourced, the classes as they are, and the script at its
start. -/
theorem Rests.loads {source : String} {outcome : Outcome} {p : Phase} (hm : m.Rests)
    (hs : m.Sourced) (hdone : m.load source = (outcome, m')) (hphase : outcome.phase? = some p) :
    m'.Sourced ∧ (p = .running → ∃ ps, m'.Sits [] ps) ∧ ∀ x, m.SameClass x m' := by
  obtain ⟨W, hm⟩ := hm
  have hcompiled := hm.compiled source
  unfold load at hdone
  cases hmade : m.compile source with
  | mk result m₁ =>
    rw [hmade] at hdone hcompiled
    cases hcompiled with
    | errors shows =>
      obtain ⟨rfl, rfl⟩ := Prod.mk.inj hdone
      cases hphase
      have hcompiled := hm.retains_compile hmade (by simp)
      exact ⟨hs.rest hcompiled ⟨_, shows⟩, fun hp => (by cases hp), hcompiled.sameClass⟩
    | full =>
      obtain ⟨rfl, -⟩ := Prod.mk.inj hdone
      cases hphase
    | @function V r _ shows known =>
      have hcompiled := hm.retains_compile hmade (by simp)
      have hs₁ : m₁.Sourced := hs.rest hcompiled ⟨V, shows⟩
      obtain ⟨B, f, hembodies⟩ := hm.embodies_compile hmade
      have hnone (u : Handle) (j : Nat) : ¬ m₁.heap.StandsFor u j := fun hj =>
        absurd (shows.lists.eq_nil ▸ shows.lists.all u j hj) List.not_mem_nil
      dsimp only at hdone
      rcases enter_cases shows known with ⟨fault, m₂, hfault⟩ | ⟨y, m₂, hloaded, henter⟩
      · rw [hfault] at hdone
        obtain ⟨rfl, -⟩ := Prod.mk.inj hdone
        cases hphase
      rw [henter] at hdone
      have hdoes := Exec.does_enter shows known
      rw [henter] at hdoes
      cases hcall : Exec.callClosure y 0 m₂ with
      | error halt m₃ =>
        rw [hcall] at hdone hdoes
        cases halt with
        | fault fault =>
          obtain ⟨rfl, -⟩ := Prod.mk.inj hdone
          cases hphase
        | error e =>
          obtain ⟨V', O', hshows⟩ := hdoes
          have hretains := ((Exec.calm_callClosure y 0).error hcall).toRetains.trans
            (hshows.retains_settle hdone).1
          obtain ⟨reported, m₄, heq, -, hrests, -⟩ := Exec.failure_eq e hshows
          simp only [settle, heq] at hdone
          obtain ⟨rfl, rfl⟩ := Prod.mk.inj hdone
          cases hphase
          exact ⟨(hs₁.loaded hnone hembodies hloaded hretains).1, fun hp => (by cases hp),
            fun x => (hcompiled.sameClass x).trans
              ((hloaded.sameClass x).trans (hretains.sameClass x))⟩
      | ok _ m₃ =>
        rw [hcall] at hdone
        obtain ⟨rfl, rfl⟩ := Prod.mk.inj hdone
        have hretains := ((Exec.calm_callClosure y 0).ok hcall).toRetains
        obtain ⟨hsourced, hserves⟩ := hs₁.loaded hnone hembodies hloaded hretains
        refine ⟨hsourced, fun _ => ?_,
          fun x => (hcompiled.sameClass x).trans
            ((hloaded.sameClass x).trans (hretains.sameClass x))⟩
        obtain ⟨c, f', hc, hf', harity, -, heq⟩ := Exec.callClosure_eq_ok hcall
        have hheap : m₃.heap = m₂.heap := by rw [heq]
        rw [← hheap] at hc hf'
        have hserved := hserves c hc
        obtain ⟨p, -, hosts⟩ := exists_hosts hc hserved
        obtain rfl : f' = f := Object.function.inj
          (Option.some.inj (hf'.symm.trans hserved.embodies.function))
        have hempty : m₁.stack = #[] :=
          Array.eq_empty_of_size_eq_zero (shows.size_stack.trans rfl)
        have hsize : m₂.stack.size = 1 := by
          rw [hloaded.stack, hempty]
          rfl
        have hframes : m₃.frames = #[⟨y, f'.chunk, 0, 0⟩] := by
          rw [heq, hloaded.frames, Rests.frames_eq ⟨V, shows⟩, hsize]
          rfl
        have hstack : m₃.stack.size = 1 := by rw [heq, hsize]
        exact ⟨[p], .intro
          { frames := by rw [hframes]; rfl
            plays := ⟨f', hosts, rfl⟩
            stands := .mark ⟨[], p.row, rfl, rfl, hosts.height⟩
            height := by rw [hstack, harity]; rfl
            low := hstack ▸ Nat.one_pos
            made := made_nil
            outer := .nil }⟩

/-! ### Every session -/

/-- The functions stay at their places where neither they nor the stack nor the objects change. -/
theorem Works.alike {g : Frame} {rest : List Frame} {p : Part} {ps : List Part} {k : Nat}
    {done : Atoms} (works : m.Works g rest p ps k done) (hm' : m'.Ready)
    (halike : m.heap.Alike m'.heap) (hinit : m'.initName = m.initName)
    (hframes : m'.frames = m.frames) (hstack : m'.stack = m.stack) :
    m'.Works g rest p ps k done := by
  have hr : m.Retains [] m' := ⟨.of_alike halike, hinit⟩
  have hclears : m.Clears m' := clears_of_frames fun x hx => ⟨x, hframes ▸ hx, rfl⟩
  have hmem (x : Frame) (hx : x ∈ g :: rest) : x ∈ m'.frames := hframes ▸ works.mem.mp hx
  refine
    { frames := hframes ▸ works.frames
      plays := works.plays.carry hr hclears hm' (hmem _ List.mem_cons_self) rfl rfl (by simp)
      stands := works.stands
      height := hstack ▸ works.height
      low := hstack ▸ works.low
      made := ⟨fun hdone => ?_, fun before ws scope kind f scope' hdone codes rooted proper => ?_⟩
      outer := works.outer.carry hr hclears hm' (fun x hx => hmem x (List.mem_cons_of_mem _ hx))
        fun x _ => by simp }
  · rw [hstack]
    exact works.made.receiver hdone
  · obtain ⟨y, c, B, e, hy, hc, hserves, hkind⟩ :=
      works.made.closure before ws scope kind f scope' hdone codes rooted proper
    exact ⟨y, c, B, e, by rw [hstack]; exact hy, (halike.object? y).trans hc,
      hserves.carry hclears fun z _ x o _ ho => ⟨o, (halike.object? x).trans ho, .refl o⟩, hkind⟩

/-- So do all that are active. -/
theorem Sits.alike {done : Atoms} {ps : List Part} (h : m.Sits done ps) (hm' : m'.Ready)
    (halike : m.heap.Alike m'.heap) (hinit : m'.initName = m.initName)
    (hframes : m'.frames = m.frames) (hstack : m'.stack = m.stack) : m'.Sits done ps := by
  cases h with
  | intro works => exact .intro (works.alike hm' halike hinit hframes hstack)

/-- What every session keeps of closures and classes, and of the functions that are active. -/
theorem Reached.standing {p : Phase} (hm : Reached settings journal sink p m) :
    m.Sourced ∧ (p = .running → ∃ done ps, m.Sits done ps) := by
  -- what is done to a machine without running it
  have hlook {p : Phase} {m m' : Machine} (hm' : InPhase p m')
      (ih : m.Sourced ∧ (p = .running → ∃ done ps, m.Sits done ps)) (halike : m.heap.Alike m'.heap)
      (hinit : m'.initName = m.initName) (hframes : m'.frames = m.frames)
      (hstack : m'.stack = m.stack) :
      m'.Sourced ∧ (p = .running → ∃ done ps, m'.Sits done ps) := by
    refine ⟨ih.1.retain ⟨.of_alike halike, hinit⟩
      (clears_of_frames fun x hx => ⟨x, hframes ▸ hx, rfl⟩), fun hp => ?_⟩
    obtain ⟨done, ps, hsits⟩ := ih.2 hp
    subst hp
    exact ⟨done, ps, hsits.alike hm' halike hinit hframes hstack⟩
  induction hm with
  | created done => exact ⟨sourced_create done, fun hp => by cases hp⟩
  | loaded before done phase ih =>
    obtain ⟨hsourced, hsits, -⟩ := before.inPhase.loads ih.1 done phase
    exact ⟨hsourced, fun hp => ⟨[], hsits hp⟩⟩
  | @resumed m m' fuel outcome p before done phase ih =>
    have hends := Stands.run ⟨before.inPhase, ih.1, ih.2 rfl⟩ fuel
    have hdoes := Exec.does_run fuel before.inPhase
    unfold resume at done
    generalize Exec.run fuel m = result at hends hdoes done
    cases hends with
    | running stands =>
      obtain ⟨rfl, rfl⟩ := Prod.mk.inj done
      exact ⟨stands.sourced, fun _ => stands.sits⟩
    | finished sourced =>
      obtain ⟨rfl, rfl⟩ := Prod.mk.inj done
      cases phase
      exact ⟨sourced, fun hp => by cases hp⟩
    | @stopped n m₁ e sourced retains =>
      obtain ⟨W, O, hshows⟩ := hdoes
      obtain ⟨f, m₂, heq, -⟩ := Exec.failure_eq e hshows
      obtain ⟨hretains, hrests⟩ := hshows.retains_settle done
      have hsettled := sourced.rest (retains.trans hretains) hrests
      simp only [settle, heq] at done
      obtain ⟨rfl, rfl⟩ := Prod.mk.inj done
      cases phase
      exact ⟨hsettled, fun hp => by cases hp⟩
    | fault =>
      obtain ⟨rfl, -⟩ := Prod.mk.inj done
      cases phase
  | @disassembled m m' source listed before done whole ih =>
    obtain ⟨W, hshows⟩ := before.inPhase
    exact ⟨ih.1.rest (hshows.retains_disassemble done whole)
      (before.disassembled done whole).inPhase, fun hp => by cases hp⟩
  | collected before ih =>
    obtain ⟨W, hshows⟩ := before.inPhase
    exact ⟨ih.1.rest ⟨.collect hshows.sound.unmarked _, rfl⟩ before.collected.inPhase,
      fun hp => by cases hp⟩
  | tookOutput before ih => exact hlook before.tookOutput.inPhase ih (.refl _) rfl rfl rfl
  | tookEvents before ih =>
    exact hlook before.tookEvents.inPhase ih ⟨rfl, rfl, rfl, rfl, rfl⟩ rfl rfl rfl
  | ticked before now ih => exact hlook (before.ticked now).inPhase ih (.refl _) rfl rfl rfl

end Machine

end ScriptMachine
