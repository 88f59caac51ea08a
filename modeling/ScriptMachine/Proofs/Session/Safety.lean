import ScriptMachine.Proofs.Session.Compiling
import ScriptMachine.Proofs.Session.States
import ScriptMachine.Proofs.Session.Stopping

/-!
# Safety of sessions

Between two sources a machine rests, and in the midst of one it is at an instruction of known code.
Every part of a session keeps this, so none meets a fault: whatever is read is there and of the kind
that is asked for, and only the arena can be exhausted. The programs that are compiled on the way
are well formed.
-/

namespace ScriptMachine

namespace Machine

variable {settings : Settings} {journal : Journal} {sink : Sink} {m m' : Machine} {W : World}
  {O : Outline}

/-- Where an outcome may leave a machine. -/
inductive Leads : Outcome → Machine → Prop
  | ok {m : Machine} (rests : m.Rests) : Leads .ok m
  | refused {es : List CompileError} {m : Machine} (rests : m.Rests) : Leads (.refused es) m
  | failed {f : Failure} {m : Machine} (rests : m.Rests) : Leads (.failed f) m
  | unfinished {m : Machine} (ready : m.Ready) : Leads .unfinished m
  | full {m : Machine} : Leads (.fault .arenaFull) m

/-- What is known of a machine in a phase of a session. -/
def InPhase : Phase → Machine → Prop
  | .resting => Rests
  | .running => Ready

/-- An outcome that leads to a phase leaves the machine in it. -/
theorem Leads.inPhase {outcome : Outcome} {p : Phase} (h : Leads outcome m)
    (hphase : outcome.phase? = some p) : InPhase p m := by
  cases h with
  | ok rests | refused rests | failed rests =>
    cases hphase
    exact rests
  | unfinished ready =>
    cases hphase
    exact ready
  | full => cases hphase

/-- The only fault is a full heap. -/
theorem Leads.arenaFull {outcome : Outcome} {f : Fault} (h : Leads outcome m)
    (hf : outcome = .fault f) : f = .arenaFull := by
  cases h with
  | full =>
    cases hf
    rfl
  | _ => cases hf

/-- What is shown stays so where only the sink, the clock or the journal changed. -/
theorem InPhase.imp {p : Phase} (h : InPhase p m) (himp : ∀ W O, m.Shows W O → m'.Shows W O) :
    InPhase p m' := by
  cases p with
  | resting =>
    obtain ⟨W, hm⟩ := h
    exact ⟨W, himp W _ hm⟩
  | running =>
    obtain ⟨W, O, hm, hp⟩ := h
    exact ⟨W, O, himp W O hm, hp⟩

/-- In every phase there is an outline of the machine. -/
theorem InPhase.shows {p : Phase} (h : InPhase p m) : ∃ W O, m.Shows W O := by
  cases p with
  | resting =>
    obtain ⟨W, hm⟩ := h
    exact ⟨W, _, hm⟩
  | running =>
    obtain ⟨W, O, hm, -⟩ := h
    exact ⟨W, O, hm⟩

/-! ### Loading and running -/

/-- An error of the script is reported; then the machine rests. -/
theorem leads_settle (e : RuntimeError) (hm : m.Shows W O) :
    Leads (m.settle (.error e)).1 (m.settle (.error e)).2 := by
  obtain ⟨f, m', heq, -, hrests, -⟩ := Exec.failure_eq e hm
  simp only [settle, heq]
  exact .failed hrests

/-- A stopped action leads to a report or to an exhausted arena. -/
theorem leads_stopped {α : Type} {x : Exec α} {Q : α → Machine → Prop} {halt : Halt}
    (hx : Exec.Does (x m) Q) (hr : x m = .error halt m') :
    Leads (m'.settle halt).1 (m'.settle halt).2 := by
  rw [hr] at hx
  cases halt with
  | error e =>
    obtain ⟨W, O, hm⟩ := hx
    exact leads_settle e hm
  | fault f =>
    obtain rfl : f = .arenaFull := hx
    exact .full

/-- Running on from an instruction. -/
theorem leads_resume (fuel : Nat) (hm : m.Ready) : Leads (m.resume fuel).1 (m.resume fuel).2 := by
  have hrun := Exec.does_run fuel hm
  rw [resume]
  cases hr : Exec.run fuel m with
  | ok progress m' =>
    rw [hr] at hrun
    rcases hrun with ⟨rfl, hm'⟩ | ⟨rfl, hm'⟩
    · exact .unfinished hm'
    · exact .ok hm'
  | error halt m' => exact leads_stopped hrun hr

/-- Loading a source on a machine at rest. -/
theorem leads_load (source : String) (hm : m.Rests) : Leads (m.load source).1 (m.load source).2 := by
  obtain ⟨W, hm⟩ := hm
  have hcompiled := hm.compiled source
  rw [load]
  generalize m.compile source = made at hcompiled
  obtain ⟨result, m₁⟩ := made
  cases hcompiled with
  | @function V r _ shows known =>
    have henter := Exec.does_enter shows known
    dsimp only
    cases hr : Exec.enter r m₁ with
    | ok _ m' =>
      rw [hr] at henter
      exact .unfinished henter
    | error halt m' => exact leads_stopped henter hr
  | errors shows => exact .refused ⟨_, shows⟩
  | full => exact .full

/-- Loading a source and running it. -/
theorem leads_interpret (fuel : Nat) (source : String) (hm : m.Rests) :
    Leads (m.interpret fuel source).1 (m.interpret fuel source).2 := by
  have hload := leads_load source hm
  rw [interpret]
  generalize m.load source = loaded at hload
  obtain ⟨outcome, m₁⟩ := loaded
  cases hload with
  | unfinished ready => exact leads_resume fuel ready
  | ok rests => exact .ok rests
  | refused rests => exact .refused rests
  | failed rests => exact .failed rests
  | full => exact .full

/-! ### The other parts of a session -/

/-- Listing a source leaves a machine at rest, unless the arena is exhausted. -/
theorem rests_disassemble (source : String) (hm : m.Rests) :
    ((m.disassemble source).2.Rests ∧ ∀ f, (m.disassemble source).1 ≠ .fault f) ∨
      (m.disassemble source).1 = .fault .arenaFull := by
  obtain ⟨W, hm⟩ := hm
  have hcompiled := hm.compiled source
  rw [disassemble]
  generalize m.compile source = made at hcompiled
  obtain ⟨result, m₁⟩ := made
  cases hcompiled with
  | @function V r _ shows known =>
    have hwaiting (x : Handle) (hx : x ∈ [r]) : ∃ captures, V x = some (.function captures) :=
      ⟨[], List.mem_singleton.mp hx ▸ known⟩
    obtain ⟨text, htext⟩ := shows.fits.exists_listFunctions UInt32.size "" hwaiting
    simp only [htext]
    exact .inl ⟨⟨V, shows⟩, fun f hf => by cases hf⟩
  | errors shows => exact .inl ⟨⟨_, shows⟩, fun f hf => by cases hf⟩
  | full => exact .inr rfl

/-- A collection keeps what the machine shows. -/
theorem Shows.collect (hm : m.Shows W O) : ∃ V, m.collectGarbage.Shows V O := by
  have hkept (x : Handle) (hx : m.heap.Reachable m.roots x) :
      (m.heap.collect m.roots).object? x = m.heap.object? x :=
    Heap.object?_collect hm.sound.unmarked hx
  refine ⟨_, hm.carry ⟨hm.fits.restrict hkept, fun x t hx ht => ?_, hkept⟩
    (hm.sound.collect (hm.covers hm.lists)) fun x j hj => ?_⟩
  · rwa [World.restrict_of_kept hx]
  · exact (Heap.reachable_of_object?_collect hm.sound.unmarked hj).2

/-- Before its native functions are defined, a machine knows the name of initializers alone. -/
theorem rests_start {r : Handle} {h : Heap} (framesMax : Nat)
    (hi : (Heap.empty settings.pacing journal).InternedAs [] "init" r h) :
    Rests ⟨h, Table.empty, #[], #[], [], r, framesMax, sink, 0⟩ := by
  obtain ⟨V, hfits, hgrows⟩ := World.fits_nothing.intern hi
  refine ⟨V, ⟨?_, ?_⟩⟩
  · exact
      { sound := hi.sound
        fits := hfits
        globals := World.tableOk_empty
        init := hgrows.new
        stack := .nil
        frames := rfl
        runs := fun _ ha => absurd ha List.not_mem_nil
        known := fun _ hs => by cases hs }
  · refine ⟨⟨[], .nil, .nil⟩, fun _ hr => absurd hr List.not_mem_nil, fun x j hj => ?_⟩
    have hold := hi.old x _ hj fun hx => by
      subst hx
      cases hi.new.symm.trans hj
    simp [Heap.object?, Heap.empty] at hold

/-- A machine is made at rest, unless the arena is exhausted. -/
theorem create_spec (settings : Settings) (journal : Journal) (sink : Sink) :
    (∃ m, create settings journal sink = .ok m ∧ m.Rests) ∨
      create settings journal sink = .error .arenaFull := by
  have hcovers : (Heap.empty settings.pacing journal).Covers [] := fun x hx =>
    absurd hx Heap.not_reachable_nil
  rw [create]
  rcases (Heap.sound_empty settings.pacing journal).intern "init" hcovers with
    ⟨r, h, heq, hi⟩ | heq
  · rw [heq]
    have hstart : Rests ⟨h, Table.empty, #[], #[], [], r, settings.framesMax, sink, 0⟩ :=
      rests_start settings.framesMax hi
    have harguments : ∀ n ∈ Native.all, n.action = .clock ∨ n.arity = some 1 := by decide
    have hdefines := Exec.does_defineNatives hstart harguments
    have hquiet := Exec.quiet_defineNatives Native.all
      ⟨h, Table.empty, #[], #[], [], r, settings.framesMax, sink, 0⟩
    dsimp only [bind, Except.bind]
    cases hr : Exec.defineNatives Native.all
        ⟨h, Table.empty, #[], #[], [], r, settings.framesMax, sink, 0⟩ with
    | ok _ m =>
      rw [hr] at hdefines
      exact .inl ⟨m, rfl, hdefines⟩
    | error halt m =>
      rw [hr] at hdefines
      cases halt with
      | error e => exact absurd hr (hquiet e m)
      | fault f =>
        obtain rfl : f = .arenaFull := hdefines
        exact .inr rfl
  · rw [heq]
    exact .inr rfl

/-- What every session keeps. -/
theorem Reached.inPhase {p : Phase} (hm : Reached settings journal sink p m) : InPhase p m := by
  induction hm with
  | created done =>
    rcases create_spec settings journal sink with ⟨m, hm, hrests⟩ | hfull
    · obtain rfl := Except.ok.inj (hm.symm.trans done)
      exact hrests
    · cases hfull.symm.trans done
  | @loaded m m' source outcome p _ done phase ih =>
    have hleads := leads_load source ih
    rw [done] at hleads
    exact hleads.inPhase phase
  | @resumed m m' fuel outcome p _ done phase ih =>
    have hleads := leads_resume fuel ih
    rw [done] at hleads
    exact hleads.inPhase phase
  | @disassembled m m' source listed _ done whole ih =>
    have hrests := rests_disassemble source ih
    rw [done] at hrests
    exact (hrests.resolve_right (whole _)).1
  | collected _ ih =>
    obtain ⟨W, hm⟩ := ih
    exact hm.collect
  | tookOutput _ ih => exact ih.imp fun W O hm => ⟨{ hm.toTyped with }, hm.lists⟩
  | tookEvents _ ih => exact ih.imp fun W O hm => hm.alike ⟨rfl, rfl, rfl, rfl, rfl⟩
  | ticked _ _ ih => exact ih.imp fun W O hm => ⟨{ hm.toTyped with }, hm.lists⟩

/-- No session meets a fault, unless the arena is exhausted: not when the machine is made, not when
a source is loaded, run to any instruction or listed. In every state all that is kept alive is
there, and so is every interned text. -/
theorem sessions_meet_no_fault (settings : Settings) (journal : Journal) (sink : Sink) :
    (∀ f, create settings journal sink = .error f → f = .arenaFull) ∧
    (∀ m, Reached settings journal sink .resting m →
      (∀ source f, (m.load source).1 = .fault f → f = .arenaFull) ∧
      (∀ fuel source f, (m.interpret fuel source).1 = .fault f → f = .arenaFull) ∧
      ∀ source f, (m.disassemble source).1 = .fault f → f = .arenaFull) ∧
    (∀ m, Reached settings journal sink .running m →
      ∀ fuel f, (m.resume fuel).1 = .fault f → f = .arenaFull) ∧
    ∀ p m, Reached settings journal sink p m → m.heap.Covers m.roots ∧
      ∀ k v, Entry.live k v ∈ m.heap.strings.entries →
        ∃ s, m.heap.object? k.string = some (.string s) := by
  refine ⟨fun f hf => ?_, fun m hm => ⟨fun source f hf => ?_, fun fuel source f hf => ?_,
    fun source f hf => ?_⟩, fun m hm fuel f hf => ?_, fun p m hm => ?_⟩
  · rcases create_spec settings journal sink with ⟨m, hm, -⟩ | hfull
    · cases hm.symm.trans hf
    · exact Except.error.inj (hf.symm.trans hfull)
  · exact (leads_load source hm.inPhase).arenaFull hf
  · exact (leads_interpret fuel source hm.inPhase).arenaFull hf
  · rcases rests_disassemble source hm.inPhase with ⟨-, hwhole⟩ | hfull
    · exact absurd hf (hwhole f)
    · cases hf.symm.trans hfull
      rfl
  · exact (leads_resume fuel hm.inPhase).arenaFull hf
  · obtain ⟨W, O, hshows⟩ := hm.inPhase.shows
    refine ⟨hshows.covers hshows.lists, fun k v hk => ?_⟩
    obtain ⟨s, hs, -⟩ := hshows.sound.interning.key k v hk
    exact ⟨s, hs⟩

/-- A loop without an end meets no fault on a machine with the standard settings, however long it
runs. -/
theorem loop_meets_no_fault : ∃ m m', create Settings.standard Journal.off Sink.unlimited = .ok m ∧
    m.load "while (true) print null;" = (.unfinished, m') ∧
    ∀ fuel f, (m'.resume fuel).1 = .fault f → f = .arenaFull := by
  obtain ⟨-, -, hruns, -⟩ :=
    sessions_meet_no_fault Settings.standard Journal.off Sink.unlimited
  have hloads : (create Settings.standard Journal.off Sink.unlimited).toOption.bind
      (fun m => (m.load "while (true) print null;").1.phase?) = some .running := by
    decide +kernel
  cases hmade : create Settings.standard Journal.off Sink.unlimited with
  | error f =>
    rw [hmade] at hloads
    cases hloads
  | ok m =>
    rw [hmade] at hloads
    have hphase : (m.load "while (true) print null;").1.phase? = some .running := hloads
    obtain ⟨outcome, m', hload⟩ : ∃ outcome m', m.load "while (true) print null;" = (outcome, m') :=
      ⟨_, _, rfl⟩
    rw [hload] at hphase
    have hreached := (Reached.created hmade).loaded hload hphase
    obtain rfl : outcome = .unfinished := by
      cases outcome with
      | unfinished => rfl
      | _ => cases hphase
    exact ⟨m, m', rfl, hload, hruns m' hreached⟩

/-- Whatever compiles in a session, or on a heap without objects, becomes a program: a script that
leads to well-formed functions only. -/
theorem compiled_programs_well_formed (settings : Settings) (journal : Journal) (sink : Sink) :
    (∀ m, Reached settings journal sink .resting m → ∀ source r m',
      m.compile source = (.function r, m') → m'.heap.IsProgram r) ∧
    ∀ source r h, Compile.compile source (Heap.empty settings.pacing journal) [] =
      (.function r, h) → h.IsProgram r := by
  refine ⟨fun m hm source r m' hdone => ?_, fun source r h hdone => ?_⟩
  · obtain ⟨W, O, hshows⟩ := hm.inPhase.shows
    obtain ⟨hresult, rfl⟩ := Prod.mk.inj hdone
    exact Compile.isProgram_of_compile hshows.sound (hshows.covers hshows.lists)
      (Prod.ext hresult rfl)
  · exact Compile.isProgram_of_compile (Heap.sound_empty settings.pacing journal)
      (fun x hx => absurd hx Heap.not_reachable_nil) hdone

/-- The script that a source compiled to. -/
def function? : Compile.Result → Option Handle
  | .function r => some r
  | .errors _ | .fault _ => none

/-- A loop around a branch becomes a program. -/
theorem loop_well_formed : ∃ r h, Compile.compile "while (true) { if (null) print true; }"
    (Heap.empty Pacing.standard Journal.off) [] = (.function r, h) ∧ h.IsProgram r := by
  have hcompiles : (function? (Compile.compile "while (true) { if (null) print true; }"
      (Heap.empty Pacing.standard Journal.off) []).1).isSome = true := by decide +kernel
  obtain ⟨r, h, hdone⟩ : ∃ r h, Compile.compile "while (true) { if (null) print true; }"
      (Heap.empty Pacing.standard Journal.off) [] = (.function r, h) := by
    generalize Compile.compile "while (true) { if (null) print true; }"
      (Heap.empty Pacing.standard Journal.off) [] = made at hcompiles
    obtain ⟨result, h⟩ := made
    cases result with
    | function r => exact ⟨r, h, rfl⟩
    | _ => cases hcompiles
  exact ⟨r, h, hdone, (compiled_programs_well_formed Settings.standard Journal.off
    Sink.unlimited).2 _ r h hdone⟩

end Machine

end ScriptMachine
