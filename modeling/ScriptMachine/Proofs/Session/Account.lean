import ScriptMachine.Proofs.Machine.Operating
import ScriptMachine.Proofs.Session.States

/-!
# The byte account of every session

Whatever a session compiles, runs, fails at and collects, operations lead from each of its machines
to the next one. Along the session their charges add up, and the account is exact in every state
between two operations.
-/

namespace ScriptMachine.Machine

variable {settings : Settings} {journal : Journal} {sink : Sink} {m m' : Machine}

/-- Settling a stopped run leads along operations, unless it faults. -/
theorem evolves_settle {halt : Halt} {outcome : Outcome} {p : Phase}
    (hdone : m.settle halt = (outcome, m')) (hphase : outcome.phase? = some p) :
    m.memory.Evolves m'.memory := by
  cases halt with
  | fault f =>
    obtain ⟨rfl, -⟩ := Prod.mk.inj hdone
    cases hphase
  | error e =>
    have hw := Exec.works_failure e
    unfold settle at hdone
    dsimp only at hdone
    split at hdone
    · next hr =>
      obtain ⟨-, rfl⟩ := Prod.mk.inj hdone
      exact hw.ok hr
    · obtain ⟨rfl, -⟩ := Prod.mk.inj hdone
      cases hphase
    · next hr =>
      obtain ⟨-, rfl⟩ := Prod.mk.inj hdone
      exact hw.error hr id

/-- An action that stops leads along operations to the state that is settled then. -/
theorem evolves_stopped {α : Type} {x : Exec α} {m₁ : Machine} {halt : Halt} {outcome : Outcome}
    {p : Phase} (hw : Exec.Works x) (hr : x m = .error halt m₁)
    (hdone : m₁.settle halt = (outcome, m')) (hphase : outcome.phase? = some p) :
    m.memory.Evolves m'.memory := by
  cases halt with
  | fault f =>
    obtain ⟨rfl, -⟩ := Prod.mk.inj hdone
    cases hphase
  | error e => exact Memory.Evolves.trans (hw.error hr id) (evolves_settle hdone hphase)

/-- Running on leads along operations, unless it faults. -/
theorem evolves_resume {fuel : Nat} {outcome : Outcome} {p : Phase}
    (hdone : m.resume fuel = (outcome, m')) (hphase : outcome.phase? = some p) :
    m.memory.Evolves m'.memory := by
  have hw := Exec.works_run fuel
  unfold resume at hdone
  split at hdone
  · next hr =>
    obtain ⟨-, rfl⟩ := Prod.mk.inj hdone
    exact hw.ok hr
  · next hr =>
    obtain ⟨-, rfl⟩ := Prod.mk.inj hdone
    exact hw.ok hr
  · next hr => exact evolves_stopped hw hr hdone hphase

/-- Operations lead from one machine to another that has compiled a source, and to lines from 1 if the
lines of the source all have numbers. -/
structure Absorbs (source : String) (m m' : Machine) : Prop where
  path : m.memory.Path m'.memory
  lines : (Source.Lines.ofText source).count < 2 ^ 32 → m.heap.LinesFromOne → m'.heap.LinesFromOne

/-- What comes after the source leads on. -/
theorem Absorbs.evolves {source : String} {m₁ : Machine} (h : m.Absorbs source m₁)
    (hevolves : m₁.memory.Evolves m'.memory) : m.Absorbs source m' :=
  ⟨h.path.trans hevolves.path, fun hcount => hevolves.lines ∘ h.lines hcount⟩

/-- Compiling leads along operations, unless it faults. -/
theorem absorbs_compile {source : String} {result : Compile.Result}
    (hdone : m.compile source = (result, m')) (hwhole : ∀ f, result ≠ .fault f) :
    m.Absorbs source m' := by
  obtain ⟨rfl, rfl⟩ := Prod.mk.inj hdone
  obtain ⟨s, hevolves, hheap⟩ := Compile.evolves_compile m.globals source m.heap m.roots hwhole
  constructor
  · show Memory.Path ⟨m.heap, m.globals⟩ ⟨(Compile.compile source m.heap m.roots).2, m.globals⟩
    rw [hheap]
    exact hevolves.path
  · intro hcount hm
    show (Compile.compile source m.heap m.roots).2.LinesFromOne
    rw [hheap]
    exact (hevolves.lines (Compile.linesFromOne_start hm m.roots hcount)).heap

/-- Loading a source leads along operations, unless it faults. -/
theorem absorbs_load {source : String} {outcome : Outcome} {p : Phase}
    (hdone : m.load source = (outcome, m')) (hphase : outcome.phase? = some p) :
    m.Absorbs source m' := by
  unfold load at hdone
  split at hdone
  · next hc =>
    obtain ⟨-, rfl⟩ := Prod.mk.inj hdone
    exact absorbs_compile hc (by simp)
  · obtain ⟨rfl, -⟩ := Prod.mk.inj hdone
    cases hphase
  · next r m₁ hc =>
    refine (absorbs_compile hc (by simp)).evolves ?_
    have hw := Exec.works_enter r
    split at hdone
    · next hr =>
      obtain ⟨-, rfl⟩ := Prod.mk.inj hdone
      exact hw.ok hr
    · next hr => exact evolves_stopped hw hr hdone hphase

/-- Listing a source leads along operations, unless it faults. -/
theorem absorbs_disassemble {source : String} {listed : Disassembly}
    (hdone : m.disassemble source = (listed, m')) (hwhole : ∀ f, listed ≠ .fault f) :
    m.Absorbs source m' := by
  unfold disassemble at hdone
  split at hdone
  · next hc =>
    obtain ⟨-, rfl⟩ := Prod.mk.inj hdone
    exact absorbs_compile hc (by simp)
  · next f _ _ =>
    obtain ⟨rfl, -⟩ := Prod.mk.inj hdone
    exact absurd rfl (hwhole f)
  · next hc =>
    split at hdone <;>
    · obtain ⟨-, rfl⟩ := Prod.mk.inj hdone
      exact absorbs_compile hc (by simp)

/-- A machine is made of the empty heap along operations. -/
theorem evolves_create (hdone : create settings journal sink = .ok m) :
    Memory.Evolves (.blank settings.pacing journal) m.memory := by
  unfold create at hdone
  obtain ⟨⟨init, heap⟩, hinit, hdone⟩ := exists_of_bind_eq_ok hdone
  refine (Memory.evolves_intern Table.empty hinit).trans ?_
  have hw := Exec.works_defineNatives Native.all
  dsimp only at hdone
  split at hdone
  · next hr =>
    obtain rfl := Except.ok.inj hdone
    exact hw.ok hr
  · cases hdone
  · next hr =>
    obtain rfl := Except.ok.inj hdone
    exact hw.error hr id

/-- In a session whose sources have only lines with numbers, every recorded line is counted from
1. -/
theorem Fed.linesFromOne {sources : List String} {p : Phase}
    (h : Fed settings journal sink sources p m)
    (hcount : ∀ source ∈ sources, (Source.Lines.ofText source).count < 2 ^ 32) :
    m.heap.LinesFromOne := by
  induction h with
  | created done => exact (evolves_create done).lines (.empty settings.pacing journal)
  | loaded _ done phase ih =>
    obtain ⟨hsource, hbefore⟩ := List.forall_mem_cons.mp hcount
    exact (absorbs_load done phase).lines hsource (ih hbefore)
  | disassembled _ done whole ih =>
    obtain ⟨hsource, hbefore⟩ := List.forall_mem_cons.mp hcount
    exact (absorbs_disassemble done whole).lines hsource (ih hbefore)
  | resumed _ done phase ih => exact (evolves_resume done phase).lines (ih hcount)
  | collected _ ih => exact (ih hcount).collect _
  | idled _ idles ih =>
    cases idles with
    | ticked | tookOutput | tookEvents => exact ih hcount

/-! ### The account along a session -/

/-- Running on for some instructions is running on for one, which is all there is to run or is
followed by the others. -/
theorem resume_succ (m : Machine) (fuel : Nat) : m.resume (fuel + 1) = m.resume 1 ∨
    ∃ n, m.resume 1 = (.unfinished, n) ∧ m.resume (fuel + 1) = n.resume fuel := by
  cases hstep : Exec.step m with
  | ok progress n =>
    cases progress with
    | running =>
      have hrun (fuel : Nat) : Exec.run (fuel + 1) m = Exec.run fuel n := by
        show EStateM.bind Exec.step _ m = _
        rw [EStateM.bind, hstep]
      exact .inr ⟨n, by rw [resume, hrun 0, Exec.run]; rfl, by rw [resume, hrun, resume]⟩
    | finished =>
      have hrun (fuel : Nat) : Exec.run (fuel + 1) m = .ok .finished n := by
        show EStateM.bind Exec.step _ m = _
        rw [EStateM.bind, hstep]
        rfl
      exact .inl (by rw [resume, resume, hrun, hrun])
  | error halt n =>
    have hrun (fuel : Nat) : Exec.run (fuel + 1) m = .error halt n := by
      show EStateM.bind Exec.step _ m = _
      rw [EStateM.bind, hstep]
    exact .inl (by rw [resume, resume, hrun, hrun])

/-- The compiler where it stops, with a script or with an error. -/
def compiler (m : Machine) (source : String) : Compile.State :=
  match Compile.script (.start source m.heap m.roots) with
  | .ok _ s | .error _ s => s

/-- Whatever comes next of a machine, operations lead there. -/
theorem Goes.path {p p' : Phase} (h : Goes p m p' m') : m.memory.Path m'.memory := by
  cases h with
  | stepped done phase => exact (evolves_resume done phase).path
  | loaded done phase => exact (absorbs_load done phase).path
  | disassembled done whole => exact (absorbs_disassemble done whole).path
  | collected => exact (Memory.Operation.collect _).path
  | idled idles =>
    cases idles with
    | ticked | tookOutput => exact .refl _
    | tookEvents => exact (Memory.Operation.keepEvents _).path

/-- A machine of a session, with the bytes that all operations since the start of the session have
charged and the levels that the account has had, the latest first. What comes next adds the charges
and the levels of the operations that lead there. -/
inductive Accounts (settings : Settings) (journal : Journal) (sink : Sink) :
    Phase → Machine → Nat → List Nat → Prop
  | created {m : Machine} {charged : Nat} {levels : List Nat}
      (done : create settings journal sink = .ok m)
      (run : (Memory.blank settings.pacing journal).Run charged levels m.memory) :
      Accounts settings journal sink .resting m charged (levels ++ [0])
  | next {p p' : Phase} {m m' : Machine} {charged charge : Nat} {levels new : List Nat}
      (before : Accounts settings journal sink p m charged levels) (goes : Goes p m p' m')
      (run : m.memory.Run charge new m'.memory) :
      Accounts settings journal sink p' m' (charged + charge) (new ++ levels)

/-- The account of a session goes on with whatever comes next. -/
theorem Accounts.goes {p p' : Phase} {charged : Nat} {levels : List Nat}
    (h : Accounts settings journal sink p m charged levels) (hgoes : Goes p m p' m') :
    ∃ charged' levels', Accounts settings journal sink p' m' charged' levels' := by
  obtain ⟨charge, new, hrun⟩ := hgoes.path.run
  exact ⟨charged + charge, new ++ levels, h.next hgoes hrun⟩

/-- The account of a session goes on along a run of any length. -/
theorem Accounts.resume {p : Phase} {fuel charged : Nat} {levels : List Nat} {outcome : Outcome}
    (h : Accounts settings journal sink .running m charged levels)
    (hdone : m.resume fuel = (outcome, m')) (hphase : outcome.phase? = some p) :
    ∃ charged' levels', Accounts settings journal sink p m' charged' levels' := by
  induction fuel generalizing m charged levels with
  | zero =>
    obtain ⟨rfl, rfl⟩ := Prod.mk.inj hdone
    obtain rfl := Option.some.inj hphase
    exact ⟨charged, levels, h⟩
  | succ fuel ih =>
    rcases resume_succ m fuel with hlast | ⟨n, hone, hrest⟩
    · exact h.goes (.stepped (hlast ▸ hdone) hphase)
    · obtain ⟨charged', levels', h'⟩ := h.goes (.stepped hone rfl)
      exact ih h' (hrest ▸ hdone)

/-- Every machine of a session has an account along the session. -/
theorem Reached.accounts {p : Phase} (hm : Reached settings journal sink p m) :
    ∃ charged levels, Accounts settings journal sink p m charged levels := by
  induction hm with
  | created done =>
    obtain ⟨charged, levels, hrun⟩ := (evolves_create done).path.run
    exact ⟨charged, levels ++ [0], .created done hrun⟩
  | loaded _ done phase ih =>
    obtain ⟨_, _, h⟩ := ih
    exact h.goes (.loaded done phase)
  | resumed _ done phase ih =>
    obtain ⟨_, _, h⟩ := ih
    exact h.resume done phase
  | disassembled _ done whole ih =>
    obtain ⟨_, _, h⟩ := ih
    exact h.goes (.disassembled done whole)
  | collected _ ih =>
    obtain ⟨_, _, h⟩ := ih
    exact h.goes .collected
  | tookOutput _ ih =>
    obtain ⟨_, _, h⟩ := ih
    exact h.goes (.idled .tookOutput)
  | tookEvents _ ih =>
    obtain ⟨_, _, h⟩ := ih
    exact h.goes (.idled .tookEvents)
  | ticked _ now ih =>
    obtain ⟨_, _, h⟩ := ih
    exact h.goes (.idled (.ticked now))

/-- Along a session the account is exact. -/
theorem Accounts.balanced {p : Phase} {charged : Nat} {levels : List Nat}
    (h : Accounts settings journal sink p m charged levels) :
    m.memory.heap.Arena ∧ m.memory.heap.bytes ∈ levels ∧ m.memory.Balanced charged levels := by
  induction h with
  | created _ run =>
    obtain ⟨harena, hbalanced⟩ := Memory.balanced_blank settings.pacing journal
    have h := run.balanced harena (List.mem_singleton.mpr rfl) hbalanced
    rwa [Nat.zero_add] at h
  | next _ _ run ih =>
    obtain ⟨harena, hmem, hbalanced⟩ := ih
    exact run.balanced harena hmem hbalanced

/-- Compiling leaves the memory in which the compiler stopped. -/
theorem memory_compile (m : Machine) (source : String) :
    (m.compile source).2.memory = ⟨(m.compiler source).heap, m.globals⟩ := by
  show Memory.mk (Compile.compile source m.heap m.roots).2 m.globals = _
  rw [compiler, Compile.compile]
  cases Compile.script (.start source m.heap m.roots) with
  | ok made s => cases made <;> rfl
  | error stop s => cases stop <;> rfl

/-- A source that is refused leaves the memory in which the compiler stopped. -/
theorem memory_of_refused {source : String} {es : List CompileError}
    (h : m.load source = (.refused es, m') ∨ m.disassemble source = (.refused es, m')) :
    m'.memory = ⟨(m.compiler source).heap, m.globals⟩ := by
  have hcompiled {result : Compile.Result} {n : Machine} (hc : m.compile source = (result, n)) :
      n.memory = ⟨(m.compiler source).heap, m.globals⟩ := by
    rw [← memory_compile, hc]
  have hsettle (n : Machine) (halt : Halt) : n.settle halt ≠ (.refused es, m') := by
    unfold settle
    cases halt with
    | fault f => simp
    | error e =>
      dsimp only
      split <;> simp
  rcases h with hload | hlist
  · unfold load at hload
    split at hload
    · next hc =>
      obtain ⟨-, rfl⟩ := Prod.mk.inj hload
      exact hcompiled hc
    · cases (Prod.mk.inj hload).1
    · split at hload
      · cases (Prod.mk.inj hload).1
      · exact absurd hload (hsettle _ _)
  · unfold disassemble at hlist
    split at hlist
    · next hc =>
      obtain ⟨-, rfl⟩ := Prod.mk.inj hlist
      exact hcompiled hc
    · cases (Prod.mk.inj hlist).1
    · split at hlist <;> cases (Prod.mk.inj hlist).1

/-- Every machine of a session has an account along the session, and what comes next goes on with
it: a refused source too, which leaves the memory in which the compiler stopped. After every
operation on the way the account is exact, and a sweep from any roots gives back no more than is on
it. -/
theorem sessions_account_exactly (settings : Settings) (journal : Journal) (sink : Sink) :
    (∀ p m, Reached settings journal sink p m →
      ∃ charged levels, Accounts settings journal sink p m charged levels) ∧
    ∀ p m charged levels, Accounts settings journal sink p m charged levels →
      (∀ p' m', Goes p m p' m' → ∃ charge new, m.memory.Run charge new m'.memory) ∧
      (∀ source es m', p = .resting →
        m.load source = (.refused es, m') ∨ m.disassemble source = (.refused es, m') →
        m'.memory = ⟨(m.compiler source).heap, m.globals⟩) ∧
      ∀ charge new s, m.memory.Run charge new s → s.Balanced (charged + charge) (new ++ levels) ∧
        ∀ roots, (s.heap.sweeping roots).run.freedBytes ≤ s.heap.bytes := by
  refine ⟨fun p m hm => hm.accounts, fun p m charged levels h => ⟨fun p' m' hgoes =>
    hgoes.path.run, fun source es m' _ hrefused => memory_of_refused hrefused,
    fun charge new s hrun => ?_⟩⟩
  obtain ⟨harena, hmem, hbalanced⟩ := h.balanced
  obtain ⟨-, -, hb⟩ := hrun.balanced harena hmem hbalanced
  exact ⟨hb, hb.freedBytes_le⟩

/-- The account is exact after a script has run, a source has been refused and what they left has
been collected. -/
theorem worked_account_exact : ∃ m₀ m₁ m₂ m₃ es charged levels,
    create Settings.standard Journal.off Sink.unlimited = .ok m₀ ∧
    m₀.load "class A {} A();" = (.unfinished, m₁) ∧ m₁.resume 9 = (.ok, m₂) ∧
    m₂.load "1 +" = (.refused es, m₃) ∧
    m₃.heap.stats.objectsFreed < m₃.collectGarbage.heap.stats.objectsFreed ∧
    Accounts Settings.standard Journal.off Sink.unlimited .resting m₃.collectGarbage charged levels ∧
    m₃.collectGarbage.memory.Balanced charged levels := by
  have hruns : (create Settings.standard Journal.off Sink.unlimited).toOption.any (fun m =>
      let loaded := m.load "class A {} A();"
      let ran := loaded.2.resume 9
      let refused := ran.2.load "1 +"
      decide (loaded.1.phase? = some .running) &&
        decide (ran.1.phase? = some .resting) && ran.1.display?.isNone &&
        refused.1.errors?.isSome &&
        decide (refused.2.heap.stats.objectsFreed <
          refused.2.collectGarbage.heap.stats.objectsFreed)) = true := by
    decide +kernel
  have hmade := exists_created hruns
  obtain ⟨m₀, hcreated, hruns⟩ := hmade
  simp only [Bool.and_eq_true, decide_eq_true_eq, and_assoc] at hruns
  obtain ⟨hload, hphase, hnone, hrefused, hfreed⟩ := hruns
  obtain ⟨outcome, m₁, hloaded⟩ : ∃ outcome n, m₀.load "class A {} A();" = (outcome, n) := ⟨_, _, rfl⟩
  rw [hloaded] at hload hphase hnone hrefused hfreed
  obtain rfl : outcome = .unfinished := by
    cases outcome with
    | unfinished => rfl
    | _ => cases hload
  obtain ⟨outcome, m₂, hran⟩ : ∃ outcome n, m₁.resume 9 = (outcome, n) := ⟨_, _, rfl⟩
  rw [hran] at hphase hnone hrefused hfreed
  obtain rfl : outcome = .ok := by
    cases outcome with
    | ok => rfl
    | unfinished | fault => cases hphase
    | refused | failed => cases hnone
  obtain ⟨outcome, m₃, hsecond⟩ : ∃ outcome n, m₂.load "1 +" = (outcome, n) := ⟨_, _, rfl⟩
  rw [hsecond] at hrefused hfreed
  obtain ⟨es, rfl⟩ : ∃ es, outcome = .refused es := by
    cases outcome with
    | refused es => exact ⟨es, rfl⟩
    | _ => cases hrefused
  obtain ⟨haccounts, hexact⟩ :=
    sessions_account_exactly Settings.standard Journal.off Sink.unlimited
  have hreached : Reached Settings.standard Journal.off Sink.unlimited .resting m₃ :=
    (((Reached.created hcreated).loaded hloaded rfl).resumed hran rfl).loaded hsecond rfl
  obtain ⟨charged, levels, h⟩ := haccounts .resting m₃.collectGarbage hreached.collected
  obtain ⟨-, -, hbalanced⟩ := hexact .resting _ charged levels h
  exact ⟨m₀, m₁, m₂, m₃, es, charged, levels, hcreated, hloaded, hran, hsecond, hfreed, h,
    (hbalanced 0 [] _ .refl).1⟩

end ScriptMachine.Machine
