import ScriptMachine.Proofs.Session.Declarations
import ScriptMachine.Proofs.Session.Lookups

/-!
# Classes that are declared and their lines

Only the steps of the declaration of a class change what the class has. Once its declaration is
complete, the class stays as it is as long as it is alive: whatever is run, declared, loaded or
collected afterwards.

A class that was declared with a superclass continues the line of that class as it was when the new
one inherited. Whatever happened since, what it has under a name is the closure of the nearest
definition in its line, and every search for a method finds that one.
-/

namespace ScriptMachine

namespace Machine

variable {settings : Settings} {journal : Journal} {sink : Sink} {m m' n : Machine} {p p' : Phase}
  {x : Handle}

/-! ### Steps -/

/-- The innermost function is not in the midst of the declaration of `x`: it is where a stretch
starts, about to return its receiver, or in the declaration of another class. -/
inductive Settled (m : Machine) (x : Handle) : Phase → Prop
  | rests : Settled m x .resting
  | starts {ps : List Part} (sits : m.Sits [] ps) : Settled m x .running
  | answers {ps : List Part} (sits : m.Sits [[(Instr.getLocal 0).encode]] ps) : Settled m x .running
  | declares {g : Frame} {rest : List Frame} {q : Part} {ps : List Part} {n : Nat} {name : String}
      {r : Handle} {parent : Option String} {made : Option Handle} {methods : List Function}
      {done left : Atoms}
      (declaring : m.Declaring g rest q ps n name r parent made methods done left) (other : r ≠ x) :
      Settled m x .running

/-- A step where a stretch starts makes and changes no class but a new one. -/
theorem Settled.of_starts {ps : List Part} (hsits : m.Sits [] ps)
    (hm : Reached settings journal sink .running m) (hx : m.Keeps x)
    (hstep : Exec.step m = .ok .running m') :
    m'.Settled x .running ∧ m.SameClass x m' := by
  have hm' := hm.follows (.stepped hstep)
  have hready := hm.inPhase
  obtain ⟨-, i, -, hi, -⟩ := Exec.advanced_of_step hready hstep
  cases hsits with
  | @intro g rest q ps k _ works =>
    obtain ⟨n, ws, left, o, rfl, hmidst, hstretch⟩ := works.stretch hi
    obtain ⟨-, hturned⟩ := works.advances hready hm'.inPhase hm.standing.1 hi hmidst.position hstep
    obtain ⟨done', ps', hdone, hsits⟩ := hturned.sits hm'.inPhase hm'.standing.1
    -- behind a stretch of one atom the next one starts
    have hsingle (hleft : left = []) : m'.Settled x .running := by
      subst hleft
      obtain rfl : done' = [] := by rcases hdone with rfl | rfl <;> rfl
      exact .starts hsits
    rw [List.nil_append] at hstretch
    generalize hatoms : (i.encode :: ws) :: left = atoms at hstretch
    cases hstretch with
    | instr permits =>
      obtain ⟨heq, rfl⟩ := List.cons.inj hatoms
      obtain rfl := Instr.encode_injective (List.cons.inj heq).1
      exact ⟨hsingle rfl, (hready.retains_step hi permits.shapesCode hstep).sameClass x⟩
    | closure codes =>
      obtain ⟨rfl, rfl⟩ := List.cons.inj hatoms
      obtain ⟨j, captures, heq⟩ := codes.exists_closure
      obtain rfl := Instr.encode_injective (List.cons.inj heq).1
      obtain ⟨a, r, d, hclosed, -⟩ := works.closed hready hi hstep
      exact ⟨hsingle rfl, hclosed.retains.sameClass_of_closure hclosed.object x⟩
    | answer =>
      obtain ⟨heq, rfl⟩ := List.cons.inj hatoms
      obtain ⟨hword, rfl⟩ : i.encode = (Instr.getLocal 0).encode ∧ ws = [] := List.cons.inj heq
      obtain rfl := Instr.encode_injective hword
      refine ⟨?_, (hready.retains_step hi rfl hstep).sameClass x⟩
      rcases hdone with rfl | rfl
      · exact .answers hsits
      · exact .starts hsits
    | class_ code proper =>
      obtain ⟨j, left', r, -, -, hclassed, -, hdeclaring⟩ :=
        (hatoms ▸ hmidst).begins code proper hready hm'.inPhase hm.standing.1 hstep
      have hne := hclassed.fresh x hx
      exact ⟨.declares hdeclaring hne.symm, [r], hclassed.retains, fun _ => by simpa using hne⟩

/-- Behind the receiver an initializer returns. -/
theorem Settled.of_answers {ps : List Part} (hsits : m.Sits [[(Instr.getLocal 0).encode]] ps)
    (hm : Reached settings journal sink .running m) (hstep : Exec.step m = .ok .running m') :
    m'.Settled x .running ∧ m.SameClass x m' := by
  have hm' := hm.follows (.stepped hstep)
  have hready := hm.inPhase
  obtain ⟨-, i, -, hi, -⟩ := Exec.advanced_of_step hready hstep
  cases hsits with
  | @intro g rest q ps k _ works =>
    obtain ⟨n, ws, left, o, rfl, hmidst, hstretch⟩ := works.stretch hi
    obtain ⟨-, hturned⟩ := works.advances hready hm'.inPhase hm.standing.1 hi hmidst.position hstep
    obtain ⟨done', ps', hdone, hsits⟩ := hturned.sits hm'.inPhase hm'.standing.1
    generalize hatoms : [[(Instr.getLocal 0).encode]] ++ (i.encode :: ws) :: left = atoms at hstretch
    cases hstretch with
    | instr | closure =>
      obtain ⟨hnil, -⟩ := append_cons_eq_singleton hatoms.symm
      cases hnil
    | answer =>
      obtain ⟨heq, rfl⟩ := List.cons.inj (List.cons.inj hatoms).2
      obtain ⟨hword, rfl⟩ : i.encode = Instr.return_.encode ∧ ws = [] := List.cons.inj heq
      obtain rfl := Instr.encode_injective hword
      obtain rfl : done' = [] := by rcases hdone with rfl | rfl <;> rfl
      exact ⟨.starts hsits, (hready.retains_step hi rfl hstep).sameClass x⟩
    | class_ code =>
      cases code
      cases Instr.encode_injective (List.cons.inj (List.cons.inj hatoms).1).1

/-- A step changes no class but the one that is being declared. -/
theorem Settled.step (h : m.Settled x .running) (hm : Reached settings journal sink .running m)
    (hx : m.Keeps x) (hstep : Exec.step m = .ok .running m') :
    m'.Settled x .running ∧ m.SameClass x m' := by
  have hm' := hm.follows (.stepped hstep)
  cases h with
  | starts sits => exact Settled.of_starts sits hm hx hstep
  | answers sits => exact Settled.of_answers sits hm hstep
  | @declares _ _ _ _ _ _ r _ _ _ _ _ declaring other =>
    obtain ⟨atom, left, -, honward⟩ :=
      declaring.step hm.inPhase hm'.inPhase hm.standing.1 hstep
    cases honward with
    | intro progress reaches retains apart =>
      refine ⟨?_, _, retains, fun _ => apart x hx other.symm⟩
      cases reaches with
      | midst declaring => exact .declares declaring other
      | behind works => exact .starts (.intro works)

/-! ### Sessions -/

/-- Whatever comes next changes no class that is not being declared. -/
theorem Settled.goes (h : m.Settled x p) (hm : Reached settings journal sink p m) (hx : m.Keeps x)
    (hgoes : Goes p m p' m') :
    m'.Settled x p' ∧ m.SameClass x m' := by
  cases hgoes with
  | @stepped _ _ outcome _ done phase =>
    unfold resume at done
    cases hstep : Exec.step m with
    | ok progress n =>
      have hrun : Exec.run 1 m = .ok progress n := by
        refine (Exec.bind_eq hstep).trans ?_
        cases progress <;> rfl
      rw [hrun] at done
      cases progress with
      | running =>
        obtain ⟨rfl, rfl⟩ := Prod.mk.inj done
        cases phase
        exact h.step hm hx hstep
      | finished =>
        obtain ⟨rfl, rfl⟩ := Prod.mk.inj done
        cases phase
        exact ⟨.rests, (hm.inPhase.retains_last (.inl hstep)).sameClass x⟩
    | error halt n =>
      have hrun : Exec.run 1 m = .error halt n := Exec.bind_error hstep
      rw [hrun] at done
      cases halt with
      | fault f =>
        obtain ⟨rfl, -⟩ := Prod.mk.inj done
        cases phase
      | error e =>
        have hdoes := Exec.does_run 1 hm.inPhase
        rw [hrun] at hdoes
        obtain ⟨W, O, hshows⟩ := hdoes
        obtain ⟨hretains, -⟩ := hshows.retains_settle done
        obtain ⟨f, n', heq, -⟩ := Exec.failure_eq e hshows
        simp only [settle, heq] at done
        obtain ⟨rfl, rfl⟩ := Prod.mk.inj done
        cases phase
        exact ⟨.rests,
          ((hm.inPhase.retains_last (.inr ⟨e, hstep⟩)).trans hretains).sameClass x⟩
  | loaded done phase =>
    obtain ⟨-, hsits, hclasses⟩ := hm.inPhase.loads hm.standing.1 done phase
    refine ⟨?_, hclasses x⟩
    cases p' with
    | resting => exact .rests
    | running =>
      obtain ⟨ps, hsits⟩ := hsits rfl
      exact .starts hsits
  | disassembled done whole =>
    obtain ⟨W, hshows⟩ := hm.inPhase
    exact ⟨.rests, (hshows.retains_disassemble done whole).sameClass x⟩
  | collected =>
    obtain ⟨W, hshows⟩ := hm.inPhase
    have hretains : m.Retains [] m.collectGarbage := ⟨.collect hshows.sound.unmarked _, rfl⟩
    exact ⟨.rests, hretains.sameClass x⟩
  | idled idles =>
    have hm' := idles.reached hm
    have hsame := idles.same
    have hretains : m.Retains [] m' := ⟨.of_alike hsame.heap, hsame.initName⟩
    refine ⟨?_, hretains.sameClass x⟩
    cases h with
    | rests => exact .rests
    | starts sits =>
      exact .starts (sits.alike hm'.inPhase hsame.heap hsame.initName hsame.frames hsame.stack)
    | answers sits =>
      exact .answers (sits.alike hm'.inPhase hsame.heap hsame.initName hsame.frames hsame.stack)
    | declares declaring other => exact .declares (declaring.same hm'.inPhase hsame) other

/-- What the same class has is the same. -/
theorem SameClass.method?_eq {c : ClassObject} {text : String} (h : m.SameClass x m')
    (hm : Reached settings journal sink p m) (hx : m.Keeps x)
    (hc : m'.heap.object? x = some (.class_ c)) : m'.method? x text = m.method? x text := by
  obtain ⟨new, hr, hnew⟩ := h
  obtain ⟨W, O, hshows⟩ := hm.inPhase.shows
  exact hshows.method?_of_retains (hshows.knows_of_keeps hx) hr (hnew ⟨c, hc⟩) hc

/-- A class that is not being declared stays as it is as long as it is alive. -/
theorem Settled.lives (h : m.Settled x p) (hm : Reached settings journal sink p m)
    (hlives : Lives x p m p' m') :
    m'.Settled x p' ∧ ∀ c, m'.heap.object? x = some (.class_ c) →
      m.heap.object? x = some (.class_ c) ∧ ∀ text, m'.method? x text = m.method? x text := by
  induction hlives with
  | refl => exact ⟨h, fun c hc => ⟨hc, fun text => rfl⟩⟩
  | tail before keeps next ih =>
    have hn := before.reached hm
    obtain ⟨hsettled, hstays⟩ := ih h hm
    obtain ⟨hsettled', hsame⟩ := hsettled.goes hn keeps next
    refine ⟨hsettled', fun c hc => ?_⟩
    obtain ⟨hobject, hmethods⟩ := hstays c (hsame.object hc)
    exact ⟨hobject, fun text => (hsame.method?_eq hn keeps hc).trans (hmethods text)⟩

/-! ### Lines of classes -/

variable {settings : Settings} {journal : Journal} {sink : Sink} {m m' n : Machine} {p p' : Phase}
  {x r : Handle} {line : List (List Function × List Handle)} {text : String}

/-- The closure of the nearest definition of a name in a line of classes, each given by its methods
and their closures: of the last one of that name in the first class that has one. -/
def nearest (line : List (List Function × List Handle)) (text : String) : Option Handle :=
  line.findSome? fun own => lastNamed own.1 own.2 text

/-- In a machine of a session the class `x` has been declared with the definitions of the line: its
own, then the ones of its superclass, and so on. The superclass has its line when the class inherits,
and a class keeps its line as long as it is alive. -/
inductive Lineage (settings : Settings) (journal : Journal) (sink : Sink) :
    Phase → Machine → Handle → List (List Function × List Handle) → Prop
  | first {m m' : Machine} {B : Body} {name : String} {methods : List Function} {atoms : Atoms}
      {steps : List (Machine × Machine)} {r : Handle}
      (reached : Reached settings journal sink .running m)
      (declares : m.Declares B name none methods atoms) (run : m.Runs steps m')
      (complete : steps.length = atoms.length) (made : classMade steps = some r) :
      Lineage settings journal sink .running m' r [(methods, (closuresMade steps).map Prod.snd)]
  | next {m n m' : Machine} {B : Body} {name parent : String} {methods : List Function}
      {atoms : Atoms} {steps : List (Machine × Machine)} {r x : Handle}
      {line : List (List Function × List Handle)}
      (reached : Reached settings journal sink .running m)
      (declares : m.Declares B name (some parent) methods atoms) (run : m.Runs steps m')
      (complete : steps.length = atoms.length) (made : classMade steps = some r)
      (inherits : superclasses steps = [(n, x)])
      (above : Lineage settings journal sink .running n x line) :
      Lineage settings journal sink .running m' r
        ((methods, (closuresMade steps).map Prod.snd) :: line)
  | later {p p' : Phase} {m m' : Machine} {x : Handle} {line : List (List Function × List Handle)}
      (before : Lineage settings journal sink p m x line) (keeps : m.Keeps x)
      (goes : Goes p m p' m') (there : ∃ c, m'.heap.object? x = some (.class_ c)) :
      Lineage settings journal sink p' m' x line

/-- What a class of a line has under a name is the nearest definition. -/
theorem Lineage.method?_eq (h : Lineage settings journal sink p m x line) :
    Reached settings journal sink p m ∧ m.Settled x p ∧ (∃ c, m.heap.object? x = some (.class_ c)) ∧
      ∀ text, m.method? x text = (nearest line text).map .ofHandle := by
  induction h with
  | first reached declares run complete made =>
    obtain ⟨⟨ps, hsits⟩, r, hdeclared⟩ := declares.declared reached run complete
    obtain rfl := Option.some.inj (hdeclared.made.symm.trans made)
    refine ⟨run.reached reached, .starts hsits, hdeclared.object, fun text => ?_⟩
    have hnone : superclasses _ = [] := List.eq_nil_of_length_eq_zero hdeclared.supers
    rw [hdeclared.found, inherited, hnone, List.findSome?_nil, Option.or_none, nearest,
      List.findSome?_singleton]
  | next reached declares run complete made inherits _ ih =>
    obtain ⟨⟨ps, hsits⟩, r, hdeclared⟩ := declares.declared reached run complete
    obtain rfl := Option.some.inj (hdeclared.made.symm.trans made)
    refine ⟨run.reached reached, .starts hsits, hdeclared.object, fun text => ?_⟩
    obtain ⟨-, -, -, habove⟩ := ih
    rw [hdeclared.found, inherited, inherits, List.findSome?_singleton, habove, ← Option.map_or,
      nearest, nearest, List.findSome?_cons]
    cases lastNamed _ _ text <;> rfl
  | later before keeps goes there ih =>
    obtain ⟨hreached, hsettled, -, hmethods⟩ := ih
    obtain ⟨hsettled', hsame⟩ := hsettled.goes hreached keeps goes
    obtain ⟨c, hc⟩ := there
    exact ⟨goes.reached hreached, hsettled', ⟨c, hc⟩,
      fun text => (hsame.method?_eq hreached keeps hc).trans (hmethods text)⟩

/-- In every session, where a class is to be made the code of a declaration starts, and a run that
carries the whole of it out leaves a new class. Under each name that has the closure made for the
last of its own methods of the name, or else what the superclass had when it was inherited from, or
else nothing. From then on neither this class nor, from the start of the declaration on, any other
one changes as long as it is alive. So what a class has under a name is the nearest definition in its
line, and whatever looks for a method in it, the property of an instance or a method of a superclass
that is read or called, finds that definition. -/
theorem sessions_declare_classes (settings : Settings) (journal : Journal) (sink : Sink) :
    (∀ m k, Reached settings journal sink .running m → m.next? = some (.class_ k) →
      ∃ B name parent methods atoms, m.Declares B name parent methods atoms ∧
        (∀ steps m', m.Runs steps m' → steps.length = atoms.length →
          ∃ r, m.Declared B parent methods atoms steps m' r ∧
            ∀ p n c, Lives r .running m' p n → n.heap.object? r = some (.class_ c) →
              m'.heap.object? r = some (.class_ c) ∧
                ∀ text, n.method? r text = m'.method? r text) ∧
        ∀ x p n c, Lives x .running m p n → n.heap.object? x = some (.class_ c) →
          m.heap.object? x = some (.class_ c) ∧ ∀ text, n.method? x text = m.method? x text) ∧
    ∀ p m x line, Lineage settings journal sink p m x line →
      (∀ text, m.method? x text = (nearest line text).map .ofHandle) ∧
      ∀ i text, p = .running → m.next? = some i → m.LooksUp text x i →
        m.Looked text i (nearest line text) (Exec.step m) := by
  refine ⟨fun m k hm hi => ?_, fun p m x line hline => ?_⟩
  · obtain ⟨done, ps, hsits⟩ := hm.standing.2 rfl
    cases hsits with
    | intro works =>
      obtain ⟨rfl, name, parent, methods, atoms, hdeclares⟩ := works.declares hi
      refine ⟨_, name, parent, methods, atoms, hdeclares, fun steps m' hrun hcount => ?_,
        fun x p n c hlives hc => ((Settled.starts (.intro works)).lives hm hlives).2 c hc⟩
      obtain ⟨⟨ps', hsits'⟩, r, hdeclared⟩ := hdeclares.declared hm hrun hcount
      exact ⟨r, hdeclared, fun p n c hlives hc =>
        ((Settled.starts hsits').lives (hrun.reached hm) hlives).2 c hc⟩
  · obtain ⟨hreached, -, ⟨c, hc⟩, hmethods⟩ := hline.method?_eq
    refine ⟨hmethods, fun i text hp hi hlooks => ?_⟩
    subst hp
    exact hreached.inPhase.looked hi hlooks hc (hmethods text)

/-- A class is declared that defines a method twice. -/
theorem redefining_class_declared : ∃ (m m' : Machine) (B : Body) (name : String)
    (parent : Option String) (methods : List Function) (atoms : Atoms)
    (steps : List (Machine × Machine)) (r : Handle), m.Runs steps m' ∧ steps.length = atoms.length ∧
      m.Declares B name parent methods atoms ∧ m.Declared B parent methods atoms steps m' r := by
  have hruns : (create Settings.standard Journal.off Sink.unlimited).toOption.any (fun m =>
      let loaded := m.load "class A { def f() {} def f() {} } while (true) {}"
      decide (loaded.1.phase? = some .running) &&
        decide (loaded.2.next? = some (.class_ 0)) &&
        decide ((loaded.2.resume 18).1.phase? = some .running) &&
        loaded.2.frames.back?.any fun g => decide (g.chunk.code.size ≤ g.ip + 18)) = true := by
    decide +kernel
  obtain ⟨m, hcreated, hruns⟩ := exists_created hruns
  simp only [Bool.and_eq_true, decide_eq_true_eq, and_assoc] at hruns
  obtain ⟨hload, hnext, hlong, hsize⟩ := hruns
  have hreached : Reached Settings.standard Journal.off Sink.unlimited .running
      (m.load "class A { def f() {} def f() {} } while (true) {}").2 :=
    (Reached.created hcreated).loaded rfl hload
  generalize (m.load "class A { def f() {} def f() {} } while (true) {}").2 = loaded at *
  obtain ⟨hdeclares, -⟩ := sessions_declare_classes Settings.standard Journal.off Sink.unlimited
  obtain ⟨B, name, parent, methods, atoms, hstarts, hcompletes, -⟩ :=
    hdeclares loaded 0 hreached hnext
  obtain ⟨g, hback, hle⟩ := hstarts.length_le
  rw [hback, Option.any_some, decide_eq_true_eq] at hsize
  obtain ⟨steps, m', hrun, hcount⟩ := exists_runs (k := atoms.length) hlong (by omega)
  obtain ⟨r, hdeclared, -⟩ := hcompletes steps m' hrun hcount
  exact ⟨loaded, m', B, name, parent, methods, atoms, steps, r, hrun, hcount, hstarts, hdeclared⟩

end Machine

end ScriptMachine
