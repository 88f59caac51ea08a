import ScriptMachine.Proofs.Session.Classes

/-!
# What a class declaration comes to

A run that starts at the instruction that makes a class and takes as many steps as the declaration
has instructions completes the declaration. What the class has then under a name is the closure that
was made for the last of its methods of that name, or else what the superclass had when the class
inherited, or else nothing.
-/

namespace ScriptMachine

open Compile (Access)

/-- Only the first instruction of a class declaration makes a class. -/
theorem Body.ClassCode.eq_nil {B : Body} {n height : Nat} {name : String} {parent : Option String}
    {methods : List Function} {done left : Atoms} {c : UInt16} {ws : List UInt32}
    (h : B.ClassCode n name parent methods (done ++ ((Instr.class_ c).encode :: ws) :: left) height) :
    done = [] := by
  have hmethods {scope scope' : Scope} {fs : List Function} {atoms : Atoms}
      (h : B.Methods scope fs atoms scope') : ((Instr.class_ c).encode :: ws) ∉ atoms := by
    induction h with
    | nil => exact List.not_mem_nil
    | cons _ first _ _ ih =>
      obtain ⟨j, captures, rfl⟩ := first.exists_closure
      rw [List.mem_cons, List.mem_cons]
      rintro (heq | heq | hmem)
      · cases Instr.encode_injective (List.cons.inj heq).1
      · cases Instr.encode_injective (List.cons.inj heq).1
      · exact ih hmem
  generalize hatoms : done ++ ((Instr.class_ c).encode :: ws) :: left = atoms at h
  cases h with
  | @mk _ _ _ j a define inherit rest names inherits own codes =>
    cases done with
    | nil => rfl
    | cons first done =>
      have hmem : ((Instr.class_ c).encode :: ws) ∈
          Instr.atoms (define ++ inherit ++ [a.get]) ++ rest ++ Instr.atoms [.pop] := by
        have htail : done ++ ((Instr.class_ c).encode :: ws) :: left =
          Instr.atoms (define ++ inherit ++ [a.get]) ++ rest ++ Instr.atoms [.pop] :=
            (List.cons.inj hatoms).2
        rw [← htail]
        exact List.mem_append_right done List.mem_cons_self
      have hother {is : List Instr} (his : .class_ c ∉ is) :
          ((Instr.class_ c).encode :: ws) ∉ Instr.atoms is := by
        intro hmem
        obtain ⟨i, hi, heq⟩ := List.mem_map.mp hmem
        exact his (Instr.encode_injective (List.cons.inj heq).1 ▸ hi)
      rw [List.mem_append, List.mem_append] at hmem
      rcases hmem with (hmem | hmem) | hmem
      · refine absurd hmem (hother ?_)
        have hget (b : Access) : .class_ c ≠ b.get := by cases b <;> simp [Access.get]
        cases own <;> cases inherits <;> simp [hget]
      · exact absurd hmem (hmethods codes)
      · exact absurd hmem (hother (by simp))

namespace Machine

variable {settings : Settings} {journal : Journal} {sink : Sink} {m m' n : Machine} {g : Frame}
  {rest : List Frame} {p : Part} {ps : List Part} {h k : Nat} {done left atoms : Atoms}
  {r x y : Handle} {B : Body} {name text : String} {parent : Option String} {made : Option Handle}
  {methods : List Function} {steps : List (Machine × Machine)}

/-! ### Runs and their steps -/

/-- An idle step leaves the machine the same. -/
theorem Idles.same (h : m.Idles m') : m.Same m' := by
  cases h with
  | ticked | tookOutput => exact ⟨⟨rfl, rfl, rfl⟩, rfl, rfl, rfl, .refl _⟩
  | tookEvents => exact ⟨⟨rfl, rfl, rfl⟩, rfl, rfl, rfl, ⟨rfl, rfl, rfl, rfl, rfl⟩⟩

/-- A run with its steps, each as the machine before it and the one after it. -/
inductive Runs : Machine → List (Machine × Machine) → Machine → Prop
  | nil {m : Machine} : Runs m [] m
  | step {m n m' : Machine} {steps : List (Machine × Machine)}
      (done : Exec.step m = .ok .running n) (rest : Runs n steps m') : Runs m ((m, n) :: steps) m'
  | idle {m n m' : Machine} {steps : List (Machine × Machine)} (idles : m.Idles n)
      (rest : Runs n steps m') : Runs m steps m'

/-- A run from a reached machine reaches another. -/
theorem Runs.reached (h : m.Runs steps m') (hm : Reached settings journal sink .running m) :
    Reached settings journal sink .running m' := by
  induction h with
  | nil => exact hm
  | step done _ ih => exact ih (hm.follows (.stepped done))
  | idle idles _ ih => exact ih (idles.reached hm)

/-- A run that can be carried on for `N` instructions has one with any fewer steps. -/
theorem exists_runs {k N : Nat} (h : (m.resume N).1.phase? = some .running) (hk : k ≤ N) :
    ∃ steps m', m.Runs steps m' ∧ steps.length = k := by
  induction k generalizing m N with
  | zero => exact ⟨[], m, .nil, rfl⟩
  | succ k ih =>
    obtain ⟨N, rfl⟩ : ∃ N', N = N' + 1 := ⟨N - 1, by omega⟩
    rw [resume, Exec.run] at h
    cases hstep : Exec.step m with
    | ok progress n =>
      rw [Exec.bind_eq hstep] at h
      cases progress with
      | finished => cases h
      | running =>
        obtain ⟨steps, m', hruns, hlength⟩ := ih (m := n) (N := N) h (by omega)
        exact ⟨(m, n) :: steps, m', .step hstep hruns, by rw [List.length_cons, hlength]⟩
    | error halt n =>
      rw [Exec.bind_error hstep] at h
      cases halt with
      | fault f => cases h
      | error e =>
        simp only [settle] at h
        split at h <;> cases h

/-- The class that the first step at the instruction for it makes. -/
def classMade (steps : List (Machine × Machine)) : Option Handle :=
  steps.findSome? fun s => match s.1.next? with
    | some (.class_ _) => s.2.stack.back?.bind Value.toHandle?
    | _ => none

/-- The closures that the steps make, each with the machine right after its step. -/
def closuresMade (steps : List (Machine × Machine)) : List (Machine × Handle) :=
  steps.filterMap fun s => match s.1.next? with
    | some (.closure _) => (s.2.stack.back?.bind Value.toHandle?).map fun y => (s.2, y)
    | _ => none

/-- The superclasses that steps inherit from, each with the machine right before its step. -/
def superclasses (steps : List (Machine × Machine)) : List (Machine × Handle) :=
  steps.filterMap fun s => match s.1.next? with
    | some .inherit => s.1.superclass?.map fun x => (s.1, x)
    | _ => none

/-- What the superclass has under a name when a step inherits from it. -/
def inherited (steps : List (Machine × Machine)) (text : String) : Option Value :=
  (superclasses steps).findSome? fun s => s.1.method? s.2 text

/-- The closure for the last of some functions that has a name. -/
def lastNamed (functions : List Function) (closures : List Handle) (text : String) :
    Option Handle :=
  ((functions.map Function.name).zip closures).reverse.lookup text

/-! ### Between steps -/

/-- The function stays in the midst of its stretch. -/
theorem Midst.same (h : m.Midst g rest p ps k done left) (hm' : m'.Ready) (hs : m.Same m') :
    m'.Midst g rest p ps k done left :=
  ⟨h.works.alike hm' hs.heap hs.initName hs.frames hs.stack, h.split⟩

/-- The declaration stays at its stage. -/
theorem Stage.same (h : m.Stage g B k name r parent made methods left) (hs : m.Same m') :
    m'.Stage g B k name r parent made methods left := by
  have hreads {S : Array Value} {b : Access} (hb : m.Reads g S b (.ofHandle r)) :
      m'.Reads g S b (.ofHandle r) :=
    hb.carry hs.globals (fun x s hx => (hs.heap.object? x).trans hx) rfl rfl
  cases h with
  | made own inherits codes proper stack =>
    exact .made own inherits codes proper (hs.stack.trans stack)
  | kept own inherits codes proper reads =>
    exact .kept own inherits codes proper fun b hb => hs.stack ▸ hreads (reads b hb)
  | beside own again codes proper stack reads =>
    exact .beside own again codes proper (hs.stack.trans stack) fun b hb => hreads (reads b hb)
  | above own codes proper stack reads =>
    exact .above own codes proper (hs.stack.trans stack) fun b hb => hreads (reads b hb)
  | adding codes proper stack => exact .adding codes proper (hs.stack.trans stack)
  | closed names codes proper stack => exact .closed names codes proper (hs.stack.trans stack)

/-- A class is declared as far in a machine that is the same. -/
theorem Declaring.same (h : m.Declaring g rest p ps k name r parent made methods done left)
    (hm' : m'.Ready) (hs : m.Same m') :
    m'.Declaring g rest p ps k name r parent made methods done left where
  midst := h.midst.same hm' hs
  stage := h.stage.same hs
  object := h.object.imp fun _ hc => (hs.heap.object? r).trans hc

/-- What a declaration has reached it has reached in a machine that is the same. -/
theorem Reaches.same (h : m.Reaches g rest p ps k name r parent made methods done left)
    (hm' : m'.Ready) (hs : m.Same m') :
    m'.Reaches g rest p ps k name r parent made methods done left := by
  cases h with
  | midst declaring => exact .midst (declaring.same hm' hs)
  | behind works object =>
    exact .behind (works.alike hm' hs.heap hs.initName hs.frames hs.stack)
      (object.imp fun _ hc => (hs.heap.object? r).trans hc)

/-! ### The rest of a declaration -/

/-- Another instruction makes no closure. -/
theorem closuresMade_cons_of_ne (hi : ∀ c, m.next? ≠ some (.closure c)) :
    closuresMade ((m, n) :: steps) = closuresMade steps := by
  rw [closuresMade, List.filterMap_cons_none]
  · rfl
  · dsimp only
    split
    · next heq => exact absurd heq (hi _)
    · rfl

/-- A closure is made where its instruction is carried out. -/
theorem closuresMade_closure {c : UInt16} (hi : m.next? = some (.closure c))
    (htop : n.stack.back? = some (.ofHandle y)) :
    closuresMade ((m, n) :: steps) = (n, y) :: closuresMade steps := by
  rw [closuresMade, List.filterMap_cons_some]
  · rfl
  · simp [hi, htop]

/-- Another instruction names no superclass. -/
theorem superclasses_cons_of_ne (hi : m.next? ≠ some .inherit) :
    superclasses ((m, n) :: steps) = superclasses steps := by
  rw [superclasses, List.filterMap_cons_none]
  · rfl
  · dsimp only
    split
    · next heq => exact absurd heq hi
    · rfl

/-- A superclass is named where its methods are inherited. -/
theorem superclasses_inherit (hi : m.next? = some .inherit) (hsuper : m.superclass? = some x) :
    superclasses ((m, n) :: steps) = (m, x) :: superclasses steps := by
  rw [superclasses, List.filterMap_cons_some]
  · rfl
  · simp [hi, hsuper]

/-- What the rest of the declaration of the class `r` comes to, with the methods that are not added
yet, among which the closure of the first one may be made already. -/
structure Completes (m : Machine) (g : Frame) (rest : List Frame) (p : Part) (ps : List Part)
    (r : Handle) (parent : Option String) (made : Option Handle) (methods : List Function)
    (left : Atoms) (steps : List (Machine × Machine)) (m' : Machine) : Prop where
  behind : ∃ k, m'.Works { g with ip := g.ip + left.flatten.length } rest p ps k []
  object : ∃ c, m'.heap.object? r = some (.class_ c)
  closures : List.Forall₂ (fun f c => c.1.IsClosureOf p.body f c.2)
    (methods.drop made.toList.length) (closuresMade steps)
  supers : (superclasses steps).length = parent.toList.length
  found : ∀ text, m'.method? r text =
    (((lastNamed methods (made.toList ++ (closuresMade steps).map Prod.snd) text).map .ofHandle).or
      (inherited steps text)).or (m.method? r text)

/-- Nothing is made between steps. -/
theorem Completes.idle (h : n.Completes g rest p ps r parent made methods left steps m')
    (hs : m.Same n) : m.Completes g rest p ps r parent made methods left steps m' :=
  { h with found := fun text => (h.found text).trans (by rw [method?_of_alike hs.heap]) }

/-- There are instructions ahead in every stage. -/
theorem Stage.ne_nil (h : m.Stage g B k name r parent made methods left) : left ≠ [] := by
  cases h <;> simp [Instr.atoms]

/-- The closure for the last function of a name is the one for the first only if no other function
has the name. -/
theorem lastNamed_cons (f : Function) (fs : List Function) (y : Handle) (ys : List Handle) :
    lastNamed (f :: fs) (y :: ys) text =
      (lastNamed fs ys text).or (if text = f.name then some y else none) := by
  rw [lastNamed, lastNamed, List.map_cons, List.zip_cons_cons, List.reverse_cons, List.lookup_append]
  congr 1
  rw [List.lookup_cons, List.lookup_nil]
  split
  · next htext => rw [if_pos (beq_iff_eq.mp htext)]
  · next htext => rw [if_neg (beq_eq_false_iff_ne.mp htext)]

/-- A step at an atom of the declaration comes before what the rest of it comes to. -/
theorem Completes.step {atom : List UInt32} {parent' : Option String} {made' : Option Handle}
    {methods' : List Function}
    (h : n.Completes { g with ip := g.ip + atom.length } rest p ps r parent' made' methods' left
      steps m')
    (hp : m.Builds n p.body r parent made methods parent' made' methods') :
    m.Completes g rest p ps r parent made methods (atom :: left) ((m, n) :: steps) m' := by
  obtain ⟨⟨k, works⟩, object, closures, supers, found⟩ := h
  have behind : ∃ k, m'.Works { g with ip := g.ip + (atom :: left).flatten.length } rest p ps k [] := by
    refine ⟨k, ?_⟩
    rw [List.flatten_cons, List.length_append, ← Nat.add_assoc]
    exact works
  have hnone (text : String) (hsupers : (superclasses steps).length = 0) :
      inherited steps text = none := by
    rw [inherited, List.eq_nil_of_length_eq_zero hsupers]
    rfl
  cases hp with
  | goesOn next noInherit noClosure same =>
    have hclosures : closuresMade ((m, n) :: steps) = closuresMade steps :=
      closuresMade_cons_of_ne fun c hc => noClosure c (Option.some.inj (next.symm.trans hc))
    have hsupers : superclasses ((m, n) :: steps) = superclasses steps :=
      superclasses_cons_of_ne fun hc => noInherit (Option.some.inj (next.symm.trans hc))
    refine ⟨behind, object, by rwa [hclosures], by rwa [hsupers], fun text => ?_⟩
    rw [found, hclosures, inherited, inherited, hsupers, same]
  | inherited next superclass own =>
    have hclosures : closuresMade ((m, n) :: steps) = closuresMade steps :=
      closuresMade_cons_of_ne (by simp [next])
    have hsupers : superclasses ((m, n) :: steps) = (m, _) :: superclasses steps :=
      superclasses_inherit next superclass
    refine ⟨behind, object, by rwa [hclosures], ?_, fun text => ?_⟩
    · rw [hsupers, List.length_cons, supers]
      rfl
    · rw [found, hclosures, hnone text supers, inherited, hsupers,
        List.eq_nil_of_length_eq_zero supers, List.findSome?_singleton, own, Option.or_none,
        Option.or_assoc]
  | closed next top closure same =>
    have hclosures : closuresMade ((m, n) :: steps) = (n, _) :: closuresMade steps :=
      closuresMade_closure next top
    have hsupers : superclasses ((m, n) :: steps) = superclasses steps :=
      superclasses_cons_of_ne (by simp [next])
    refine ⟨behind, object, ?_, by rwa [hsupers], fun text => ?_⟩
    · rw [hclosures]
      exact .cons closure closures
    · rw [found, hclosures, inherited, inherited, hsupers, same]
      rfl
  | @added _ f _ y next own =>
    have hclosures : closuresMade ((m, n) :: steps) = closuresMade steps :=
      closuresMade_cons_of_ne (by simp [next])
    have hsupers : superclasses ((m, n) :: steps) = superclasses steps :=
      superclasses_cons_of_ne (by simp [next])
    refine ⟨behind, object, by rwa [hclosures], by rwa [hsupers], fun text => ?_⟩
    have hinherited : inherited ((m, n) :: steps) text = none := by
      rw [← hnone text supers, inherited, inherited, hsupers]
    rw [found, hnone text supers, hclosures, hinherited, own, Option.or_none, Option.or_none]
    simp only [Option.toList_none, List.nil_append, Option.toList_some, List.singleton_append,
      lastNamed_cons]
    cases lastNamed methods' ((closuresMade steps).map Prod.snd) text with
    | some z => rfl
    | none => by_cases htext : text = f.name <;> simp [htext]

/-- A run with as many steps as there are atoms left completes the declaration. -/
theorem Reaches.completes (h : m.Reaches g rest p ps k name r parent made methods done left)
    (hm : Reached settings journal sink .running m) (hrun : m.Runs steps m')
    (hcount : steps.length = left.length) :
    m.Completes g rest p ps r parent made methods left steps m' := by
  induction hrun generalizing g parent made methods done left with
  | nil =>
    cases h with
    | midst declaring =>
      exact absurd (List.eq_nil_of_length_eq_zero hcount.symm) declaring.stage.ne_nil
    | behind works object => exact ⟨⟨_, works⟩, object, .nil, rfl, fun _ => rfl⟩
  | @step m n m' steps hstep _ ih =>
    cases h with
    | behind => cases hcount
    | midst declaring =>
      have hn := hm.follows (.stepped hstep)
      obtain ⟨atom, left, rfl, honward⟩ :=
        declaring.step hm.inPhase hn.inPhase hm.standing.1 hstep
      cases honward with
      | intro builds reaches =>
        exact (ih reaches hn (Nat.succ.inj hcount)).step builds
  | idle idles _ ih =>
    have hn := idles.reached hm
    exact (ih (h.same hn.inPhase idles.same) hn hcount).idle idles.same

/-! ### The start of a declaration -/

/-- The innermost function is at the start of the code of a class declaration, which is a part of the
body `B` and has these atoms. -/
inductive Declares (m : Machine) (B : Body) (name : String) (parent : Option String)
    (methods : List Function) (atoms : Atoms) : Prop
  | intro {g : Frame} {rest : List Frame} {p : Part} {ps : List Part} {n height : Nat}
      (midst : m.Midst g rest p ps n [] atoms) (body : p.body = B)
      (code : B.ClassCode n name parent methods atoms height)
      (proper : ProperNames (Function.listTokens methods)) :
      Declares m B name parent methods atoms

/-- The innermost function is in the midst of a stretch, at the atom that starts with the
instruction that the machine is at. -/
theorem Works.stretch {i : Instr} (hw : m.Works g rest p ps k done) (hi : m.next? = some i) :
    ∃ n ws left o, k = Atoms.climb n done ∧
      m.Midst g rest p ps n done ((i.encode :: ws) :: left) ∧
      p.body.Stretch o n (p.row.Mark 0) (done ++ (i.encode :: ws) :: left) := by
  obtain ⟨n, ws, left, rfl, hat⟩ := hw.position hi
  obtain ⟨f, hosts, -⟩ := hw.plays
  obtain ⟨before, after, split, offset⟩ := hat.split
  have hlaid := hosts.laid
  rw [split, Row.laid_append, ← split] at hlaid
  exact ⟨n, ws, left, _, rfl, ⟨hw, before, after, split, offset⟩, hlaid.2.1⟩

/-- There are no more instructions than words. -/
theorem length_le_flatten {atoms : Atoms} (h : ∀ atom ∈ atoms, 0 < atom.length) :
    atoms.length ≤ atoms.flatten.length := by
  induction atoms with
  | nil => exact Nat.le_refl 0
  | cons atom atoms ih =>
    obtain ⟨hfirst, hrest⟩ := List.forall_mem_cons.mp h
    have hle := ih hrest
    rw [List.flatten_cons, List.length_append, List.length_cons]
    omega

/-- A declaration has no more instructions than there are words left in the code of its function. -/
theorem Declares.length_le (h : m.Declares B name parent methods atoms) :
    ∃ g, m.frames.back? = some g ∧ g.ip + atoms.length ≤ g.chunk.code.size := by
  cases h with
  | @intro g rest p ps n height midst body code proper =>
    obtain ⟨f, hosts, hchunk⟩ := midst.works.plays
    obtain ⟨before, after, split, offset⟩ := midst.split
    have hwords := congrArg List.length hosts.words
    rw [split, Row.words_append, Row.words_cons, List.length_append, List.length_append,
      List.nil_append, ← hchunk] at hwords
    have hnonempty (atom : List UInt32) (hatom : atom ∈ atoms) : 0 < atom.length := by
      obtain ⟨done, left, rfl⟩ := List.append_of_mem hatom
      cases code.allInner proper done atom left rfl with
      | closure codes =>
        obtain ⟨j, captures, rfl⟩ := codes.exists_closure
        exact Nat.zero_lt_succ _
      | instr | method => exact Nat.one_pos
    refine ⟨g, midst.works.back, ?_⟩
    have hatoms := length_le_flatten hnonempty
    rw [List.flatten_nil, List.length_nil] at offset
    rw [← Array.length_toList]
    omega

/-- Where a class is to be made, a declaration starts. -/
theorem Works.declares {c : UInt16} (hw : m.Works g rest p ps k done)
    (hi : m.next? = some (.class_ c)) :
    done = [] ∧ ∃ name parent methods atoms, m.Declares p.body name parent methods atoms := by
  obtain ⟨n, ws, left, o, rfl, hmidst, hstretch⟩ := hw.stretch hi
  generalize hatoms : done ++ ((Instr.class_ c).encode :: ws) :: left = atoms at hstretch
  cases hstretch with
  | instr permits =>
    obtain ⟨-, heq, -⟩ := append_cons_eq_singleton hatoms.symm
    obtain rfl := Instr.encode_injective (List.cons.inj heq).1
    cases permits
  | closure codes =>
    obtain ⟨-, rfl, -⟩ := append_cons_eq_singleton hatoms.symm
    obtain ⟨j, captures, heq⟩ := codes.exists_closure
    cases Instr.encode_injective (List.cons.inj heq).1
  | answer =>
    have hmem : (Instr.class_ c).encode :: ws ∈ Instr.atoms [.getLocal 0, .return_] :=
      hatoms ▸ List.mem_append_right done List.mem_cons_self
    obtain ⟨i, hi, heq⟩ := List.mem_map.mp hmem
    obtain rfl := Instr.encode_injective (List.cons.inj heq).1
    simp at hi
  | @class_ name parent methods _ _ code proper =>
    obtain rfl := (hatoms ▸ code).eq_nil
    subst hatoms
    exact ⟨rfl, name, parent, methods, _, .intro hmidst rfl code proper⟩

/-- The first step of a declaration makes the class, which has nothing yet. -/
theorem Midst.begins {height : Nat} (h : m.Midst g rest p ps k [] atoms)
    (code : p.body.ClassCode k name parent methods atoms height)
    (proper : ProperNames (Function.listTokens methods)) (hm : m.Ready) (hm' : m'.Ready)
    (hs : m.Sourced) (hstep : Exec.step m = .ok .running m') : ∃ c left r,
      atoms = [(Instr.class_ c).encode] :: left ∧ m.next? = some (.class_ c) ∧ m.Classed m' r ∧
        (∀ text, m'.method? r text = none) ∧
        m'.Declaring { g with ip := g.ip + 1 } rest p ps k name r parent none methods
          [[(Instr.class_ c).encode]] left := by
  cases code with
  | @mk scope scope₁ scope₂ c a define inherit atoms names inherits own codes =>
    have hi : m.next? = some (.class_ c) := h.next?
    obtain ⟨r, hclassed⟩ : ∃ r, m.Classed m' r := by
      obtain ⟨W, O, hshows, hpoised⟩ := hm
      cases hpoised with
      | intro outer base lands => exact hshows.classed lands hi hstep
    obtain ⟨heap, -, hdone, -, hmidst⟩ := h.straight hm hm' hs rfl rfl hstep
    obtain ⟨d, hobject⟩ := hclassed.object
    have hstack : m'.stack = m.stack.push (.ofHandle r) := by
      obtain ⟨f, h', -, rfl⟩ := hclassed.rest
      rfl
    have hleft : Instr.atoms (define ++ inherit ++ [a.get]) ++ atoms ++ Instr.atoms [.pop] ≠ [] := by
      simp [Instr.atoms]
    refine ⟨c, _, r, rfl, hi, hclassed, fun text => ?_, hmidst hleft, ?_, _, hobject⟩
    · rw [method?, hobject]
      rfl
    · cases own with
      | @local_ slot top =>
        refine .kept (.local_ top) inherits codes proper fun b hb => ?_
        cases hb with
        | @local_ slot' top' =>
          have hheight := h.works.height
          rw [Atoms.climb_nil] at hheight
          show m'.stack[g.base + slot'.toNat]? = _
          rw [hstack, top', ← hheight, Array.getElem?_push_size]
      | global names names' => exact .made (.global names names') inherits codes proper hstack

/-- What a run from the start of a declaration, with as many steps as the declaration has
instructions, comes to: a new class `r`, with the closures of its own methods under their names and
under other names what its superclass had when it inherited. -/
structure Declared (m : Machine) (B : Body) (parent : Option String) (methods : List Function)
    (atoms : Atoms) (steps : List (Machine × Machine)) (m' : Machine) (r : Handle) : Prop where
  made : classMade steps = some r
  fresh : ∀ x, m.Keeps x → x ≠ r
  object : ∃ c, m'.heap.object? r = some (.class_ c)
  behind : ∃ g, m.frames.back? = some g ∧
    m'.frames = m.frames.pop.push { g with ip := g.ip + atoms.flatten.length }
  closures : List.Forall₂ (fun f c => c.1.IsClosureOf B f c.2) methods (closuresMade steps)
  supers : (superclasses steps).length = parent.toList.length
  found : ∀ text, m'.method? r text =
    ((lastNamed methods ((closuresMade steps).map Prod.snd) text).map .ofHandle).or
      (inherited steps text)

/-- What is kept alive is so between steps. -/
theorem Same.keeps (h : m.Same m') : m'.Keeps x ↔ m.Keeps x := by
  have hroots : m'.roots = m.roots := by
    rw [roots, roots, h.stack, h.frames, h.openUpvalues, h.globals, h.initName]
  rw [Keeps, Keeps, hroots]
  exact Heap.reachable_congr fun y _ => h.heap.object? y

/-- A run with as many steps as a declaration has instructions completes it. -/
theorem Declares.declared (h : m.Declares B name parent methods atoms)
    (hm : Reached settings journal sink .running m) (hrun : m.Runs steps m')
    (hcount : steps.length = atoms.length) :
    (∃ ps, m'.Sits [] ps) ∧ ∃ r, m.Declared B parent methods atoms steps m' r := by
  induction hrun with
  | nil =>
    cases h with
    | intro _ _ code =>
      cases code
      simp [Instr.atoms] at hcount
  | @step m n m' steps hstep hrest _ =>
    have hn := hm.follows (.stepped hstep)
    cases h with
    | @intro g rest p ps k height midst body code proper =>
      subst body
      obtain ⟨c, left, r, rfl, hi, hclassed, hnew, hdeclaring⟩ :=
        midst.begins code proper hm.inPhase hn.inPhase hm.standing.1 hstep
      obtain ⟨⟨k', works⟩, object, closures, supers, found⟩ :=
        (Reaches.midst hdeclaring).completes hn hrest (Nat.succ.inj hcount)
      have hclosures : closuresMade ((m, n) :: steps) = closuresMade steps :=
        closuresMade_cons_of_ne (by simp [hi])
      have hsupers : superclasses ((m, n) :: steps) = superclasses steps :=
        superclasses_cons_of_ne (by simp [hi])
      have hstack : n.stack.back? = some (.ofHandle r) := by
        obtain ⟨f, h', -, rfl⟩ := hclassed.rest
        exact Array.back?_push
      refine ⟨⟨_, .intro works⟩, r, ?_, hclassed.fresh, object, ⟨g, midst.works.back, ?_⟩,
        hclosures ▸ closures, hsupers ▸ supers, fun text => ?_⟩
      · rw [classMade, List.findSome?_cons]
        simp [hi, hstack]
      · refine Array.toList_inj.mp (List.reverse_inj.mp ?_)
        rw [works.frames, midst.works.replaced]
        simp [Nat.add_assoc, Nat.add_comm 1]
      · rw [found, hnew, Option.or_none, hclosures, inherited, inherited, hsupers]
        rfl
  | idle idles _ ih =>
    have hn := idles.reached hm
    have hsame := idles.same
    cases h with
    | intro midst body code proper =>
      obtain ⟨hsits, r, hdeclared⟩ :=
        ih (.intro (midst.same hn.inPhase hsame) body code proper) hn hcount
      exact ⟨hsits, r, { hdeclared with
        fresh := fun x hx => hdeclared.fresh x (hsame.keeps.mpr hx)
        behind := by rw [← hsame.frames]; exact hdeclared.behind }⟩

end Machine

end ScriptMachine
