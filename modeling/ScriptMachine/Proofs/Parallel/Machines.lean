import ScriptMachine.Proofs.Machine.Does
import ScriptMachine.Proofs.Parallel.Reading

/-!
# Corresponding machines

Two machines correspond under a pairing if their heaps do and everything they hold does entry by
entry: the stack, the frames, the open upvalues and the globals. What a machine keeps alive is then
paired with what the other one keeps alive, so either heap may be collected, or grow, by itself.
-/

namespace ScriptMachine

/-- A frame runs the code of its closure's function. -/
def Heap.Runs (h : Heap) (f : Frame) : Prop :=
  ∃ c g, h.object? f.closure = some (.closure c) ∧ h.object? c.function = some (.function g) ∧
    g.chunk = f.chunk

/-- The frame of a script, which is the lowest one. -/
structure ScriptRun.Plays (s : ScriptRun) (f : Frame) : Prop where
  closure : f.closure = s.closure
  chunk : f.chunk = s.chunk
  base : f.base = 0

/-- Below all frames is the one of a script, and what the script leads to is there. -/
structure ScriptRun.Starts (s : ScriptRun) (h : Heap) (frames : Array Frame) : Prop where
  lowest : ∃ f, frames[0]? = some f ∧ s.Plays f
  covers : h.Covers [s.closure]

namespace Machine

variable {m : Machine} {f : Frame} {v : Value} {x : Handle} {h : Heap}

/-- Values on the stack are kept alive. -/
theorem keeps_stack (hv : v ∈ m.stack) (hx : v.toHandle? = some x) : m.Keeps x :=
  .root (mem_roots.mpr (.inl ⟨v, hv, hx⟩))

/-- The closures of the frames are kept alive. -/
theorem keeps_frame (hf : f ∈ m.frames) : m.Keeps f.closure :=
  .root (mem_roots.mpr (.inr (.inl ⟨f, hf, rfl⟩)))

/-- Open upvalues are kept alive. -/
theorem keeps_upvalue (hx : x ∈ m.openUpvalues) : m.Keeps x :=
  .root (mem_roots.mpr (.inr (.inr (.inl hx))))

/-- What is stored in a global variable is kept alive. -/
theorem keeps_global (hx : m.globals.Stores x) : m.Keeps x :=
  .root (mem_roots.mpr (.inr (.inr (.inr (.inl hx)))))

/-- The name of initializers is kept alive. -/
theorem keeps_initName (m : Machine) : m.Keeps m.initName :=
  .root (mem_roots.mpr (.inr (.inr (.inr (.inr rfl)))))

/-- A frame keeps the constants of its code alive. -/
theorem keeps_constant (hf : f ∈ m.frames) (hruns : m.heap.Runs f) (hv : v ∈ f.chunk.constants)
    (hx : v.toHandle? = some x) : m.Keeps x := by
  obtain ⟨c, a, hc, ha, hcode⟩ := hruns
  rw [← hcode] at hv
  exact ((keeps_frame hf).step hc .closureFunction).step ha (.functionConstant hv hx)

/-- A frame whose closure is kept runs the same code. -/
theorem runs_carry (hf : m.heap.Runs f) (hmem : f ∈ m.frames)
    (hkept : ∀ x, m.Keeps x → h.object? x = m.heap.object? x) : h.Runs f := by
  obtain ⟨c, g, hc, hg, hcode⟩ := hf
  have hroot := keeps_frame hmem
  exact ⟨c, g, (hkept _ hroot).trans hc, (hkept _ (hroot.step hc .closureFunction)).trans hg, hcode⟩

/-- Frames that go to another place run the same code. -/
theorem runs_modify {i ip : Nat} (hr : ∀ f ∈ m.frames, m.heap.Runs f) (f : Frame)
    (hf : f ∈ m.frames.modify i ({ · with ip := ip })) : m.heap.Runs f := by
  obtain ⟨j, hj⟩ := Array.mem_iff_getElem?.mp hf
  rw [Array.getElem?_modify] at hj
  split at hj
  · obtain ⟨g, hg, rfl⟩ := Option.map_eq_some_iff.mp hj
    exact hr g (Array.mem_of_getElem? hg)
  · exact hr f (Array.mem_of_getElem? hj)

end Machine

namespace ScriptRun.Starts

variable {s : ScriptRun} {m : Machine} {h : Heap} {frames : Array Frame} {f : Frame}

/-- What a script leads to is kept. -/
theorem carry (hs : s.Starts m.heap m.frames)
    (hkept : ∀ x, m.Keeps x → h.object? x = m.heap.object? x) : s.Starts h m.frames := by
  obtain ⟨⟨f, hf, hplays⟩, hcovers⟩ := hs
  refine ⟨⟨f, hf, hplays⟩, hcovers.congr fun x hx => hkept x (hx.mono fun z hz => ?_)⟩
  obtain rfl := List.mem_singleton.mp hz
  exact Machine.mem_roots.mpr (.inr (.inl ⟨f, Array.mem_of_getElem? hf, hplays.closure⟩))

/-- What a script leads to stays there if what an object is replaced by leads to what is there. -/
theorem replace {r : Handle} {o a : Object} (hs : s.Starts h frames) (hr : h.object? r = some o)
    (ha : ∀ x, a.Stores x → h.Covers [x]) : s.Starts (h.replace r a) frames := by
  refine ⟨hs.lowest, fun x hx => ?_⟩
  have hobject (x : Handle) := Heap.object?_replace (x := x) a hr
  suffices hcovers : h.Covers [x] by
    obtain ⟨o', ho'⟩ := Heap.isLive_iff.mp (hcovers x (.root List.mem_cons_self))
    refine Heap.isLive_iff.mpr ⟨if x = r then a else o', ?_⟩
    rw [hobject]
    split
    · rfl
    · exact ho'
  induction hx with
  | root mem => exact List.mem_singleton.mp mem ▸ hs.covers
  | @step z x o' _ object stores ih =>
    rw [hobject] at object
    split at object
    · obtain rfl := Option.some.inj object
      exact ha x stores
    · have hreached {w : Handle} (hw : h.Reachable [x] w) : h.Reachable [z] w := by
        induction hw with
        | root mem =>
          obtain rfl := List.mem_singleton.mp mem
          exact (Heap.Reachable.root List.mem_cons_self).step object stores
        | step _ object stores ih => exact ih.step object stores
      exact fun w hw => ih w (hreached hw)

/-- A frame that goes on stays the one it starts from. -/
theorem modify {i ip : Nat} (hs : s.Starts h frames) :
    s.Starts h (frames.modify i ({ · with ip := ip })) := by
  obtain ⟨⟨f, hf, hplays⟩, hcovers⟩ := hs
  refine ⟨?_, hcovers⟩
  rw [Array.getElem?_modify, hf]
  split
  · exact ⟨_, rfl, hplays.closure, hplays.chunk, hplays.base⟩
  · exact ⟨f, rfl, hplays⟩

/-- One more frame leaves the first. -/
theorem push (hs : s.Starts h frames) : s.Starts h (frames.push f) := by
  obtain ⟨⟨g, hg, hplays⟩, hcovers⟩ := hs
  obtain ⟨hlt, -⟩ := Array.getElem?_eq_some_iff.mp hg
  refine ⟨⟨g, ?_, hplays⟩, hcovers⟩
  rw [Array.getElem?_push, if_neg (Nat.ne_of_lt hlt)]
  exact hg

/-- One frame less leaves the first, if it is not it. -/
theorem pop (hs : s.Starts h frames) (hpos : 0 < frames.size - 1) : s.Starts h frames.pop := by
  obtain ⟨⟨g, hg, hplays⟩, hcovers⟩ := hs
  refine ⟨⟨g, ?_, hplays⟩, hcovers⟩
  rw [Array.getElem?_pop, if_pos hpos]
  exact hg

end ScriptRun.Starts

namespace Pairing

variable {p q : Pairing} {m n m' n' : Machine} {h₁ h₁' : Heap} {x y : Handle} {v w : Value}
  {e : Passage} {f g : Frame} {i : Nat}

/-- The constants of a passage that stand for each other correspond. -/
def Linked (p : Pairing) (e : Passage) : Prop :=
  ∀ k l, e.links k l →
    Option.Rel p.Values e.left.chunk.constants[k.toNat]? e.right.chunk.constants[l.toNat]?

/-- The constants that the innermost functions have under the indices `k` and `l` correspond. -/
def Constants (p : Pairing) (m n : Machine) (k l : UInt16) : Prop :=
  ∀ f g, m.frames.back? = some f → n.frames.back? = some g →
    Option.Rel p.Values f.chunk.constants[k.toNat]? g.chunk.constants[l.toNat]?

/-- Slots of the stack correspond if their values do. Below all frames, each side may have the
closure of its own script. -/
inductive Slots (p : Pairing) (i : Nat) (v w : Value) : Prop
  | values (values : p.Values v w)
  | scripts {e : Passage} (passage : p.terms.passage = some e) (lowest : i = 0)
    (left : v = .ofHandle e.left.closure) (right : w = .ofHandle e.right.closure)

/-- Frames correspond if their closures are paired and they are at the same place of the code. The
lowest ones may be those of different scripts, at the same place of the passage. -/
inductive Frames (p : Pairing) (i : Nat) (f g : Frame) : Prop
  | paired (closure : p.Pairs f.closure g.closure) (ip : f.ip = g.ip) (base : f.base = g.base)
    (above : p.terms.Above f.base)
  | scripts {e : Passage} (passage : p.terms.passage = some e) (lowest : i = 0)
    (left : e.left.Plays f) (right : e.right.Plays g)
    (place : f.ip + e.right.start = g.ip + e.left.start) (linked : p.Linked e)

/-- Machines correspond if they differ in handles only, and in what no script sees: the account,
the pacing and the journal of the heap, the objects that nothing leads to, and the scripts around
the passage that both run. -/
structure Machines (p : Pairing) (m n : Machine) : Prop where
  heaps : p.Heaps m.heap n.heap
  globals : p.Tables m.globals n.globals
  stack : Alongside p.Slots m.stack n.stack
  frames : Alongside p.Frames m.frames n.frames
  runs : ∀ f ∈ m.frames, m.heap.Runs f
  runs' : ∀ f ∈ n.frames, n.heap.Runs f
  starts : ∀ e, p.terms.passage = some e → e.left.Starts m.heap m.frames
  starts' : ∀ e, p.terms.passage = some e → e.right.Starts n.heap n.frames
  openUpvalues : List.Forall₂ p.Pairs m.openUpvalues n.openUpvalues
  initName : p.Pairs m.initName n.initName
  framesMax : m.framesMax = n.framesMax
  sink : m.sink = n.sink
  clock : m.clock = n.clock

/-! ### The other way round -/

/-- The passage compared is the other way from the other side. -/
theorem passage_symm : p.symm.terms.passage = some e ↔ p.terms.passage = some e.symm := by
  show p.terms.passage.map Passage.symm = some e ↔ _
  rw [Option.map_eq_some_iff]
  exact ⟨fun ⟨a, ha, heq⟩ => heq ▸ ha, fun ha => ⟨_, ha, rfl⟩⟩

/-- Linked sides are linked from the other side. -/
theorem Linked.symm (h : p.Linked e) : p.symm.Linked e.symm := by
  intro k l hkl
  have hrel := h l k hkl
  show Option.Rel p.symm.Values e.right.chunk.constants[k.toNat]? e.left.chunk.constants[l.toNat]?
  generalize e.left.chunk.constants[l.toNat]? = a at hrel ⊢
  generalize e.right.chunk.constants[k.toNat]? = b at hrel ⊢
  cases hrel with
  | none => exact .none
  | some hvw => exact .some hvw.symm

/-- Paired slots are paired from the other side. -/
theorem Slots.symm (h : p.Slots i v w) : p.symm.Slots i w v := by
  cases h with
  | values values => exact .values values.symm
  | @scripts e passage lowest left right =>
    exact .scripts (e := e.symm) (passage_symm.mpr passage) lowest right left

/-- Paired frames are paired from the other side. -/
theorem Frames.symm (h : p.Frames i f g) : p.symm.Frames i g f := by
  cases h with
  | paired closure ip base above => exact .paired closure ip.symm base.symm (base ▸ above).symm
  | @scripts e passage lowest left right place linked =>
    exact .scripts (e := e.symm) (passage_symm.mpr passage) lowest right left place.symm linked.symm

/-- Corresponding machines correspond from the other side. -/
theorem Machines.symm (hm : p.Machines m n) : p.symm.Machines n m where
  heaps := hm.heaps.symm
  globals := hm.globals.symm
  stack := hm.stack.flip.imp fun _ _ _ _ _ => Slots.symm
  frames := hm.frames.flip.imp fun _ _ _ _ _ => Frames.symm
  runs := hm.runs'
  runs' := hm.runs
  starts e he := hm.starts' e.symm (passage_symm.mp he)
  starts' e he := hm.starts e.symm (passage_symm.mp he)
  openUpvalues := hm.openUpvalues.flip
  initName := hm.initName
  framesMax := hm.framesMax.symm
  sink := hm.sink.symm
  clock := hm.clock.symm

/-! ### Slots and frames -/

/-- Above the script the values of slots correspond. -/
theorem Slots.above (h : p.Slots i v w) (habove : p.terms.Above i) : p.Values v w := by
  cases h with
  | values values => exact values
  | scripts passage lowest =>
    rcases habove with hnone | hpos
    · cases passage.symm.trans hnone
    · exact absurd lowest (Nat.ne_of_gt hpos)

/-- Paired frames start at the same slot. -/
theorem Frames.base (h : p.Frames i f g) : f.base = g.base := by
  cases h with
  | paired _ _ base _ => exact base
  | scripts _ _ left right => exact left.base.trans right.base.symm

/-- Frames above the lowest one are paired, and so are all where the scripts are the same. -/
theorem Frames.pair (h : p.Frames i f g) (habove : p.terms.Above i) :
    p.Pairs f.closure g.closure ∧ f.ip = g.ip ∧ p.terms.Above f.base := by
  cases h with
  | paired closure ip _ above => exact ⟨closure, ip, above⟩
  | scripts passage lowest =>
    rcases habove with hnone | hpos
    · cases passage.symm.trans hnone
    · exact absurd lowest (Nat.ne_of_gt hpos)

/-- Frames that correspond may both go to another place. -/
theorem Frames.goTo {ip ip' : Nat} (h : p.Frames i f g) (hip : f.ip + ip' = g.ip + ip) :
    p.Frames i { f with ip := ip } { g with ip := ip' } := by
  cases h with
  | paired closure same base above => exact .paired closure (by simp only; omega) base above
  | scripts passage lowest left right place linked =>
    exact .scripts passage lowest ⟨left.closure, left.chunk, left.base⟩
      ⟨right.closure, right.chunk, right.base⟩ (by simp only; omega) linked

/-! ### What corresponding machines keep alive -/

/-- What the one machine keeps alive by itself is paired with what the other one does, but for the
script. -/
theorem Machines.root_cases (hm : p.Machines m n) (hx : x ∈ m.roots) :
    (∃ y ∈ n.roots, p.Pairs x y) ∨ ∃ e, p.terms.passage = some e ∧ x = e.left.closure := by
  rcases Machine.mem_roots.mp hx with ⟨v, hv, hat⟩ | ⟨f, hf, rfl⟩ | hopen | hglobal | rfl
  · obtain ⟨i, w, hw, hvw⟩ := hm.stack.mem hv
    cases hvw with
    | values hvw =>
      obtain ⟨y, hy, hxy⟩ := hvw.exists_handle hat
      exact .inl ⟨y, Machine.mem_roots.mpr (.inl ⟨w, hw, hy⟩), hxy⟩
    | @scripts e passage _ left =>
      rw [left, Value.toHandle?_ofHandle, Option.some.injEq] at hat
      exact .inr ⟨e, passage, hat.symm⟩
  · obtain ⟨i, g, hg, hfg⟩ := hm.frames.mem hf
    cases hfg with
    | paired closure =>
      exact .inl ⟨g.closure, Machine.mem_roots.mpr (.inr (.inl ⟨g, hg, rfl⟩)), closure⟩
    | @scripts e passage _ left => exact .inr ⟨e, passage, left.closure⟩
  · obtain ⟨y, hy, hxy⟩ := exists_of_mem_left hm.openUpvalues hopen
    exact .inl ⟨y, Machine.mem_roots.mpr (.inr (.inr (.inl hy))), hxy⟩
  · obtain ⟨y, hy, hxy⟩ := hm.globals.stores hglobal
    exact .inl ⟨y, Machine.mem_roots.mpr (.inr (.inr (.inr (.inl hy)))), hxy⟩
  · exact .inl ⟨n.initName, Machine.mem_roots.mpr (.inr (.inr (.inr (.inr rfl)))), hm.initName⟩

/-- Every root of one machine is paired with one of the other. -/
theorem Machines.exists_root (hm : p.Machines m n) (hwhole : p.terms.passage = none)
    (hx : x ∈ m.roots) : ∃ y ∈ n.roots, p.Pairs x y := by
  rcases hm.root_cases hx with hpaired | ⟨e, he, -⟩
  · exact hpaired
  · cases hwhole.symm.trans he

/-- The collector of a corresponding machine knows its roots. -/
theorem Machines.covers (hm : p.Machines m n) : m.heap.Covers m.roots :=
  Heap.covers_iff.mpr fun x hx => by
    rcases hm.root_cases hx with ⟨y, -, hxy⟩ | ⟨e, he, rfl⟩
    · exact hm.heaps.covers hxy
    · exact (hm.starts e he).covers

/-- What paired objects store is there, too. -/
theorem Machines.covers_beside {o o' : Object} (hm : p.Machines m n) (ho : p.Objects o o') :
    m.heap.Covers (m.roots ++ o.references) :=
  Heap.covers_iff.mpr fun x hx => by
    rcases List.mem_append.mp hx with hx | hx
    · exact Heap.covers_iff.mp hm.covers x hx
    · obtain ⟨y, -, hxy⟩ := ho.stores (Object.mem_references.mp hx)
      exact hm.heaps.covers hxy

/-- The code that frames of paired closures run. -/
theorem Machines.chunks (hm : p.Machines m n) (hf : f ∈ m.frames) (hg : g ∈ n.frames)
    (hfg : p.Pairs f.closure g.closure) : p.Chunks f.chunk g.chunk := by
  obtain ⟨c, a, hc, ha, hcode⟩ := hm.runs f hf
  obtain ⟨d, b, hd, hb, hcode'⟩ := hm.runs' g hg
  have hclosure := hm.heaps.corresponds hfg hc hd
  cases hclosure with
  | closure function _ =>
    have hfunction := hm.heaps.corresponds function ha hb
    cases hfunction with
    | function function => exact hcode ▸ hcode' ▸ function.chunk

/-! ### Changes of the heaps -/

/-- Constants that are kept on both sides stay linked. -/
theorem Linked.carry (h : p.Linked e)
    (hpairs : ∀ v ∈ e.left.chunk.constants, ∀ w ∈ e.right.chunk.constants, ∀ x y,
      v.toHandle? = some x → w.toHandle? = some y → p.Pairs x y → q.Pairs x y) : q.Linked e := by
  intro k l hkl
  have hrel := h k l hkl
  generalize hv : e.left.chunk.constants[k.toNat]? = a at hrel ⊢
  generalize hw : e.right.chunk.constants[l.toNat]? = b at hrel ⊢
  cases hrel with
  | none => exact .none
  | some hvw =>
    refine .some (hvw.carry fun x y hx hxy => ?_)
    obtain ⟨y', hy', hxy'⟩ := hvw.exists_handle hx
    obtain rfl := p.unique.2 hxy hxy'
    exact hpairs _ (Array.mem_of_getElem? hv) _ (Array.mem_of_getElem? hw) x y hx hy' hxy

/-- Heaps that keep what the machines keep alive may take the place of their heaps. -/
theorem Machines.carry (hm : p.Machines m n) (hq : q.Heaps h₁ h₁') (hterms : q.terms = p.terms)
    (hpairs : ∀ x y, p.Pairs x y → m.Keeps x → n.Keeps y → q.Pairs x y)
    (hx : ∀ x, m.Keeps x → h₁.object? x = m.heap.object? x)
    (hy : ∀ y, n.Keeps y → h₁'.object? y = n.heap.object? y) :
    q.Machines { m with heap := h₁ } { n with heap := h₁' } := by
  refine { hm with
    heaps := hq
    globals := hm.globals.carry fun x y hst hxy => ?_
    stack := hm.stack.imp fun i v hv w hw hvw => ?_
    frames := hm.frames.imp fun i f hf g hg hfg => ?_
    runs := fun f hf => Machine.runs_carry (hm.runs f hf) hf hx
    runs' := fun f hf => Machine.runs_carry (hm.runs' f hf) hf hy
    starts := fun e he => (hm.starts e (hterms ▸ he)).carry hx
    starts' := fun e he => (hm.starts' e (hterms ▸ he)).carry hy
    openUpvalues := forall₂_pairs_carry hm.openUpvalues fun x hmem y hxy => ?_
    initName := hpairs _ _ hm.initName (Machine.keeps_initName m) (Machine.keeps_initName n) }
  · obtain ⟨y', hy', hxy'⟩ := hm.globals.stores hst
    obtain rfl := p.unique.2 hxy hxy'
    exact hpairs x y hxy (Machine.keeps_global hst) (Machine.keeps_global hy')
  · cases hvw with
    | values hvw =>
      refine .values (hvw.carry fun x y hat hxy => ?_)
      obtain ⟨y', hat', hxy'⟩ := hvw.exists_handle hat
      obtain rfl := p.unique.2 hxy hxy'
      exact hpairs x y hxy (Machine.keeps_stack hv hat) (Machine.keeps_stack hw hat')
    | scripts passage lowest left right =>
      exact .scripts (hterms ▸ passage) lowest left right
  · cases hfg with
    | paired closure ip base above =>
      exact .paired (hpairs _ _ closure (Machine.keeps_frame hf) (Machine.keeps_frame hg)) ip base (hterms ▸ above)
    | scripts passage lowest left right place linked =>
      refine .scripts (hterms ▸ passage) lowest left right place
        (linked.carry fun v hv w hw x y hat hat' hxy => hpairs x y hxy ?_ ?_)
      · exact Machine.keeps_constant hf (hm.runs f hf) (left.chunk ▸ hv) hat
      · exact Machine.keeps_constant hg (hm.runs' g hg) (right.chunk ▸ hw) hat'
  · obtain ⟨y', hy', hxy'⟩ := exists_of_mem_left hm.openUpvalues hmem
    obtain rfl := p.unique.2 hxy hxy'
    exact hpairs x y hxy (Machine.keeps_upvalue hmem) (Machine.keeps_upvalue hy')

/-- The account, the pacing and the journal do not matter. -/
theorem Machines.alike (hm : p.Machines m n) (ha : m.heap.Alike h₁) (ha' : n.heap.Alike h₁') :
    p.Machines { m with heap := h₁ } { n with heap := h₁' } :=
  hm.carry (hm.heaps.alike ha ha') rfl (fun _ _ hxy _ _ => hxy) (fun x _ => ha.object? x)
    (fun y _ => ha'.object? y)

/-- Paired objects that are neither texts nor functions may be replaced by corresponding ones. -/
theorem Machines.replace {o o' a b : Object} (hm : p.Machines m n) (hxy : p.Pairs x y)
    (hx : m.heap.object? x = some o) (hy : n.heap.object? y = some o') (hab : p.Objects a b)
    (ho : ∀ s, o ≠ .string s) (hnew : ∀ s, a ≠ .string s) (hclosure : ∀ c, o ≠ .closure c)
    (hfunction : ∀ f, o ≠ .function f) (hnewFunction : ∀ f, a ≠ .function f) :
    p.Machines { m with heap := m.heap.replace x a } { n with heap := n.heap.replace y b } := by
  have hcorr := hm.heaps.corresponds hxy hx hy
  have hruns {h : Heap} {r : Handle} {o a : Object} {f : Frame} (hr : h.object? r = some o)
      (hc : ∀ c, o ≠ .closure c) (hf : ∀ f, o ≠ .function f) (hruns : h.Runs f) :
      (h.replace r a).Runs f := by
    obtain ⟨c, g, hc', hg, hcode⟩ := hruns
    refine ⟨c, g, ?_, ?_, hcode⟩ <;> rw [Heap.object?_replace a hr, if_neg]
    · exact hc'
    · rintro rfl
      exact hc c (Option.some.inj (hr.symm.trans hc'))
    · exact hg
    · rintro rfl
      exact hf g (Option.some.inj (hr.symm.trans hg))
  refine { hm with
    heaps := hm.heaps.replace hxy hx hy hab ho hnew hnewFunction
    runs := fun f hf => hruns hx hclosure hfunction (hm.runs f hf)
    runs' := fun f hf => hruns hy ?_ ?_ (hm.runs' f hf)
    starts := fun e he => (hm.starts e he).replace hx fun z hz => ?_
    starts' := fun e he => (hm.starts' e he).replace hy fun z hz => ?_ }
  · rintro c rfl
    cases hcorr
    exact hclosure _ rfl
  · rintro f rfl
    cases hcorr
    exact hfunction _ rfl
  · obtain ⟨w, -, hzw⟩ := hab.stores hz
    exact hm.heaps.covers hzw
  · obtain ⟨w, -, hzw⟩ := hab.symm.stores hz
    exact hm.heaps.symm.covers hzw

/-! ### Changes of the frames -/

/-- Both innermost frames go to one place. -/
theorem Machines.goTo {ip ip' : Nat} (hm : p.Machines m n) (hf : m.frames.back? = some f)
    (hg : n.frames.back? = some g) (hip : f.ip + ip' = g.ip + ip) :
    p.Machines { m with frames := m.frames.modify (m.frames.size - 1) ({ · with ip := ip }) }
      { n with frames := n.frames.modify (n.frames.size - 1) ({ · with ip := ip' }) } := by
  refine { hm with
    frames := ?_
    runs := Machine.runs_modify hm.runs
    runs' := Machine.runs_modify hm.runs'
    starts := fun e he => (hm.starts e he).modify
    starts' := fun e he => (hm.starts' e he).modify }
  show Alongside p.Frames (m.frames.modify _ _) (n.frames.modify _ _)
  rw [← hm.frames.size]
  refine hm.frames.modify _ fun a b ha hb hab => hab.goTo ?_
  rw [Array.back?_eq_getElem?] at hf hg
  rw [← hm.frames.size] at hg
  obtain rfl := Option.some.inj (hf.symm.trans ha)
  obtain rfl := Option.some.inj (hg.symm.trans hb)
  exact hip

/-- Corresponding frames may be entered. -/
theorem Machines.pushFrame (hm : p.Machines m n) (hfg : p.Frames m.frames.size f g)
    (hf : m.heap.Runs f) (hg : n.heap.Runs g) :
    p.Machines { m with frames := m.frames.push f } { n with frames := n.frames.push g } := by
  have hruns {m : Machine} {f : Frame} (hr : ∀ g ∈ m.frames, m.heap.Runs g) (hf : m.heap.Runs f)
      (g : Frame) (hg : g ∈ m.frames.push f) : m.heap.Runs g := by
    rcases Array.mem_push.mp hg with hg | rfl
    · exact hr g hg
    · exact hf
  exact { hm with
    frames := hm.frames.push hfg
    runs := hruns hm.runs hf
    runs' := hruns hm.runs' hg
    starts := fun e he => (hm.starts e he).push
    starts' := fun e he => (hm.starts' e he).push }

/-- The innermost frames may be left, unless they are those of different scripts. -/
theorem Machines.popFrame (hm : p.Machines m n) (habove : p.terms.Above (m.frames.size - 1)) :
    p.Machines { m with frames := m.frames.pop } { n with frames := n.frames.pop } := by
  have hpos {e : Passage} (he : p.terms.passage = some e) : 0 < m.frames.size - 1 :=
    habove.resolve_left fun hnone => by cases hnone.symm.trans he
  exact { hm with
    frames := hm.frames.pop
    runs := fun f hf => hm.runs f (mem_of_mem_pop hf)
    runs' := fun f hf => hm.runs' f (mem_of_mem_pop hf)
    starts := fun e he => (hm.starts e he).pop (hpos he)
    starts' := fun e he => (hm.starts' e he).pop (hm.frames.size ▸ hpos he) }

end Pairing

end ScriptMachine
