import ScriptMachine.Proofs.Machine.Retaining
import ScriptMachine.Proofs.Scoping.Programs
import ScriptMachine.Proofs.Scoping.Sectioning

/-!
# The code that closures run

Every closure of a session has the code of a function of some source that was compiled in it. That
stays so as long as the closure is there, because nothing that it stores is ever changed, except
that an upvalue stops standing for a slot. An upvalue that code may assign never stands for the slot
of an active callee. And whatever a class has as its initializer was compiled as one.
-/

namespace ScriptMachine

open Compile (FunctionKind)

/-! ### Functions and their bodies -/

/-- The function `r` is `f` and has the code of a body. The body may have been compiled on another
heap, of which everything has lasted that the function involves. -/
structure Heap.Embodies (h : Heap) (r : Handle) (B : Body) (f : Prototype) : Prop where
  object : B.heap.object? r = some (.function f)
  lasts : B.heap.Lasts h r
  constants : B.constants = f.chunk.constants.toList
  rooted : B.Rooted
  flows : B.Flows (f.arity.toNat + 1) f.chunk.code.toList 0

namespace Heap

variable {h h' : Heap} {x y z r : Handle}

/-- An object involves what is involved by what it involves. -/
theorem Involves.trans (hy : h.Involves x y) (hz : h.Involves y z) : h.Involves x z := by
  induction hz with
  | self => exact hy
  | stored _ object fixed stores ih => exact ih.stored object fixed stores

/-- If an object lasts, so does what it involves. -/
theorem Lasts.of_involves (hl : h.Lasts h' x) (hy : h.Involves x y) : h.Lasts h' y :=
  fun z o hz ho => hl z o (hy.trans hz) ho

/-- If a fixed object lasts, so does what it stores. -/
theorem Lasts.stored {o : Object} (hl : h.Lasts h' x) (ho : h.object? x = some o)
    (hfixed : o.isFixed = true) (hy : o.Stores y) : h.Lasts h' y :=
  hl.of_involves (Involves.self.stored ho hfixed hy)

namespace Embodies

variable {B : Body} {f : Prototype}

/-- The function is still there. -/
theorem function (he : h.Embodies r B f) : h.object? r = some (.function f) :=
  he.lasts.object .self he.object rfl

/-- Where the function lasts, it has the same body. -/
theorem carry (he : h.Embodies r B f) (hl : h.Lasts h' r) : h'.Embodies r B f :=
  { he with lasts := he.lasts.trans hl }

/-- A text among the constants is still the same. -/
theorem text {k : UInt16} {name : String} (he : h.Embodies r B f) (hk : B.Names k name) :
    ∃ x s, f.chunk.constants[k.toNat]? = some (.ofHandle x) ∧ h.object? x = some (.string s) ∧
      s.chars = name := by
  obtain ⟨x, s, hx, hs, hname⟩ := hk
  rw [he.constants, Array.getElem?_toList] at hx
  have hstores : (Object.function f).Stores x :=
    .functionConstant (Array.mem_of_getElem? hx) (Value.toHandle?_ofHandle x)
  exact ⟨x, s, hx, (he.lasts.stored he.object rfl hstores).object .self hs rfl, hname⟩

end Embodies

end Heap

/-- A function inside a function, with the captures that its closures have. -/
structure Body.Nests (B : Body) (kind : FunctionKind) (k : UInt16) (r : Handle)
    (cs : List Capture) (B' : Body) (f : Prototype) : Prop where
  constant : B.constants[k.toNat]? = some (.ofHandle r)
  heap : B'.heap = B.heap
  kind : B'.kind = kind
  captures : B'.captures = cs
  outer : ∃ scope, B'.outer = ⟨scope, B.captures⟩ :: B.outer
  count : f.upvalueCount = cs.length
  embodies : ∀ h : Heap, B.heap.Lasts h r → h.Embodies r B' f

/-- The words of a closure make it of a function inside. -/
theorem Function.Codes.nests {B : Body} {scope scope' : Scope} {kind : FunctionKind} {g : Function}
    {ws : List UInt32} (h : g.Codes B scope kind ws scope') (hscope : scope.Rooted)
    (hB : B.Rooted) (hp : ProperNames g.tokens) : ∃ k r captures B' f,
      ws = (Instr.closure k).encode :: captures.map Capture.encode ∧
        B.Nests kind k r captures B' f := by
  cases h with
  | @mk _ _ _ _ _ params body k r f captures ws constant object arity count codes code =>
    have houter : Body.Rooted ⟨B.heap, kind, f.chunk.constants.toList, captures,
        ⟨scope, B.captures⟩ :: B.outer⟩ := List.forall_mem_cons.mpr ⟨hscope, hB⟩
    have hbody : ProperNames (Stmt.listTokens body) := by
      simp [Function.tokens] at hp
      exact hp.2.2
    have hpasses := codes.passes (fun s _ _ _ _ hs ht hp h => h.passes houter hs ht hp)
      (Scope.rooted_start kind params) (fun hfalse => by cases hfalse)
      (by simpa using hbody)
    refine ⟨k, r, captures, ⟨B.heap, kind, f.chunk.constants.toList, captures,
      ⟨scope, B.captures⟩ :: B.outer⟩, f, rfl, constant, rfl, rfl, rfl, ⟨scope, rfl⟩, count,
      fun h hl => ?_⟩
    refine ⟨object, hl, rfl, houter, ?_⟩
    rw [code]
    have hflows := hpasses.flows
    rw [Scope.start, List.length_append, List.length_reverse, List.length_map, ← arity] at hflows
    exact .append hflows .finalReturn

/-- A script that was compiled has the code of a body. -/
theorem Heap.Scripts.embodies {h : Heap} {source : String} {r : Handle} {f : Prototype}
    (hs : h.Scripts source r) (hf : h.object? r = some (.function f)) (harity : f.arity = 0) :
    h.Embodies r ⟨h, .script, f.chunk.constants.toList, [], []⟩ f := by
  obtain ⟨body, g, ws, scope, hspells, hg, codes, code⟩ := hs
  obtain rfl : f = g := Object.function.inj (Option.some.inj (hf.symm.trans hg))
  have houter : Body.Rooted ⟨h, .script, f.chunk.constants.toList, [], []⟩ :=
    fun level hlevel => by cases hlevel
  have hpasses := codes.passes (fun s _ _ _ _ hs ht hp h => h.passes houter hs ht hp)
    (Scope.rooted_start .script []) (fun _ => ⟨rfl, rfl⟩) ?_
  · refine ⟨hf, fun y o _ ho => ⟨o, ho, .refl o⟩, rfl, houter, ?_⟩
    rw [code, harity]
    exact .append hpasses.flows .finalReturn
  · have hproper := properNames_source source
    rwa [← hspells.tokens] at hproper

namespace Machine

variable {m m' : Machine} {c : Closure} {B : Body} {f : Prototype} {x y : Handle}
  {new : List Handle}

/-! ### Closures -/

/-- A closure has the code of a body, and of its upvalues only those that lead to a callee stand
for the slot of one. -/
structure Serves (m : Machine) (c : Closure) (B : Body) (f : Prototype) : Prop where
  embodies : m.heap.Embodies c.function B f
  present : ∀ u ∈ c.upvalues, ∃ o, m.heap.object? u = some o
  apart : ∀ j u, c.upvalues[j]? = some u → ¬ LeadsToCallee B.captures B.outer j →
    ∀ g ∈ m.frames, ¬ m.heap.StandsFor u g.base

/-- Every function that is active in `m'` has its callee where one of `m` has it, or where no
upvalue of `m` stands for the slot. -/
def Clears (m m' : Machine) : Prop :=
  ∀ g' ∈ m'.frames, (∃ g ∈ m.frames, g.base = g'.base) ∨ ∀ u, ¬ m.heap.StandsFor u g'.base

/-- The same functions may be active. -/
theorem clears_of_frames (h : ∀ g' ∈ m'.frames, ∃ g ∈ m.frames, g.base = g'.base) : m.Clears m' :=
  fun g' hg' => .inl (h g' hg')

/-- A closure that lasts has the same body. -/
theorem Serves.carry (hs : m.Serves c B f) (hframes : m.Clears m')
    (hl : ∀ z, (Object.closure c).Stores z → m.heap.Lasts m'.heap z) : m'.Serves c B f where
  embodies := hs.embodies.carry (hl _ .closureFunction)
  present u hu := by
    obtain ⟨o, ho⟩ := hs.present u hu
    obtain ⟨o', ho', -⟩ := hl u (.closureUpvalue hu) u o .self ho
    exact ⟨o', ho'⟩
  apart j u hj hcallee g' hg' hstands := by
    have hu : u ∈ c.upvalues := Array.mem_of_getElem? hj
    obtain ⟨o, ho⟩ := hs.present u hu
    obtain ⟨o', ho', hbecomes⟩ := hl u (.closureUpvalue hu) u o .self ho
    obtain rfl := Option.some.inj (ho'.symm.trans hstands)
    have hbefore : m.heap.StandsFor u g'.base := by
      rw [Heap.StandsFor, ho, hbecomes.stands _ rfl]
    rcases hframes g' hg' with ⟨g, hg, hbase⟩ | hnone
    · exact hs.apart j u hj hcallee g hg (hbase ▸ hbefore)
    · exact hnone u hbefore

/-- The closure `y` has the code of an initializer. -/
def Initializes (m : Machine) (y : Handle) : Prop :=
  ∃ c B f, m.heap.object? y = some (.closure c) ∧ m.Serves c B f ∧ B.kind = .initializer

/-- An initializer that lasts is one still. -/
theorem Initializes.carry (hy : m.Initializes y) (hframes : m.Clears m')
    (hl : m.heap.Lasts m'.heap y) : m'.Initializes y := by
  obtain ⟨c, B, f, hc, hs, hkind⟩ := hy
  exact ⟨c, B, f, hl.object .self hc rfl, hs.carry hframes fun z hz => hl.stored hc rfl hz, hkind⟩

/-! ### Everything on the heap -/

/-- A table has only initializers as what it has for the name of initializers. -/
def InitializesBy (m : Machine) (t : Table) : Prop :=
  ∀ k v, Entry.live k v ∈ t.entries → k.string = m.initName →
    ∃ y, v = .ofHandle y ∧ m.Initializes y

/-- Every closure has the code of a body, and every class has an initializer as its initializer. -/
structure Sourced (m : Machine) : Prop where
  closures : ∀ y c, m.heap.object? y = some (.closure c) → ∃ B f, m.Serves c B f
  classes : ∀ x c, m.heap.object? x = some (.class_ c) → m.InitializesBy c.methods

/-- Without a method nothing initializes. -/
theorem initializesBy_empty : m.InitializesBy Table.empty :=
  fun k v hmem => by simp [Table.empty] at hmem

/-- What a table stores may last. -/
theorem InitializesBy.carry {t : Table} (h : m.InitializesBy t) (hinit : m'.initName = m.initName)
    (hframes : m.Clears m') (hl : ∀ z, t.Stores z → m.heap.Lasts m'.heap z) :
    m'.InitializesBy t := by
  intro k v hmem hk
  obtain ⟨y, rfl, hy⟩ := h k v hmem (hk.trans hinit)
  exact ⟨y, rfl, hy.carry hframes (hl y (.value hmem (Value.toHandle?_ofHandle y)))⟩

/-- What a machine retains is sourced if what is new is. -/
theorem Sourced.carry (hs : m.Sourced) (hr : m.Retains new m') (hframes : m.Clears m')
    (hclosures : ∀ y c, y ∈ new → m'.heap.object? y = some (.closure c) → ∃ B f, m'.Serves c B f)
    (hclasses : ∀ x c, x ∈ new → m'.heap.object? x = some (.class_ c) →
      m'.InitializesBy c.methods) : m'.Sourced where
  closures y c hy := by
    by_cases hnew : y ∈ new
    · exact hclosures y c hnew hy
    · obtain ⟨B, f, hserves⟩ := hs.closures y c (hr.heap.object y _ hy rfl hnew)
      exact ⟨B, f, hserves.carry hframes fun z hz => hr.heap.stored y _ z hy rfl hnew hz⟩
  classes x c hx := by
    by_cases hnew : x ∈ new
    · exact hclasses x c hnew hx
    · exact (hs.classes x c (hr.heap.object x _ hx rfl hnew)).carry hr.initName hframes
        fun z hz => hr.heap.stored x _ z hx rfl hnew (.classMethod hz)

/-- Where nothing is new, everything is sourced as before. -/
theorem Sourced.retain (hs : m.Sourced) (hr : m.Retains [] m') (hframes : m.Clears m') :
    m'.Sourced :=
  hs.carry hr hframes (fun _ _ hy => by cases hy) fun _ _ hx => by cases hx

end Machine

end ScriptMachine
