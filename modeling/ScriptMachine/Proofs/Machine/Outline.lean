import ScriptMachine.Machine.State
import ScriptMachine.Proofs.Heap.World

/-!
# What is known of a machine

An outline says what each slot of the stack holds, which global holds a class, and which code each
frame runs; a world says what the objects are. A machine shows an outline in a world if all of it
is so, and if the listed upvalues are exactly those that stand for slots. What a machine shows, it
still shows after an allocation, in a world that knows what the machine keeps alive.
-/

namespace ScriptMachine

/-- A frame with what is known of the code that it runs. -/
structure Activation where
  frame : Frame
  closure : Closure
  prototype : Prototype
  context : CodeContext
  layout : Layout

/-- The activation at another offset. -/
def Activation.goTo (a : Activation) (ip : Nat) : Activation :=
  { a with frame := { a.frame with ip := ip } }

/-- The slots of the stack, a global that is known to hold a class, and the active functions, the
innermost first. -/
structure Outline where
  slots : List Slot
  known : Option String
  active : List Activation

/-- Functions that wait for the value of a call, the innermost first, with the slots below that
value. -/
inductive Suspended : List Activation → List Slot → Prop
  | nil : Suspended [] []
  | cons {a : Activation} {rest : List Activation} {below own : List Slot}
      (outer : Suspended rest below) (base : a.frame.base = below.length) (nonempty : own ≠ [])
      (resumes : a.layout.Lands none a.frame.ip (.plain (own ++ [.value]))) :
      Suspended (a :: rest) (below ++ own)

/-- The innermost function is at an instruction that takes the slots as they are, and every other
one waits for a value. -/
inductive Outline.Poised : Outline → Prop
  | intro {a : Activation} {rest : List Activation} {below : List Slot} {A : Shape}
      (outer : Suspended rest below) (base : a.frame.base = below.length)
      (lands : a.layout.Lands none a.frame.ip A) : Poised ⟨below ++ A.slots, A.known, a :: rest⟩

/-- `T` has the slots of `S` that an upvalue may stand for. -/
def SlotsKept (S T : List Slot) : Prop :=
  ∀ (j : Nat) (c : Content), S[j]? = some ⟨c, true⟩ → T[j]? = some ⟨c, true⟩

namespace SlotsKept

variable {S T U : List Slot}

/-- Slots are kept as they are. -/
@[refl] theorem refl (S : List Slot) : SlotsKept S S := fun _ _ => id

/-- Slots on top take nothing away. -/
theorem append (S T : List Slot) : SlotsKept S (S ++ T) := fun j c hj => by
  rw [List.getElem?_append_left (List.getElem?_eq_some_iff.mp hj).1, hj]

/-- Slots that no upvalue stands for may go. -/
theorem of_append (hfree : ∀ a ∈ T, a.captured = false) : SlotsKept (S ++ T) S := fun j c hj => by
  rcases Nat.lt_or_ge j S.length with hlt | hge
  · rwa [List.getElem?_append_left hlt] at hj
  · rw [List.getElem?_append_right hge] at hj
    cases hfree _ (List.mem_of_getElem? hj)

/-- Knowing less of slots keeps those that an upvalue may stand for. -/
theorem of_fits (h : SlotsFit S T) : SlotsKept S T := fun j c hj => by
  obtain ⟨hlt, hget⟩ := List.getElem?_eq_some_iff.mp hj
  have hfits := (List.forall₂_iff_get.mp h).2 j hlt (h.length_eq ▸ hlt)
  rw [List.get_eq_getElem, hget] at hfits
  exact List.getElem?_eq_some_iff.mpr ⟨h.length_eq ▸ hlt, hfits.captured rfl⟩

end SlotsKept

/-- The upvalue `r` stands for the slot `j`. -/
def Heap.StandsFor (h : Heap) (r : Handle) (j : Nat) : Prop :=
  h.object? r = some (.upvalue (.onStack j))

/-- An open upvalue stands for one slot. -/
theorem Heap.StandsFor.inj {h : Heap} {r : Handle} {i j : Nat} (hi : h.StandsFor r i)
    (hj : h.StandsFor r j) : i = j := by
  rw [Heap.StandsFor, hi, Option.some.injEq, Object.upvalue.injEq, Upvalue.onStack.injEq] at hj
  exact hj

namespace World

variable {W V : World} {h h' : Heap} {roots : List Handle} {a : Activation} {S T : List Slot}
  {rs : List Handle}

/-- `V` knows of what `roots` lead to all that `W` did, and these objects are as they were. -/
structure Carries (W : World) (h : Heap) (roots : List Handle) (V : World) (h' : Heap) : Prop where
  fits : V.Fits h'
  types : ∀ x t, h.Reachable roots x → W x = some t → V x = some t
  objects : ∀ x, h.Reachable roots x → h'.object? x = h.object? x

/-- The frame runs the code that its activation says. -/
structure Runs (W : World) (h : Heap) (a : Activation) : Prop where
  type : W a.frame.closure = some .closure
  closure : h.object? a.frame.closure = some (.closure a.closure)
  known : ∃ captures, W a.closure.function = some (.function captures)
  function : h.object? a.closure.function = some (.function a.prototype)
  chunk : a.frame.chunk = a.prototype.chunk
  constants : a.context.constants = a.prototype.chunk.constants.toList.map W.typeOf
  upvalues : List.Forall₂ (fun r content => W r = some (.upvalue content))
    a.closure.upvalues.toList a.context.captures
  words : a.layout.words = a.prototype.chunk.code.toList
  valid : a.layout.Valid a.context (.plain (entrySlots a.prototype.arity)) none

/-- The upvalues that stand for slots are listed, the one of the highest slot first; each stands
for a slot that may be captured, and is known by it. -/
structure Lists (W : World) (h : Heap) (S : List Slot) (rs : List Handle) : Prop where
  ordered : ∃ js, List.Forall₂ h.StandsFor rs js ∧ js.Pairwise (· > ·)
  slot : ∀ r ∈ rs, ∀ j, h.StandsFor r j → ∃ c, W r = some (.upvalue c) ∧ S[j]? = some ⟨c, true⟩
  all : ∀ r j, h.StandsFor r j → r ∈ rs

/-- The global `s` holds a class. -/
def DefinesClass (W : World) (globals : Table) (s : String) : Prop :=
  ∃ r v, W r = some (.text s) ∧ globals.get? ⟨r, Text.hash s⟩ = some v ∧ W.Holds v .class_

/-! ### Carrying over -/

/-- A value that is kept alive is still known to be what it was. -/
theorem Carries.holds {v : Value} {c : Content} (hc : W.Carries h roots V h') (hv : W.Holds v c)
    (hx : ∀ x, v.toHandle? = some x → h.Reachable roots x) : V.Holds v c := by
  cases c with
  | any =>
    intro x hat
    obtain ⟨t, ht⟩ := hv x hat
    exact ⟨t, hc.types x t (hx x hat) ht⟩
  | class_ =>
    obtain ⟨x, hat, ht⟩ := hv
    exact ⟨x, hat, hc.types x _ (hx x hat) ht⟩
  | closure =>
    obtain ⟨x, hat, ht⟩ := hv
    exact ⟨x, hat, hc.types x _ (hx x hat) ht⟩

/-- A table that is kept alive is still what it was. -/
theorem Carries.tableOk {t : Table} {c : Content} (hc : W.Carries h roots V h')
    (ht : W.TableOk c t) (hx : ∀ x, t.Stores x → h.Reachable roots x) : V.TableOk c t := by
  refine ht.congr fun x hstores => ?_
  obtain ⟨s, hs⟩ := ht.knows hstores
  rw [hs, hc.types x s (hx x hstores) hs]

/-- A frame that is kept alive still runs its code. -/
theorem Runs.carry (hr : W.Runs h a) (hw : W.Fits h) (hc : W.Carries h roots V h')
    (hroot : a.frame.closure ∈ roots) : V.Runs h' a := by
  have hclosure : h.Reachable roots a.frame.closure := .root hroot
  have hfunction : h.Reachable roots a.closure.function := hclosure.step hr.closure .closureFunction
  obtain ⟨captures, hknown⟩ := hr.known
  refine
    { type := hc.types _ _ hclosure hr.type
      closure := (hc.objects _ hclosure).trans hr.closure
      known := ⟨captures, hc.types _ _ hfunction hknown⟩
      function := (hc.objects _ hfunction).trans hr.function
      chunk := hr.chunk
      constants := ?_
      upvalues := ?_
      words := hr.words
      valid := hr.valid }
  · rw [hr.constants]
    refine List.map_congr_left fun v hv => ?_
    unfold typeOf
    cases hat : v.toHandle? with
    | none => rfl
    | some x =>
      obtain ⟨o, ho, hd⟩ := hw _ _ hknown
      rw [hr.function, Option.some.injEq] at ho
      subst ho
      have hmem : v ∈ a.prototype.chunk.constants := Array.mem_toList_iff.mp hv
      obtain ⟨t, ht⟩ := hd.knows (.functionConstant hmem hat)
      have hx := hfunction.step hr.function (.functionConstant hmem hat)
      exact ht.trans (hc.types x t hx ht).symm
  · refine List.forall₂_iff_get.mpr ⟨hr.upvalues.length_eq, fun i hi hi' => ?_⟩
    refine hc.types _ _ (hclosure.step hr.closure (.closureUpvalue ?_))
      ((List.forall₂_iff_get.mp hr.upvalues).2 i hi hi')
    exact Array.mem_toList_iff.mp (List.get_mem _ _)

/-- A frame runs its code at whatever offset it is. -/
theorem Runs.goTo (hr : W.Runs h a) (ip : Nat) : W.Runs h (a.goTo ip) := { hr with }

/-- A frame runs its code also where another kind of object was replaced. -/
theorem Runs.replace {r : Handle} {o' : Object} (hr : W.Runs h a) (hne : W r ≠ some .closure)
    (hne' : ∀ captures, W r ≠ some (.function captures))
    (hobject : ∀ x, (h.replace r o').object? x = if x = r then some o' else h.object? x) :
    W.Runs (h.replace r o') a := by
  obtain ⟨captures, hknown⟩ := hr.known
  have hclosure : a.frame.closure ≠ r := fun heq => hne (heq ▸ hr.type)
  have hfunction : a.closure.function ≠ r := fun heq => hne' captures (heq ▸ hknown)
  refine { hr with closure := ?_, function := ?_ }
  · rw [hobject, if_neg hclosure, hr.closure]
  · rw [hobject, if_neg hfunction, hr.function]

/-- The listed upvalues stay listed if they are kept alive and no other one appears. -/
theorem Lists.carry (hl : W.Lists h S rs) (hc : W.Carries h roots V h') (hsub : ∀ r ∈ rs, r ∈ roots)
    (hold : ∀ x j, h'.StandsFor x j → h.StandsFor x j) : V.Lists h' S rs := by
  have hroot (r : Handle) (hr : r ∈ rs) : h.Reachable roots r := .root (hsub r hr)
  refine ⟨?_, fun r hr j hj => ?_, fun r j hj => hl.all r j (hold r j hj)⟩
  · obtain ⟨js, hstands, hsorted⟩ := hl.ordered
    refine ⟨js, List.forall₂_iff_get.mpr ⟨hstands.length_eq, fun i hi hi' => ?_⟩, hsorted⟩
    exact (hc.objects _ (hroot _ (List.get_mem _ _))).trans
      ((List.forall₂_iff_get.mp hstands).2 i hi hi')
  · obtain ⟨c, ht, hslot⟩ := hl.slot r hr j (hold r j hj)
    exact ⟨c, hc.types _ _ (hroot r hr) ht, hslot⟩

/-- The listing depends on the slots that may be captured only. -/
theorem Lists.keep (hl : W.Lists h S rs) (hk : SlotsKept S T) : W.Lists h T rs :=
  ⟨hl.ordered, fun r hr j hj => by
    obtain ⟨c, ht, hslot⟩ := hl.slot r hr j hj
    exact ⟨c, ht, hk j c hslot⟩, hl.all⟩

/-- The listing depends on the upvalues that stand for slots only. -/
theorem Lists.congr (hl : W.Lists h S rs) (hstands : ∀ x j, h'.StandsFor x j ↔ h.StandsFor x j) :
    W.Lists h' S rs := by
  refine ⟨?_, fun r hr j hj => hl.slot r hr j ((hstands r j).mp hj),
    fun r j hj => hl.all r j ((hstands r j).mp hj)⟩
  obtain ⟨js, hrs, hsorted⟩ := hl.ordered
  exact ⟨js, hrs.imp fun x j => (hstands x j).mpr, hsorted⟩

/-- Where no upvalue may stand for a slot, none is listed. -/
theorem Lists.eq_nil (hl : W.Lists h [] rs) : rs = [] := by
  refine List.eq_nil_iff_forall_not_mem.mpr fun r hr => ?_
  obtain ⟨js, hstands, -⟩ := hl.ordered
  obtain ⟨j, -, hj⟩ := exists_of_mem_left hstands hr
  obtain ⟨c, -, hslot⟩ := hl.slot r hr j hj
  cases hslot

/-- A class that is defined stays so when the heap changes. -/
theorem DefinesClass.carry {g : Table} {s : String} (hd : W.DefinesClass g s)
    (hg : W.TableOk .any g) (hc : W.Carries h roots V h')
    (hx : ∀ x, g.Stores x → h.Reachable roots x) : V.DefinesClass g s := by
  obtain ⟨r, v, ht, hget, hv⟩ := hd
  obtain ⟨k, hmem, hk⟩ := (hg.valid.get?_eq_some_iff (hg.agrees ⟨s, ht, rfl⟩)).mp hget
  exact ⟨r, v, hc.types _ _ (hx _ (.key hmem hk)) ht, hget,
    hc.holds hv fun x hat => hx x (.value hmem hat)⟩

end World

namespace Machine

variable {W V : World} {m : Machine} {O : Outline} {h' : Heap} {S T : List Slot}

/-- What a machine keeps alive. -/
theorem mem_roots {r : Handle} : r ∈ m.roots ↔ (∃ v ∈ m.stack, v.toHandle? = some r) ∨
    (∃ f ∈ m.frames, f.closure = r) ∨ r ∈ m.openUpvalues ∨ m.globals.Stores r ∨ r = m.initName := by
  simp only [roots, List.mem_append, List.mem_filterMap, List.mem_map, List.mem_reverse,
    Array.mem_toList_iff, Table.mem_handles, List.mem_singleton, or_assoc]

/-- An object is kept alive by a machine. -/
def Keeps (m : Machine) (x : Handle) : Prop := m.heap.Reachable m.roots x

/-- The heap, the globals, the stack and the frames of a machine are as a world and an outline
say. -/
structure Typed (m : Machine) (W : World) (O : Outline) : Prop where
  sound : m.heap.Sound
  fits : W.Fits m.heap
  globals : W.TableOk .any m.globals
  init : W m.initName = some (.text "init")
  stack : List.Forall₂ (fun v a => W.Holds v a.content) m.stack.toList O.slots
  frames : m.frames.toList.reverse = O.active.map Activation.frame
  runs : ∀ a ∈ O.active, W.Runs m.heap a
  known : ∀ s, O.known = some s → W.DefinesClass m.globals s

/-- A machine is as a world and an outline say, and lists the upvalues that stand for its slots. -/
structure Shows (m : Machine) (W : World) (O : Outline) : Prop extends m.Typed W O where
  lists : W.Lists m.heap O.slots m.openUpvalues

namespace Typed

/-- The outline has a slot for every value of the stack. -/
theorem size_stack (hm : m.Typed W O) : m.stack.size = O.slots.length := by
  rw [← Array.length_toList, hm.stack.length_eq]

/-- The innermost frame. -/
theorem back_frames {a : Activation} {rest : List Activation} (hm : m.Typed W O)
    (ha : O.active = a :: rest) : m.frames.back? = some a.frame := by
  rw [← Array.getLast?_toList, ← List.head?_reverse, hm.frames, ha]
  rfl

/-- The outline has an activation for every frame. -/
theorem mem_frames {a : Activation} (hm : m.Typed W O) (ha : a ∈ O.active) :
    a.frame ∈ m.frames := by
  rw [← Array.mem_toList_iff, ← List.mem_reverse, hm.frames]
  exact List.mem_map_of_mem ha

/-- The closures of active functions are kept alive. -/
theorem keeps_closure {a : Activation} (hm : m.Typed W O) (ha : a ∈ O.active) :
    m.Keeps a.frame.closure := .root (mem_roots.mpr (.inr (.inl ⟨_, hm.mem_frames ha, rfl⟩)))

/-- Active functions are kept alive by their closures. -/
theorem keeps_function {a : Activation} (hm : m.Typed W O) (ha : a ∈ O.active) :
    m.Keeps a.closure.function :=
  (hm.keeps_closure ha).step (hm.runs a ha).closure .closureFunction

/-- The upvalues of active closures are kept alive. -/
theorem keeps_upvalue {a : Activation} {r : Handle} (hm : m.Typed W O) (ha : a ∈ O.active)
    (hr : r ∈ a.closure.upvalues) : m.Keeps r :=
  (hm.keeps_closure ha).step (hm.runs a ha).closure (.closureUpvalue hr)

/-- What a machine keeps alive is known. -/
theorem knows (hm : m.Typed W O) (hl : W.Lists m.heap S m.openUpvalues) {r : Handle}
    (hr : r ∈ m.roots) : W.Knows r := by
  rcases mem_roots.mp hr with ⟨v, hv, hat⟩ | ⟨f, hf, rfl⟩ | hr | hr | rfl
  · obtain ⟨a, -, ha⟩ := exists_of_mem_left hm.stack (Array.mem_toList_iff.mpr hv)
    exact ha.any r hat
  · rw [← Array.mem_toList_iff, ← List.mem_reverse, hm.frames] at hf
    obtain ⟨a, ha, rfl⟩ := List.mem_map.mp hf
    exact ⟨_, (hm.runs a ha).type⟩
  · obtain ⟨js, hstands, -⟩ := hl.ordered
    obtain ⟨j, -, hj⟩ := exists_of_mem_left hstands hr
    obtain ⟨c, ht, -⟩ := hl.slot r hr j hj
    exact ⟨_, ht⟩
  · exact hm.globals.knows hr
  · exact ⟨_, hm.init⟩

/-- What a machine keeps alive leads to live objects only. -/
theorem covers (hm : m.Typed W O) (hl : W.Lists m.heap S m.openUpvalues) :
    m.heap.Covers m.roots := hm.fits.covers fun _ hr => hm.knows hl hr

/-- What is known of a machine is carried over to a heap that has what it keeps alive. -/
theorem carry (hm : m.Typed W O) (hc : W.Carries m.heap m.roots V h') (hs : h'.Sound)
    (rs : List Handle) : { m with heap := h', openUpvalues := rs }.Typed V O := by
  have hglobal (x : Handle) (hx : m.globals.Stores x) : m.heap.Reachable m.roots x :=
    .root (mem_roots.mpr (.inr (.inr (.inr (.inl hx)))))
  refine
    { sound := hs
      fits := hc.fits
      globals := hc.tableOk hm.globals hglobal
      init := hc.types _ _ (.root (mem_roots.mpr (.inr (.inr (.inr (.inr rfl)))))) hm.init
      stack := ?_
      frames := hm.frames
      runs := fun a ha => (hm.runs a ha).carry hm.fits hc
        (mem_roots.mpr (.inr (.inl ⟨_, hm.mem_frames ha, rfl⟩)))
      known := fun s hs => (hm.known s hs).carry hm.globals hc hglobal }
  refine List.forall₂_iff_get.mpr ⟨hm.stack.length_eq, fun i hi hi' => ?_⟩
  refine hc.holds ((List.forall₂_iff_get.mp hm.stack).2 i hi hi') fun x hat => .root ?_
  exact mem_roots.mpr (.inl ⟨_, Array.mem_toList_iff.mp (List.get_mem _ _), hat⟩)

/-- What is known of a machine stays so when an object that is no code is replaced by another one
that is known as the same. -/
theorem replace {r : Handle} {t : ObjectType} {o o' : Object} (hm : m.Typed W O)
    (ho : m.heap.object? r = some o) (ht : W r = some t) (hd : W.Describes t o')
    (hclosure : t ≠ .closure) (hfunction : ∀ captures, t ≠ .function captures)
    (htext : ∀ chars, t ≠ .text chars) (rs : List Handle) :
    { m with heap := m.heap.replace r o', openUpvalues := rs }.Typed W O ∧
      ∀ x, (m.heap.replace r o').object? x = if x = r then some o' else m.heap.object? x := by
  have hd' : W.Describes t o := by
    obtain ⟨o'', ho'', hd''⟩ := hm.fits r t ht
    rw [ho, Option.some.injEq] at ho''
    exact ho'' ▸ hd''
  have hno {o : Object} (hd : W.Describes t o) (s : Interned) : o ≠ .string s := by
    rintro rfl
    cases hd with
    | text => exact htext _ rfl
  obtain ⟨hsound, hobject⟩ := hm.sound.replace ho (hno hd') (hno hd)
  refine ⟨{ hm with
    sound := hsound
    fits := hm.fits.replace ht hd hobject
    runs := fun a ha => (hm.runs a ha).replace ?_ ?_ hobject }, hobject⟩
  · rw [ht, ne_eq, Option.some.injEq]
    exact hclosure
  · intro captures
    rw [ht, ne_eq, Option.some.injEq]
    exact hfunction captures

end Typed

namespace Shows

/-- What a machine shows is carried over to a heap that has what it keeps alive and no other
upvalue that stands for a slot. -/
theorem carry (hm : m.Shows W O) (hc : W.Carries m.heap m.roots V h') (hs : h'.Sound)
    (hold : ∀ x j, h'.StandsFor x j → m.heap.StandsFor x j) : { m with heap := h' }.Shows V O :=
  ⟨hm.toTyped.carry hc hs m.openUpvalues, hm.lists.carry hc
    (fun _ hr => mem_roots.mpr (.inr (.inr (.inl hr)))) hold⟩

/-- Another stack may be shown. -/
theorem restack {vs : Array Value} (hm : m.Shows W O)
    (hv : List.Forall₂ (fun v a => W.Holds v a.content) vs.toList T) (hk : SlotsKept O.slots T) :
    { m with stack := vs }.Shows W { O with slots := T } :=
  ⟨{ hm.toTyped with stack := hv }, hm.lists.keep hk⟩

/-- Other frames may be shown. -/
theorem reframe {fs : Array Frame} {active : List Activation} (hm : m.Shows W O)
    (hfs : fs.toList.reverse = active.map Activation.frame) (hr : ∀ a ∈ active, W.Runs m.heap a) :
    { m with frames := fs }.Shows W { O with active := active } :=
  ⟨{ hm.toTyped with frames := hfs, runs := hr }, hm.lists⟩

/-- It may be forgotten which global holds a class. -/
theorem forget (hm : m.Shows W O) : m.Shows W { O with known := none } :=
  ⟨{ hm.toTyped with known := fun _ hs => by cases hs }, hm.lists⟩

/-- Less may be said of the slots. -/
theorem weaken (hm : m.Shows W O) (hfits : SlotsFit O.slots T) : m.Shows W { O with slots := T } :=
  hm.restack (forall₂_comp hm.stack hfits fun _ _ _ hv hab => hv.fits hab.content)
    (.of_fits hfits)

end Shows

/-- A machine at an instruction of its innermost function. -/
def Ready (m : Machine) : Prop := ∃ W O, m.Shows W O ∧ O.Poised

/-- A machine without active functions. -/
def Rests (m : Machine) : Prop := ∃ W, m.Shows W ⟨[], none, []⟩

/-- Between two sources no function is active. -/
theorem Rests.frames_eq (hm : m.Rests) : m.frames = #[] := by
  obtain ⟨W, hm⟩ := hm
  rw [← Array.toList_eq_nil_iff, ← List.reverse_eq_nil_iff]
  exact hm.frames

/-- With the value of a call on the stack, the function that waited for it goes on. -/
theorem Shows.ready {g : Option String} {act : List Activation} (hm : m.Shows W ⟨S ++ [.value], g, act⟩)
    (hs : Suspended act S) (hact : act ≠ []) : m.Ready := by
  cases hs with
  | nil => exact absurd rfl hact
  | @cons a rest below own outer base nonempty resumes =>
    refine ⟨W, _, hm.forget, ?_⟩
    rw [List.append_assoc]
    exact .intro (A := .plain (own ++ [.value])) outer base resumes

end Machine

end ScriptMachine
