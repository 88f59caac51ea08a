import ScriptMachine.Heap.Alloc
import ScriptMachine.Proofs.Table.Validity

/-!
# Reachability in the heap

Which handles an object stores, said field by field, and which handles roots lead to when stored
handles of live objects are followed. Tracing visits exactly the stored handles.
-/

namespace ScriptMachine

/-- Distinct handles have distinct slots. -/
theorem Handle.slot_injective {r x : Handle} (h : r.slot = x.slot) : r = x := by
  cases r
  cases x
  simpa [Handle.slot, UInt32.toNat_inj] using h

/-- Handles and their slots determine each other. -/
@[simp] theorem Handle.slot_inj {r x : Handle} : r.slot = x.slot ↔ r = x :=
  ⟨Handle.slot_injective, fun h => h ▸ rfl⟩

/-- `t` stores `x`: as a key, or by a value that refers to `x`. -/
inductive Table.Stores (t : Table) (x : Handle) : Prop
  | key {k : Key} {v : Value} (mem : Entry.live k v ∈ t.entries) (at_ : k.string = x)
  | value {k : Key} {v : Value} (mem : Entry.live k v ∈ t.entries) (at_ : v.toHandle? = some x)

/-- `o` stores `x` in one of its fields. -/
inductive Object.Stores : Object → Handle → Prop
  | functionName {f : Prototype} {x : Handle} (at_ : f.name = some x) : Stores (.function f) x
  | functionConstant {f : Prototype} {v : Value} {x : Handle} (mem : v ∈ f.chunk.constants)
      (at_ : v.toHandle? = some x) : Stores (.function f) x
  | closureFunction {c : Closure} : Stores (.closure c) c.function
  | closureUpvalue {c : Closure} {x : Handle} (mem : x ∈ c.upvalues) : Stores (.closure c) x
  | closedValue {v : Value} {x : Handle} (at_ : v.toHandle? = some x) :
      Stores (.upvalue (.closed v)) x
  | className {c : ClassObject} : Stores (.class_ c) c.name
  | classMethod {c : ClassObject} {x : Handle} (at_ : c.methods.Stores x) : Stores (.class_ c) x
  | instanceClass {i : InstanceObject} : Stores (.instance_ i) i.class_
  | instanceField {i : InstanceObject} {x : Handle} (at_ : i.fields.Stores x) :
      Stores (.instance_ i) x
  | receiver {b : BoundMethod} {x : Handle} (at_ : b.receiver.toHandle? = some x) :
      Stores (.boundMethod b) x
  | boundMethod {b : BoundMethod} : Stores (.boundMethod b) b.method

/-- The object is a text or a function. -/
inductive Object.IsCode : Object → Prop
  | string (s : Interned) : IsCode (.string s)
  | function (f : Prototype) : IsCode (.function f)

/-- Tracing a table visits exactly what it stores. -/
theorem Table.mem_handles {t : Table} {x : Handle} : x ∈ t.handles ↔ t.Stores x := by
  simp only [Table.handles, List.mem_flatMap, List.mem_cons, Option.mem_toList]
  constructor
  · rintro ⟨⟨k, v⟩, mem, rfl | at_⟩
    · exact .key (mem_toList.mp mem) rfl
    · exact .value (mem_toList.mp mem) at_
  · rintro (⟨mem, rfl⟩ | ⟨mem, at_⟩)
    · exact ⟨_, mem_toList.mpr mem, .inl rfl⟩
    · exact ⟨_, mem_toList.mpr mem, .inr at_⟩

/-- Tracing an object visits exactly what it stores. -/
theorem Object.mem_references {o : Object} {x : Handle} : x ∈ o.references ↔ o.Stores x := by
  constructor
  · intro hx
    match o, hx with
    | .function f, hx =>
      simp only [references, List.mem_append, Option.mem_toList, List.mem_filterMap,
        Array.mem_toList_iff] at hx
      rcases hx with at_ | ⟨v, mem, at_⟩
      · exact .functionName at_
      · exact .functionConstant mem at_
    | .closure c, hx =>
      simp only [references, List.mem_cons, Array.mem_toList_iff] at hx
      rcases hx with rfl | mem
      · exact .closureFunction
      · exact .closureUpvalue mem
    | .upvalue (.closed v), hx => exact .closedValue (by simpa [references] using hx)
    | .class_ c, hx =>
      simp only [references, List.mem_cons, Table.mem_handles] at hx
      rcases hx with rfl | at_
      · exact .className
      · exact .classMethod at_
    | .instance_ i, hx =>
      simp only [references, List.mem_cons, Table.mem_handles] at hx
      rcases hx with rfl | at_
      · exact .instanceClass
      · exact .instanceField at_
    | .boundMethod b, hx =>
      simp only [references, List.mem_append, Option.mem_toList, List.mem_singleton] at hx
      rcases hx with at_ | rfl
      · exact .receiver at_
      · exact .boundMethod
  · rintro (at_ | ⟨mem, at_⟩ | _ | mem | at_ | _ | at_ | _ | at_ | at_ | _) <;>
      simp_all only [references, List.mem_append, Option.mem_toList, List.mem_filterMap,
        Array.mem_toList_iff, List.mem_cons, Table.mem_handles, true_or, or_true]
    exact .inr ⟨_, mem, at_⟩

namespace Heap

/-- `x` is a root, or is stored in a live object that can be reached. -/
inductive Reachable (h : Heap) (roots : List Handle) : Handle → Prop
  | root {x : Handle} (mem : x ∈ roots) : Reachable h roots x
  | step {r x : Handle} {o : Object} (from_ : Reachable h roots r) (object : h.object? r = some o)
      (stores : o.Stores x) : Reachable h roots x

/-- More roots reach more. -/
theorem Reachable.mono {h : Heap} {roots more : List Handle} {x : Handle}
    (hx : h.Reachable roots x) (hsub : ∀ r ∈ roots, r ∈ more) : h.Reachable more x := by
  induction hx with
  | root mem => exact .root (hsub _ mem)
  | step _ object stores ih => exact .step ih object stores

/-- Without roots nothing is reached. -/
theorem not_reachable_nil {h : Heap} {x : Handle} : ¬ h.Reachable [] x := by
  intro hx
  induction hx with
  | root mem => cases mem
  | step _ _ _ ih => exact ih

/-- Everything that roots lead to is live. -/
def Covers (h : Heap) (roots : List Handle) : Prop := ∀ x, h.Reachable roots x → h.isLive x

/-- Reaching depends on the objects that are reached only. -/
theorem reachable_congr {h h' : Heap} {roots : List Handle} {x : Handle}
    (heq : ∀ x, h.Reachable roots x → h'.object? x = h.object? x) :
    h'.Reachable roots x ↔ h.Reachable roots x := by
  constructor
  · intro hx
    induction hx with
    | root mem => exact .root mem
    | step _ object stores ih => exact ih.step ((heq _ ih).symm.trans object) stores
  · intro hx
    induction hx with
    | root mem => exact .root mem
    | step from_ object stores ih => exact ih.step ((heq _ from_).trans object) stores

/-- Roots that cover may be fewer. -/
theorem Covers.mono {h : Heap} {roots fewer : List Handle} (hc : h.Covers roots)
    (hsub : ∀ r ∈ fewer, r ∈ roots) : h.Covers fewer := fun x hx => hc x (hx.mono hsub)

/-- What is reached is reached from one of the roots. -/
theorem Reachable.from_root {h : Heap} {roots : List Handle} {x : Handle}
    (hx : h.Reachable roots x) : ∃ r ∈ roots, h.Reachable [r] x := by
  induction hx with
  | root mem => exact ⟨_, mem, .root List.mem_cons_self⟩
  | step _ object stores ih =>
    obtain ⟨r, hr, hx⟩ := ih
    exact ⟨r, hr, hx.step object stores⟩

/-- Roots cover if each of them does. -/
theorem covers_iff {h : Heap} {roots : List Handle} :
    h.Covers roots ↔ ∀ r ∈ roots, h.Covers [r] := by
  constructor
  · intro hc r hr
    refine hc.mono fun x hx => ?_
    rw [List.mem_singleton.mp hx]
    exact hr
  · intro hc x hx
    obtain ⟨r, hr, hx⟩ := hx.from_root
    exact hc r hr x hx

/-- Covering depends on the objects that are reached only. -/
theorem Covers.congr {h h' : Heap} {roots : List Handle} (hc : h.Covers roots)
    (heq : ∀ x, h.Reachable roots x → h'.object? x = h.object? x) : h'.Covers roots := by
  intro x hx
  have hreach := (reachable_congr heq).mp hx
  rw [isLive, heq x hreach]
  exact hc x hreach

/-- A live handle has an object. -/
theorem isLive_iff {h : Heap} {x : Handle} : h.isLive x ↔ ∃ o, h.object? x = some o := by
  simp [isLive, Option.isSome_iff_exists]

end Heap

end ScriptMachine
