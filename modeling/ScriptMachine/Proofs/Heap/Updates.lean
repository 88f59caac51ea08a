import ScriptMachine.Proofs.Heap.Interning

/-!
# What updates of objects do

An access that succeeds has found an object of the right kind. So an update that succeeds has
replaced one object by another of its kind, and has charged what a table of it grew by.
-/

namespace ScriptMachine

/-- A chain that succeeds has succeeded in its first step. -/
theorem exists_of_bind_eq_ok {ε α β : Type} {x : Except ε α} {f : α → Except ε β} {b : β}
    (h : (x >>= f) = .ok b) : ∃ a, x = .ok a ∧ f a = .ok b := by
  cases x with
  | error e => cases h
  | ok a => exact ⟨a, rfl, h⟩

/-- A test that a chain's answer passes was put to an answer. -/
theorem exists_of_toOption_any {ε α : Type} {x : Except ε α} {g : α → Bool}
    (h : x.toOption.any g = true) : ∃ a, x = .ok a ∧ g a = true := by
  cases x with
  | error e => cases h
  | ok a => exact ⟨a, rfl, h⟩

namespace Heap

variable {h h' : Heap} {r : Handle} {o : Object}

/-! ### Accesses -/

/-- An object that is found is there. -/
theorem object?_of_object (ho : h.object r = .ok o) : h.object? r = some o := by
  unfold object at ho
  split at ho
  · next o' heq =>
    rw [heq]
    exact congrArg some (Except.ok.inj ho)
  · cases ho

/-- An instance that is found is there. -/
theorem object?_of_instance {i : InstanceObject} (hi : h.instance_ r = .ok i) :
    h.object? r = some (.instance_ i) := by
  unfold instance_ at hi
  split at hi
  · next i' heq =>
    rw [← Except.ok.inj hi]
    exact object?_of_object heq
  · cases hi
  · cases hi

/-- A class that is found is there. -/
theorem object?_of_class {c : ClassObject} (hc : h.class_ r = .ok c) :
    h.object? r = some (.class_ c) := by
  unfold class_ at hc
  split at hc
  · next c' heq =>
    rw [← Except.ok.inj hc]
    exact object?_of_object heq
  · cases hc
  · cases hc

/-- A closure that is found is there. -/
theorem object?_of_closure {c : Closure} (hc : h.closure r = .ok c) :
    h.object? r = some (.closure c) := by
  unfold closure at hc
  split at hc
  · next c' heq =>
    rw [← Except.ok.inj hc]
    exact object?_of_object heq
  · cases hc
  · cases hc

/-- An upvalue that is found is there. -/
theorem object?_of_upvalue {u : Upvalue} (hu : h.upvalue r = .ok u) :
    h.object? r = some (.upvalue u) := by
  unfold upvalue at hu
  split at hu
  · next u' heq =>
    rw [← Except.ok.inj hu]
    exact object?_of_object heq
  · cases hu
  · cases hu

/-- A string that is found is there. -/
theorem object?_of_string {s : Interned} (hs : h.string r = .ok s) :
    h.object? r = some (.string s) := by
  unfold string at hs
  split at hs
  · next heq =>
    rw [← Except.ok.inj hs]
    exact object?_of_object heq
  · cases hs
  · cases hs

/-- A function that is found is there. -/
theorem object?_of_prototype {f : Prototype} (hf : h.prototype r = .ok f) :
    h.object? r = some (.function f) := by
  unfold prototype at hf
  split at hf
  · next heq =>
    rw [← Except.ok.inj hf]
    exact object?_of_object heq
  · cases hf
  · cases hf

/-- A built-in function that is found is there. -/
theorem object?_of_native {n : Native} (hn : h.native r = .ok n) :
    h.object? r = some (.native n) := by
  unfold native at hn
  split at hn
  · next heq =>
    rw [← Except.ok.inj hn]
    exact object?_of_object heq
  · cases hn
  · cases hn

/-! ### Updates -/

/-- Setting a field that succeeds has found an instance and has replaced it. -/
theorem exists_of_setField {key : Key} {v : Value} {isNew : Bool}
    (hdone : h.setField r key v = .ok (isNew, h')) :
    ∃ i, h.object? r = some (.instance_ i) ∧ isNew = (i.fields.insert key v).1 ∧
      h' = (h.replace r (.instance_ { i with fields := (i.fields.insert key v).2 })).chargeGrowth
        i.fields.capacity (i.fields.insert key v).2.capacity := by
  obtain ⟨i, hi, hrest⟩ := exists_of_bind_eq_ok hdone
  obtain ⟨hnew, hheap⟩ := Prod.mk.inj (Except.ok.inj hrest)
  exact ⟨i, object?_of_instance hi, hnew.symm, hheap.symm⟩

/-- Setting a method that succeeds has found a class and has replaced it. -/
theorem exists_of_setMethod {key : Key} {v : Value} (hdone : h.setMethod r key v = .ok h') :
    ∃ c, h.object? r = some (.class_ c) ∧
      h' = (h.replace r (.class_ { c with methods := (c.methods.insert key v).2 })).chargeGrowth
        c.methods.capacity (c.methods.insert key v).2.capacity := by
  obtain ⟨c, hc, hrest⟩ := exists_of_bind_eq_ok hdone
  exact ⟨c, object?_of_class hc, (Except.ok.inj hrest).symm⟩

/-- Inheriting that succeeds has found two classes and has replaced the heir. -/
theorem exists_of_inherit {subclass superclass : Handle}
    (hdone : h.inherit subclass superclass = .ok h') :
    ∃ s c, h.object? superclass = some (.class_ s) ∧ h.object? subclass = some (.class_ c) ∧
      h' = (h.replace subclass
        (.class_ { c with methods := c.methods.insertAll s.methods })).chargeGrowth
        c.methods.capacity (c.methods.insertAll s.methods).capacity := by
  obtain ⟨s, hs, hrest⟩ := exists_of_bind_eq_ok hdone
  obtain ⟨c, hc, hrest⟩ := exists_of_bind_eq_ok hrest
  exact ⟨s, c, object?_of_class hs, object?_of_class hc, (Except.ok.inj hrest).symm⟩

/-- Setting an upvalue that succeeds has found an upvalue and has replaced it. -/
theorem exists_of_setUpvalue {u : Upvalue} (hdone : h.setUpvalue r u = .ok h') :
    ∃ old, h.object? r = some (.upvalue old) ∧ h' = h.replace r (.upvalue u) := by
  obtain ⟨old, hold, hrest⟩ := exists_of_bind_eq_ok hdone
  exact ⟨old, object?_of_upvalue hold, (Except.ok.inj hrest).symm⟩

end Heap

end ScriptMachine
