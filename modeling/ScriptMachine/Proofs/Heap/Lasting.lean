import ScriptMachine.Proofs.Heap.Interning
import ScriptMachine.Proofs.Heap.Updates

/-!
# What lasts on a heap

Texts, functions and closures never change, and an upvalue that stands for no slot never stands for
one again. Whatever survives an operation of the heap survives with all that it stores. So the code
of a closure and the methods of a class are what they were, unless the operation made the object or
was meant for it.
-/

namespace ScriptMachine

namespace Object

/-- Texts, functions and closures are never changed. -/
def isFixed : Object → Bool
  | string _ | function _ | closure _ => true
  | native _ | upvalue _ | class_ _ | instance_ _ | boundMethod _ => false

/-- Closures have code, and classes have methods. -/
def hasCode : Object → Bool
  | closure _ | class_ _ => true
  | string _ | function _ | native _ | upvalue _ | instance_ _ | boundMethod _ => false

/-- What may become of an object that survives: a fixed one stays what it is, and no other one than
before stands for a slot. -/
structure Becomes (o o' : Object) : Prop where
  fixed : o.isFixed = true → o' = o
  stands : ∀ j, o' = .upvalue (.onStack j) → o = o'

/-- Every object becomes itself. -/
theorem Becomes.refl (o : Object) : o.Becomes o := ⟨fun _ => rfl, fun _ _ => rfl⟩

/-- Becoming twice is becoming. -/
theorem Becomes.trans {o o₁ o' : Object} (h : o.Becomes o₁) (h' : o₁.Becomes o') : o.Becomes o' where
  fixed hfixed := by
    obtain rfl := h.fixed hfixed
    exact h'.fixed hfixed
  stands j hj := by
    obtain rfl := h'.stands j hj
    exact h.stands j hj

/-- Whatever is not fixed may become anything that stands for no slot. -/
theorem becomes_of_not_fixed {o o' : Object} (hfixed : o.isFixed = false)
    (hstands : ∀ j, o' ≠ .upvalue (.onStack j)) : o.Becomes o' where
  fixed h := by
    rw [hfixed] at h
    cases h
  stands j hj := absurd hj (hstands j)

/-- The handle that an object enters those with code by. -/
def entry (o : Object) (r : Handle) : List Handle := if o.hasCode then [r] else []

/-- A new object enters if it has code. -/
theorem mem_entry {o : Object} {r x : Handle} : x ∈ o.entry r ↔ o.hasCode = true ∧ x = r := by
  unfold entry
  split <;> simp_all

end Object

namespace Heap

variable {h h₁ h' : Heap} {x y z r : Handle} {o o' : Object} {new new' : List Handle}

/-- An object involves itself and what the fixed objects store that it involves. -/
inductive Involves (h : Heap) (x : Handle) : Handle → Prop
  | self : Involves h x x
  | stored {y z : Handle} {o : Object} (from_ : Involves h x y) (object : h.object? y = some o)
      (fixed : o.isFixed = true) (stores : o.Stores z) : Involves h x z

/-- What roots lead to involves only what they lead to. -/
theorem Involves.reachable {roots : List Handle} (hy : h.Involves x y)
    (hx : h.Reachable roots x) : h.Reachable roots y := by
  induction hy with
  | self => exact hx
  | stored _ object _ stores ih => exact ih.step object stores

/-- Where the fixed objects that one involves are on another heap too, it involves the same there. -/
theorem Involves.mono (hy : h.Involves x y) (hfixed : ∀ z o, h.Involves x z →
    h.object? z = some o → o.isFixed = true → h'.object? z = some o) : h'.Involves x y := by
  induction hy with
  | self => exact .self
  | stored from_ object fixed stores ih =>
    exact ih.stored (hfixed _ _ from_ object fixed) fixed stores

/-- All that an object involves survives from `h` to `h'`. -/
def Lasts (h h' : Heap) (x : Handle) : Prop :=
  ∀ y o, h.Involves x y → h.object? y = some o → ∃ o', h'.object? y = some o' ∧ o.Becomes o'

/-- What lasts and is fixed is what it was. -/
theorem Lasts.object (hl : h.Lasts h' x) (hy : h.Involves x y) (ho : h.object? y = some o)
    (hfixed : o.isFixed = true) : h'.object? y = some o := by
  obtain ⟨o', ho', hb⟩ := hl y o hy ho
  rwa [hb.fixed hfixed] at ho'

/-- Lasting twice is lasting. -/
theorem Lasts.trans (hl : h.Lasts h₁ x) (hl' : h₁.Lasts h' x) : h.Lasts h' x := by
  intro y o hy ho
  obtain ⟨o₁, ho₁, hb⟩ := hl y o hy ho
  obtain ⟨o', ho', hb'⟩ := hl' y o₁ (hy.mono fun z o hz => hl.object hz) ho₁
  exact ⟨o', ho', hb.trans hb'⟩

/-- The closures and classes of `h'` other than `new` are those of `h`, and what they store lasts. -/
structure Retains (new : List Handle) (h h' : Heap) : Prop where
  object : ∀ x o, h'.object? x = some o → o.hasCode = true → x ∉ new → h.object? x = some o
  stored : ∀ x o z, h'.object? x = some o → o.hasCode = true → x ∉ new → o.Stores z →
    h.Lasts h' z

namespace Retains

/-- Heaps with the same objects retain each other's. -/
theorem of_object?_eq (heq : ∀ x, h'.object? x = h.object? x) : Retains new h h' where
  object x _ hx _ _ := heq x ▸ hx
  stored _ _ _ _ _ _ _ := fun y o _ ho => ⟨o, (heq y).trans ho, .refl o⟩

/-- Every heap retains its own objects. -/
theorem refl (h : Heap) : Retains new h h := of_object?_eq fun _ => rfl

/-- What is retained twice is retained, with what is new on both occasions. -/
theorem trans (hr : Retains new h h₁) (hr' : Retains new' h₁ h') : Retains (new ++ new') h h' where
  object x o hx hc hnew := by
    rw [List.mem_append, not_or] at hnew
    exact hr.object x o (hr'.object x o hx hc hnew.2) hc hnew.1
  stored x o z hx hc hnew hz := by
    rw [List.mem_append, not_or] at hnew
    exact (hr.stored x o z (hr'.object x o hx hc hnew.2) hc hnew.1 hz).trans
      (hr'.stored x o z hx hc hnew.2 hz)

/-- The account, the pacing and the journal do not matter. -/
theorem of_alike (ha : h.Alike h') : Retains new h h' := of_object?_eq ha.object?

/-- What a heap retains, one with the same objects retains. -/
theorem congr {h₂ : Heap} (hr : Retains new h h') (ha : h'.Alike h₂) : Retains new h h₂ := by
  have hsame : Retains [] h' h₂ := of_alike ha
  simpa using hr.trans hsame

/-- What survives a collection is reached, and so is what it stores. -/
theorem collect (hc : h.Unmarked) (roots : List Handle) : Retains [] h (h.collect roots) where
  object x o hx _ _ := (reachable_of_object?_collect hc hx).2
  stored x o z hx _ _ hz := fun y o' hy ho' => by
    obtain ⟨hreach, ho⟩ := reachable_of_object?_collect hc hx
    exact ⟨o', (object?_collect hc (hy.reachable (hreach.step ho hz))).trans ho', .refl o'⟩

end Retains

/-- A heap with a new object retains the others. -/
theorem Inserted.retains (hi : Inserted h o r h') : Retains (o.entry r) h h' where
  object x o' hx hc hnew := by
    rw [hi.object?] at hx
    split at hx
    · next heq =>
      obtain rfl := Option.some.inj hx
      exact absurd (Object.mem_entry.mpr ⟨hc, heq⟩) hnew
    · exact hx
  stored _ _ _ _ _ _ _ := fun y o' _ ho' => by
    refine ⟨o', ?_, .refl o'⟩
    rw [hi.object?, if_neg ?_, ho']
    rintro rfl
    cases hi.vacant.symm.trans ho'

/-- An insertion retains the closures and the classes. -/
theorem Arena.retains_insert (ha : h.Arena) (hdone : h.insert o = .ok (r, h')) :
    Retains (o.entry r) h h' := by
  rcases ha.insert o with ⟨r', h'', hok, hins⟩ | hfull
  · obtain ⟨rfl, rfl⟩ := Prod.mk.inj (Except.ok.inj (hok.symm.trans hdone))
    exact hins.retains
  · cases hfull.symm.trans hdone

/-- So does an allocation, whatever is collected before. -/
theorem retains_alloc {roots : Unit → List Handle} (ha : h.Arena) (hc : h.Unmarked)
    (hdone : h.alloc o roots = .ok (r, h')) : Retains (o.entry r) h h' := by
  unfold alloc at hdone
  split at hdone
  · exact (Retains.collect hc _).trans ((ha.collect _).retains_insert hdone)
  · exact ha.retains_insert hdone

/-- Interning retains all objects: a string has no code. -/
theorem retains_intern {chars : String} {roots : Unit → List Handle} (ha : h.Arena)
    (hc : h.Unmarked) (hdone : h.intern chars roots = .ok (r, h')) : Retains [] h h' := by
  unfold intern at hdone
  dsimp only at hdone
  split at hdone
  · obtain ⟨-, rfl⟩ := Prod.mk.inj (Except.ok.inj hdone)
    exact .refl h
  · split at hdone
    · cases hdone
    · next hok =>
      obtain ⟨-, rfl⟩ := Prod.mk.inj (Except.ok.inj hdone)
      have hmade : Retains [] h _ := retains_alloc ha hc hok
      exact hmade.trans (.of_object?_eq fun _ => rfl)

/-- Replacing an object retains the closures and the classes, but perhaps for the new one. -/
theorem retains_replace (ho : h.object? r = some o) (hb : o.Becomes o') :
    Retains (o'.entry r) h (h.replace r o') where
  object x o₁ hx hc hnew := by
    rw [object?_replace o' ho] at hx
    split at hx
    · next heq =>
      obtain rfl := Option.some.inj hx
      exact absurd (Object.mem_entry.mpr ⟨hc, heq⟩) hnew
    · exact hx
  stored _ _ _ _ _ _ _ := fun y o₁ _ ho₁ => by
    rw [object?_replace o' ho]
    split
    · next heq =>
      subst heq
      obtain rfl := Option.some.inj (ho.symm.trans ho₁)
      exact ⟨o', rfl, hb⟩
    · exact ⟨o₁, ho₁, .refl o₁⟩

end Heap

end ScriptMachine
