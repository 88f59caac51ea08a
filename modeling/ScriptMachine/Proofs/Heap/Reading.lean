import ScriptMachine.Heap.Display
import ScriptMachine.Proofs.Heap.World

/-!
# Reading known objects

Where a world knows what an object is, the accesses that ask for an object of that kind find it,
and the printed form and the type name of a known value exist.
-/

namespace ScriptMachine.World

variable {W : World} {h : Heap} {r : Handle} {t : ObjectType} {v : Value}

namespace Fits

/-- A known object is there. -/
theorem object (hw : W.Fits h) (ht : W r = some t) :
    ∃ o, h.object r = .ok o ∧ h.object? r = some o ∧ W.Describes t o := by
  obtain ⟨o, ho, hd⟩ := hw r t ht
  exact ⟨o, by rw [Heap.object, ho], ho, hd⟩

/-- A known text is found. -/
theorem string {chars : String} (hw : W.Fits h) (ht : W r = some (.text chars)) :
    h.string r = .ok ⟨chars, Text.hash chars⟩ := by
  obtain ⟨o, ho, -, hd⟩ := hw.object ht
  cases hd
  rw [Heap.string, ho]

/-- The key of a known text. -/
theorem key {chars : String} (hw : W.Fits h) (ht : W r = some (.text chars)) :
    h.key r = .ok ⟨r, Text.hash chars⟩ := by
  rw [Heap.key, hw.string ht]
  rfl

/-- A known function is found, with its code in order. -/
theorem prototype {captures : List Content} (hw : W.Fits h)
    (ht : W r = some (.function captures)) :
    ∃ f, h.prototype r = .ok f ∧ h.object? r = some (.function f) ∧
      W.Describes (.function captures) (.function f) := by
  obtain ⟨o, ho, hobject, hd⟩ := hw.object ht
  cases hd with
  | @function f _ name constants code =>
    exact ⟨f, by rw [Heap.prototype, ho], hobject, .function name constants code⟩

/-- A known closure is found. -/
theorem closure (hw : W.Fits h) (ht : W r = some .closure) :
    ∃ c captures, h.closure r = .ok c ∧ h.object? r = some (.closure c) ∧
      W c.function = some (.function captures) ∧
      List.Forall₂ (fun x content => W x = some (.upvalue content)) c.upvalues.toList captures := by
  obtain ⟨o, ho, hobject, hd⟩ := hw.object ht
  cases hd with
  | @closure c captures function upvalues =>
    exact ⟨c, captures, by rw [Heap.closure, ho], hobject, function, upvalues⟩

/-- A known native function is found; it is called with the argument it needs. -/
theorem native (hw : W.Fits h) (ht : W r = some .native) :
    ∃ n, h.native r = .ok n ∧ (n.action = .clock ∨ n.arity = some 1) := by
  obtain ⟨o, ho, -, hd⟩ := hw.object ht
  cases hd with
  | @native n argument => exact ⟨n, by rw [Heap.native, ho], argument⟩

/-- A known class is found. -/
theorem class_ (hw : W.Fits h) (ht : W r = some .class_) :
    ∃ c chars, h.class_ r = .ok c ∧ h.object? r = some (.class_ c) ∧
      W c.name = some (.text chars) ∧ W.TableOk .closure c.methods := by
  obtain ⟨o, ho, hobject, hd⟩ := hw.object ht
  cases hd with
  | @class_ c chars name methods =>
    exact ⟨c, chars, by rw [Heap.class_, ho], hobject, name, methods⟩

/-- A known instance is found. -/
theorem instance_ (hw : W.Fits h) (ht : W r = some .instance_) :
    ∃ i, h.instance_ r = .ok i ∧ h.object? r = some (.instance_ i) ∧
      W i.class_ = some .class_ ∧ W.TableOk .any i.fields := by
  obtain ⟨o, ho, hobject, hd⟩ := hw.object ht
  cases hd with
  | @instance_ i class_ fields =>
    exact ⟨i, by rw [Heap.instance_, ho], hobject, class_, fields⟩

/-- A known upvalue is found: it stands for a slot, or it has a value as its variable has. -/
theorem upvalue {c : Content} (hw : W.Fits h) (ht : W r = some (.upvalue c)) :
    ∃ u, h.upvalue r = .ok u ∧ h.object? r = some (.upvalue u) ∧
      ((∃ j, u = .onStack j) ∨ ∃ v, u = .closed v ∧ W.Holds v c) := by
  obtain ⟨o, ho, hobject, hd⟩ := hw.object ht
  cases hd with
  | @openUpvalue j => exact ⟨_, by rw [Heap.upvalue, ho], hobject, .inl ⟨j, rfl⟩⟩
  | @closedUpvalue v _ value =>
    exact ⟨_, by rw [Heap.upvalue, ho], hobject, .inr ⟨v, rfl, value⟩⟩

/-- A text that a known value may be is found, or it is none. -/
theorem string? (hw : W.Fits h) (hv : W.Holds v .any) : ∃ s, h.string? v = .ok s := by
  unfold Heap.string?
  split
  · exact ⟨_, rfl⟩
  · next r hat =>
    obtain ⟨t, ht⟩ := hv r hat
    obtain ⟨o, ho, -, -⟩ := hw.object ht
    rw [ho]
    cases o <;> exact ⟨_, rfl⟩

/-- The kind of a known value. -/
theorem kind? (hw : W.Fits h) (hv : W.Holds v .any) : ∃ k, h.kind? v = .ok k := by
  unfold Heap.kind?
  split
  · exact ⟨_, rfl⟩
  · next r hat =>
    obtain ⟨t, ht⟩ := hv r hat
    obtain ⟨o, ho, -, -⟩ := hw.object ht
    rw [ho]
    exact ⟨_, rfl⟩

/-- A value of the kind of classes is known to be a class. -/
theorem class_of_kind? (hw : W.Fits h) (hv : W.Holds v .any)
    (hkind : h.kind? v = .ok (some .class_)) : W.Holds v .class_ := by
  unfold Heap.kind? at hkind
  split at hkind
  · cases hkind
  · next r hat =>
    obtain ⟨t, ht⟩ := hv r hat
    obtain ⟨o, ho, -, hd⟩ := hw.object ht
    rw [ho] at hkind
    cases hd with
    | class_ => exact ⟨r, hat, ht⟩
    | _ => cases hkind

/-- A value of the kind of functions is known to be a function. -/
theorem function_of_kind? (hw : W.Fits h) (hv : W.Holds v .any)
    (hkind : h.kind? v = .ok (some .function)) :
    ∃ r captures, v.toHandle? = some r ∧ W r = some (.function captures) := by
  unfold Heap.kind? at hkind
  split at hkind
  · cases hkind
  · next r hat =>
    obtain ⟨t, ht⟩ := hv r hat
    obtain ⟨o, ho, -, hd⟩ := hw.object ht
    rw [ho] at hkind
    cases hd with
    | function => exact ⟨r, _, hat, ht⟩
    | _ => cases hkind

/-- The instance that a known value may be. -/
theorem instance? (hw : W.Fits h) (hv : W.Holds v .any) :
    h.instance? v = .ok none ∨ ∃ r i, h.instance? v = .ok (some (r, i)) ∧ v.toHandle? = some r ∧
      W r = some .instance_ ∧ W i.class_ = some .class_ ∧ W.TableOk .any i.fields := by
  unfold Heap.instance?
  split
  · exact .inl rfl
  · next r hat =>
    obtain ⟨t, ht⟩ := hv r hat
    obtain ⟨o, ho, -, hd⟩ := hw.object ht
    rw [ho]
    cases hd with
    | @instance_ i class_ fields => exact .inr ⟨r, i, rfl, hat, ht, class_, fields⟩
    | _ => exact .inl rfl

/-- A known value has a type name. -/
theorem typeName (hw : W.Fits h) (hv : W.Holds v .any) : ∃ s, h.typeName v = .ok s := by
  unfold Heap.typeName
  split
  · exact ⟨_, rfl⟩
  · obtain ⟨k, hk⟩ := hw.kind? hv
    rw [hk]
    exact ⟨_, rfl⟩

/-- A known function has a printed form. -/
theorem displayPrototype {captures : List Content} {f : Prototype} (hw : W.Fits h)
    (hd : W.Describes (.function captures) (.function f)) : ∃ s, h.displayPrototype f = .ok s := by
  cases hd with
  | function name constants code =>
    unfold Heap.displayPrototype
    split
    · exact ⟨_, rfl⟩
    · next x hx =>
      obtain ⟨chars, hchars⟩ := name x hx
      rw [hw.string hchars]
      exact ⟨_, rfl⟩

/-- A known closure has a printed form. -/
theorem displayObject_closure (hw : W.Fits h) (ht : W r = some .closure) (n : Nat) :
    ∃ s, h.displayObject (n + 1) r = .ok s := by
  obtain ⟨o, ho, hobject, -⟩ := hw.object ht
  obtain ⟨c, captures, -, hclosure, hfunction, -⟩ := hw.closure ht
  obtain ⟨f, hf, -, hdf⟩ := hw.prototype hfunction
  obtain ⟨s, hs⟩ := hw.displayPrototype hdf
  rw [hobject, Option.some.injEq] at hclosure
  subst hclosure
  rw [Heap.displayObject, ho]
  refine ⟨s, ?_⟩
  show (h.prototype c.function >>= h.displayPrototype) = .ok s
  rw [hf]
  exact hs

/-- A known object has a printed form; a bound method is shown by its method, which is a
closure. -/
theorem displayObject (hw : W.Fits h) (ht : W r = some t) (n : Nat) :
    ∃ s, h.displayObject (n + 2) r = .ok s := by
  obtain ⟨o, ho, -, hd⟩ := hw.object ht
  rw [Heap.displayObject, ho]
  cases hd with
  | text | native | openUpvalue | closedUpvalue => exact ⟨_, rfl⟩
  | function name constants code => exact hw.displayPrototype (.function name constants code)
  | closure function =>
    obtain ⟨f, hf, -, hdf⟩ := hw.prototype function
    obtain ⟨s, hs⟩ := hw.displayPrototype hdf
    refine ⟨s, ?_⟩
    show (h.prototype _ >>= h.displayPrototype) = .ok s
    rw [hf]
    exact hs
  | @class_ c chars name =>
    refine ⟨chars, ?_⟩
    show (h.string c.name >>= fun s => pure s.chars) = .ok chars
    rw [hw.string name]
    rfl
  | @instance_ i class_ =>
    obtain ⟨c, chars, hc, -, hname, -⟩ := hw.class_ class_
    refine ⟨s!"{chars} instance", ?_⟩
    show (h.class_ i.class_ >>= fun c => h.string c.name >>= fun s =>
      pure s!"{s.chars} instance") = .ok _
    rw [hc]
    show (h.string c.name >>= fun s => pure s!"{s.chars} instance") = .ok _
    rw [hw.string hname]
    rfl
  | boundMethod _ method => exact hw.displayObject_closure method n

/-- A known value has a printed form. -/
theorem display (hw : W.Fits h) (hv : W.Holds v .any) : ∃ s, h.display v = .ok s := by
  unfold Heap.display
  split
  · next r hat =>
    obtain ⟨t, ht⟩ := hv r hat
    obtain ⟨o, ho, -⟩ := hw r t ht
    -- there is an object, so there is a slot
    obtain ⟨n, hn⟩ : ∃ n, h.slots.size = n + 1 :=
      Nat.exists_eq_add_of_le' (Nat.zero_lt_of_lt (Heap.slot_lt_of_object? ho))
    rw [hn]
    exact hw.displayObject ht n
  · exact ⟨_, rfl⟩

end Fits

/-- On a sound heap there is one text with a content. -/
theorem text_unique {x : Handle} {chars : String} (hs : h.Sound) (hw : W.Fits h)
    (hr : W r = some (.text chars)) (hx : W x = some (.text chars)) : r = x := by
  obtain ⟨o, ho, hd⟩ := hw r _ hr
  obtain ⟨o', ho', hd'⟩ := hw x _ hx
  cases hd
  cases hd'
  exact hs.interning.unique r x _ _ ho ho' rfl

end ScriptMachine.World
