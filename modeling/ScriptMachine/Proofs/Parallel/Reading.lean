import ScriptMachine.Heap.Display
import ScriptMachine.Proofs.Parallel.Heaps

/-!
# Reading corresponding heaps

Whatever is read through paired handles or corresponding values is alike on both sides: the same
texts, kinds, type names and printed forms, and objects that correspond. A fault on either side is
left to the proofs that there are none.
-/

namespace ScriptMachine

/-- What both accesses find is related, as far as both find something. -/
def FindAlike {α β : Type} (R : α → β → Prop) (x : Except Fault α) (y : Except Fault β) : Prop :=
  ∀ a b, x = .ok a → y = .ok b → R a b

section Rules

variable {α β γ δ : Type} {R : α → β → Prop} {S : γ → δ → Prop} {x : Except Fault α}
  {y : Except Fault β}

/-- Related answers are alike. -/
theorem findAlike_ok {a : α} {b : β} (h : R a b) : FindAlike R (.ok a) (.ok b) := by
  rintro _ _ ⟨⟩ ⟨⟩
  exact h

/-- What is alike in more is alike in less. -/
theorem FindAlike.imp {R' : α → β → Prop} (h : FindAlike R x y) (himp : ∀ a b, R a b → R' a b) :
    FindAlike R' x y := fun a b ha hb => himp a b (h a b ha hb)

/-- One access after another. -/
theorem FindAlike.bind {f : α → Except Fault γ} {g : β → Except Fault δ} (h : FindAlike R x y)
    (hf : ∀ a b, R a b → FindAlike S (f a) (g b)) : FindAlike S (x >>= f) (y >>= g) := by
  intro c d hc hd
  obtain ⟨a, ha, hc⟩ := exists_of_bind_eq_ok hc
  obtain ⟨b, hb, hd⟩ := exists_of_bind_eq_ok hd
  exact hf a b (h a b ha hb) c d hc hd

end Rules

namespace Heap

variable {h : Heap} {r : Handle}

/-- An object that is shown along some bound methods is shown so along more of them. -/
theorem displayObject_mono {n k : Nat} {text : String} (h : Heap) (hle : n ≤ k) :
    ∀ r, h.displayObject n r = .ok text → h.displayObject k r = .ok text := by
  induction n generalizing k with
  | zero =>
    intro r hr
    cases hr
  | succ n ih =>
    intro r hr
    obtain ⟨k, rfl⟩ : ∃ j, k = j + 1 := Nat.exists_eq_add_of_le' (Nat.zero_lt_of_lt hle)
    rw [displayObject] at hr ⊢
    obtain ⟨o, ho, hr⟩ := exists_of_bind_eq_ok hr
    rw [ho]
    cases o with
    | boundMethod b => exact ih (Nat.le_of_succ_le_succ hle) b.method hr
    | _ => exact hr

end Heap

namespace Pairing

variable {p : Pairing} {h h' : Heap} {x y : Handle} {v w : Value}

/-- An access that finds objects of one kind finds corresponding ones. -/
theorem Heaps.finds {α : Type} {wrap : α → Object} {access : Heap → Handle → Except Fault α}
    (hp : p.Heaps h h') (hxy : p.Pairs x y)
    (haccess : ∀ {h : Heap} {r : Handle} {a : α}, access h r = .ok a → h.object? r = some (wrap a)) :
    FindAlike (fun a b => p.Objects (wrap a) (wrap b)) (access h x) (access h' y) :=
  fun _ _ ha hb => hp.corresponds hxy (haccess ha) (haccess hb)

/-- Paired handles lead to corresponding objects. -/
theorem Heaps.object (hp : p.Heaps h h') (hxy : p.Pairs x y) :
    FindAlike p.Objects (h.object x) (h'.object y) := fun _ _ ha hb =>
  hp.corresponds hxy (Heap.object?_of_object ha) (Heap.object?_of_object hb)

/-- Paired strings have the same text and hash. -/
theorem Heaps.string (hp : p.Heaps h h') (hxy : p.Pairs x y) :
    FindAlike (· = ·) (h.string x) (h'.string y) :=
  (hp.finds hxy Heap.object?_of_string).imp fun _ _ hab => by
    cases hab
    rfl

/-- Paired built-in functions are the same. -/
theorem Heaps.native (hp : p.Heaps h h') (hxy : p.Pairs x y) :
    FindAlike (· = ·) (h.native x) (h'.native y) :=
  (hp.finds hxy Heap.object?_of_native).imp fun _ _ hab => by
    cases hab
    rfl

/-- Paired functions have corresponding prototypes. -/
theorem Heaps.prototype (hp : p.Heaps h h') (hxy : p.Pairs x y) :
    FindAlike p.Prototypes (h.prototype x) (h'.prototype y) :=
  (hp.finds hxy Heap.object?_of_prototype).imp fun _ _ hab => by
    cases hab with
    | function function => exact function

/-- Paired strings make paired keys. -/
theorem Heaps.key (hp : p.Heaps h h') (hxy : p.Pairs x y) :
    FindAlike p.Keys (h.key x) (h'.key y) :=
  (hp.string hxy).bind fun _ _ hs => findAlike_ok ⟨hxy, hs ▸ rfl⟩

/-- Corresponding objects are of one kind. -/
theorem Objects.kind {o o' : Object} (h : p.Objects o o') : o.kind = o'.kind := by
  cases h <;> rfl

/-- What is found through corresponding values is related, if it is so for paired handles. -/
theorem Values.finds {α β : Type} {R : α → β → Prop} {f : Handle → Except Fault α}
    {g : Handle → Except Fault β} {a : Except Fault α} {b : Except Fault β} (hv : p.Values v w)
    (hplain : FindAlike R a b) (href : ∀ x y, p.Pairs x y → FindAlike R (f x) (g y)) :
    FindAlike R (match v.toHandle? with | none => a | some r => f r)
      (match w.toHandle? with | none => b | some r => g r) := by
  have hrel := hv.toHandle?
  generalize v.toHandle? = found at hrel
  generalize w.toHandle? = found' at hrel
  cases hrel with
  | none => exact hplain
  | some pair => exact href _ _ pair

/-- Paired values are objects of the same kind. -/
theorem Heaps.kind? (hp : p.Heaps h h') (hv : p.Values v w) :
    FindAlike (· = ·) (h.kind? v) (h'.kind? w) :=
  hv.finds (findAlike_ok rfl) fun _ _ hxy => (hp.object hxy).bind (f := fun o => .ok (some o.kind))
    (g := fun o => .ok (some o.kind)) fun _ _ ho => findAlike_ok (congrArg some ho.kind)

/-- Paired values are the same string, or none. -/
theorem Heaps.string? (hp : p.Heaps h h') (hv : p.Values v w) :
    FindAlike (· = ·) (h.string? v) (h'.string? w) := by
  refine hv.finds (findAlike_ok rfl) fun x y hxy a b ha hb => ?_
  have hobject := hp.object hxy
  generalize h.object x = found at ha hobject
  generalize h'.object y = found' at hb hobject
  cases found with
  | error _ => cases ha
  | ok o =>
    cases found' with
    | error _ => cases hb
    | ok o' =>
      have ho := hobject o o' rfl rfl
      cases ho <;> cases ha <;> cases hb <;> rfl

/-- Instances found through corresponding values. -/
theorem Heaps.instance? (hp : p.Heaps h h') (hv : p.Values v w) :
    FindAlike (Option.Rel fun i j => v.toHandle? = some i.1 ∧ w.toHandle? = some j.1 ∧
      p.Pairs i.1 j.1 ∧ p.Objects (.instance_ i.2) (.instance_ j.2)) (h.instance? v)
      (h'.instance? w) := by
  intro a b ha hb
  unfold Heap.instance? at ha hb
  have hrel := hv.toHandle?
  generalize v.toHandle? = found at ha hrel
  generalize w.toHandle? = found' at hb hrel
  cases hrel with
  | none =>
    cases ha
    cases hb
    exact .none
  | some hxy =>
    have hobject := hp.object hxy
    dsimp only at ha hb
    split at ha
    · next i hi =>
      split at hb
      · next j hj =>
        cases ha
        cases hb
        exact .some ⟨rfl, rfl, hxy, hobject _ _ hi hj⟩
      · next o' hno hj =>
        have ho := hobject _ _ hi hj
        cases ho
        exact absurd rfl (hno _)
      · cases hb
    · next o hno hi =>
      split at hb
      · next j hj =>
        have ho := hobject _ _ hi hj
        cases ho
        exact absurd rfl (hno _)
      · cases ha
        cases hb
        exact .none
      · cases hb
    · cases ha

/-- Paired values have the same type. -/
theorem Heaps.typeName (hp : p.Heaps h h') (hv : p.Values v w) :
    FindAlike (· = ·) (h.typeName v) (h'.typeName w) := by
  rw [Heap.typeName, Heap.typeName, hv.typeName?]
  split
  · exact findAlike_ok rfl
  · exact (hp.kind? hv).bind fun _ _ hk => findAlike_ok (by rw [hk])

/-! ### Printed forms -/

/-- Paired functions are shown alike. -/
theorem Heaps.displayPrototype {f g : Prototype} (hp : p.Heaps h h') (hfg : p.Prototypes f g) :
    FindAlike (· = ·) (h.displayPrototype f) (h'.displayPrototype g) := by
  have hname := hfg.name
  unfold Heap.displayPrototype
  generalize f.name = name at hname
  generalize g.name = name' at hname
  cases hname with
  | none => exact findAlike_ok rfl
  | some pair => exact (hp.string pair).bind fun _ _ hs => findAlike_ok (by rw [hs])

/-- Paired objects are shown alike, by induction on the depth of what is bound. -/
theorem Heaps.displayObject (hp : p.Heaps h h') (n : Nat) (hxy : p.Pairs x y) :
    FindAlike (· = ·) (h.displayObject n x) (h'.displayObject n y) := by
  induction n generalizing x y with
  | zero =>
    intro _ _ ha
    cases ha
  | succ n ih =>
    rw [Heap.displayObject, Heap.displayObject]
    refine (hp.object hxy).bind fun o o' ho => ?_
    cases ho with
    | string | native | onStack | closed _ => exact findAlike_ok rfl
    | function function => exact hp.displayPrototype function
    | closure function _ =>
      exact (hp.prototype function).bind fun _ _ hf => hp.displayPrototype hf
    | class_ name _ => exact (hp.string name).bind fun _ _ hs => findAlike_ok (by rw [hs])
    | instance_ class_ _ =>
      refine (hp.finds class_ Heap.object?_of_class).bind fun c d hc => ?_
      cases hc with
      | class_ name _ => exact (hp.string name).bind fun _ _ hs => findAlike_ok (by rw [hs])
    | boundMethod _ method => exact ih method

/-- The printed form does not depend on how many slots the arena has. -/
theorem Heaps.display (hp : p.Heaps h h') (hv : p.Values v w) :
    FindAlike (· = ·) (h.display v) (h'.display w) := by
  intro a b ha hb
  unfold Heap.display at ha hb
  have hrel := hv.toHandle?
  generalize v.toHandle? = found at ha hrel
  generalize w.toHandle? = found' at hb hrel
  cases hrel with
  | none =>
    have htext : v.text = w.text := hv.apply_eq fun x y => by simp [Value.text]
    cases ha
    cases hb
    exact htext
  | some hxy =>
    exact hp.displayObject (max (h.slots.size + 1) (h'.slots.size + 1)) hxy a b
      (h.displayObject_mono (Nat.le_max_left _ _) _ ha)
      (h'.displayObject_mono (Nat.le_max_right _ _) _ hb)

end Pairing

end ScriptMachine
