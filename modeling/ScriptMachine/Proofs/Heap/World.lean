import ScriptMachine.Proofs.Code.Forms
import ScriptMachine.Proofs.Heap.Interning
import ScriptMachine.Proofs.Value.References

/-!
# Worlds

A world says what the objects of a heap are known to be. It fits a heap if every object it knows
is as it says, and refers only to objects it knows. What a world knows of the objects that an
operation keeps alive, it knows afterwards; the rest it may forget.
-/

namespace ScriptMachine

/-- What is known of the objects of a heap. -/
def World := Handle → Option ObjectType

namespace World

variable {W V : World} {h h' : Heap} {roots : List Handle} {r x : Handle} {t : ObjectType}
  {o : Object} {v : Value} {c d : Content}

/-- The world that knows nothing. -/
def nothing : World := fun _ => none

/-- The world knows something of an object. -/
def Knows (W : World) (r : Handle) : Prop := ∃ t, W r = some t

/-- What is known of the object that a value refers to. -/
def typeOf (W : World) (v : Value) : Option ObjectType := v.toHandle?.bind W

/-- The type of a reference is that of its object. -/
theorem typeOf_ofHandle (h : W r = some t) : W.typeOf (.ofHandle r) = some t := by
  rw [typeOf, Value.toHandle?_ofHandle]
  exact h

/-- A value is known to be what a content says; of a reference at least something is known. -/
def Holds (W : World) (v : Value) : Content → Prop
  | .any => ∀ r, v.toHandle? = some r → W.Knows r
  | .class_ => ∃ r, v.toHandle? = some r ∧ W r = some .class_
  | .closure => ∃ r, v.toHandle? = some r ∧ W r = some .closure

/-- A value that is known at all may stand anywhere. -/
theorem Holds.any (h : W.Holds v c) : W.Holds v .any := by
  cases c with
  | any => exact h
  | class_ =>
    obtain ⟨r, hr, ht⟩ := h
    exact fun x hx => ⟨_, (Option.some.inj (hr.symm.trans hx)) ▸ ht⟩
  | closure =>
    obtain ⟨r, hr, ht⟩ := h
    exact fun x hx => ⟨_, (Option.some.inj (hr.symm.trans hx)) ▸ ht⟩

/-- A value that fits one content fits a wider one. -/
theorem Holds.fits (h : W.Holds v c) (hcd : c.Fits d) : W.Holds v d := by
  rcases hcd with rfl | rfl
  · exact h.any
  · exact h

/-- What is no reference may stand anywhere. -/
theorem holds_of_not_reference (h : v.toHandle? = none) : W.Holds v .any := by simp [Holds, h]

/-- A reference to a known object may stand anywhere. -/
theorem holds_ofHandle (h : W r = some t) : W.Holds (.ofHandle r) .any := by
  intro x hx
  rw [Value.toHandle?_ofHandle, Option.some.injEq] at hx
  exact ⟨t, hx ▸ h⟩

/-- What a value is known to be depends on the object it refers to only. -/
theorem Holds.congr (h : W.Holds v c) (heq : ∀ x, v.toHandle? = some x → V x = W x) :
    V.Holds v c := by
  cases c with
  | any =>
    intro x hx
    obtain ⟨t, ht⟩ := h x hx
    exact ⟨t, (heq x hx).trans ht⟩
  | class_ =>
    obtain ⟨r, hr, ht⟩ := h
    exact ⟨r, hr, (heq r hr).trans ht⟩
  | closure =>
    obtain ⟨r, hr, ht⟩ := h
    exact ⟨r, hr, (heq r hr).trans ht⟩

/-- A key of a table is a known text with its own hash. -/
def KeyOk (W : World) (k : Key) : Prop :=
  ∃ chars, W k.string = some (.text chars) ∧ k.hash = Text.hash chars

/-- A valid table whose keys are texts and whose values are as `c` says. -/
structure TableOk (W : World) (c : Content) (t : Table) : Prop where
  valid : t.Valid
  key : ∀ k v, Entry.live k v ∈ t.entries → W.KeyOk k
  value : ∀ k v, Entry.live k v ∈ t.entries → W.Holds v c

/-- The hash that the world gives a text. -/
def hashOf (W : World) (r : Handle) : UInt32 :=
  match W r with
  | some (.text chars) => Text.hash chars
  | _ => 0

/-- The hash of a key is that of its string. -/
theorem KeyOk.hash {k : Key} (h : W.KeyOk k) : k.hash = W.hashOf k.string := by
  obtain ⟨chars, ht, hh⟩ := h
  rw [hh, hashOf, ht]

/-- The keys of a table are hashed by their strings. -/
theorem TableOk.hashedBy {t : Table} (h : W.TableOk c t) : t.HashedBy W.hashOf :=
  fun k v hk => (h.key k v hk).hash

/-- A key that is known agrees with the hashes of the table. -/
theorem TableOk.agrees {t : Table} {k : Key} (h : W.TableOk c t) (hk : W.KeyOk k) :
    Table.Agrees t.entries k := h.hashedBy.agrees hk.hash

/-- The empty table holds nothing else. -/
theorem tableOk_empty : W.TableOk c Table.empty :=
  ⟨Table.valid_empty, by simp [Table.empty], by simp [Table.empty]⟩

/-- A table with one more entry holds what it may. -/
theorem TableOk.insert {t : Table} {k : Key} (h : W.TableOk c t) (hk : W.KeyOk k)
    (hv : W.Holds v c) : W.TableOk c (t.insert k v).2 := by
  have hi := h.valid.insert (h.agrees hk) v
  refine ⟨hi.valid, fun k' v' hmem => ?_, fun k' v' hmem => ?_⟩
  · rcases (hi.mem k' v').mp hmem with ⟨rfl, -⟩ | ⟨hmem, -⟩
    · exact hk
    · exact h.key k' v' hmem
  · rcases (hi.mem k' v').mp hmem with ⟨-, rfl⟩ | ⟨hmem, -⟩
    · exact hv
    · exact h.value k' v' hmem

/-- A table with one entry less holds what it may. -/
theorem TableOk.erase {t : Table} {k : Key} (h : W.TableOk c t) (hk : W.KeyOk k) :
    W.TableOk c (t.erase k).2 := by
  obtain ⟨-, hvalid, hmem⟩ := h.valid.erase (h.agrees hk)
  exact ⟨hvalid, fun k' v' hl => h.key k' v' ((hmem k' v').mp hl).1,
    fun k' v' hl => h.value k' v' ((hmem k' v').mp hl).1⟩

/-- A table that takes over another holds what both may. -/
theorem TableOk.insertAll {t source : Table} (h : W.TableOk c t) (hs : W.TableOk c source) :
    W.TableOk c (t.insertAll source) := by
  obtain ⟨hvalid, -, hmem⟩ := h.valid.insertAll h.hashedBy hs.valid hs.hashedBy
  refine ⟨hvalid, fun k' v' hl => ?_, fun k' v' hl => ?_⟩
  · rcases (hmem k' v').mp hl with hl | ⟨hl, -⟩
    · exact hs.key k' v' hl
    · exact h.key k' v' hl
  · rcases (hmem k' v').mp hl with hl | ⟨hl, -⟩
    · exact hs.value k' v' hl
    · exact h.value k' v' hl

/-- What is found in a table is what it may hold. -/
theorem TableOk.get? {t : Table} {k : Key} (h : W.TableOk c t) (hk : W.KeyOk k)
    (hget : t.get? k = some v) : W.Holds v c := by
  obtain ⟨k', hmem, -⟩ := (h.valid.get?_eq_some_iff (h.agrees hk)).mp hget
  exact h.value k' v hmem

/-- What a table is depends on the objects it stores only. -/
theorem TableOk.congr {t : Table} (h : W.TableOk c t) (heq : ∀ x, t.Stores x → V x = W x) :
    V.TableOk c t := by
  refine ⟨h.valid, fun k v hmem => ?_, fun k v hmem => ?_⟩
  · obtain ⟨chars, ht, hh⟩ := h.key k v hmem
    exact ⟨chars, (heq _ (.key hmem rfl)).trans ht, hh⟩
  · exact (h.value k v hmem).congr fun x hx => heq x (.value hmem hx)

/-- A table stores known objects only. -/
theorem TableOk.knows {t : Table} (h : W.TableOk c t) (hx : t.Stores x) : W.Knows x := by
  rcases hx with ⟨hmem, rfl⟩ | ⟨hmem, hat⟩
  · obtain ⟨chars, ht, -⟩ := h.key _ _ hmem
    exact ⟨_, ht⟩
  · exact (h.value _ _ hmem).any x hat

/-- The context that a function's code is checked in. -/
def context (W : World) (f : Prototype) (captures : List Content) : CodeContext :=
  ⟨f.chunk.constants.toList.map W.typeOf, captures⟩

/-- What an object has to be for a world to know it as something: its own content is in order,
and what it refers to is known. -/
inductive Describes (W : World) : ObjectType → Object → Prop
  | text {chars : String} : Describes W (.text chars) (.string ⟨chars, Text.hash chars⟩)
  | native {n : Native} (argument : n.action = .clock ∨ n.arity = some 1) :
      Describes W .native (.native n)
  | function {f : Prototype} {captures : List Content}
      (name : ∀ r, f.name = some r → ∃ chars, W r = some (.text chars))
      (constants : ∀ v ∈ f.chunk.constants, W.Holds v .any)
      (code : FunctionCode (W.context f captures) f) : Describes W (.function captures) (.function f)
  | closure {c : Closure} {captures : List Content}
      (function : W c.function = some (.function captures))
      (upvalues : List.Forall₂ (fun r content => W r = some (.upvalue content))
        c.upvalues.toList captures) : Describes W .closure (.closure c)
  | openUpvalue {slot : Nat} {content : Content} :
      Describes W (.upvalue content) (.upvalue (.onStack slot))
  | closedUpvalue {v : Value} {content : Content} (value : W.Holds v content) :
      Describes W (.upvalue content) (.upvalue (.closed v))
  | class_ {c : ClassObject} {chars : String} (name : W c.name = some (.text chars))
      (methods : W.TableOk .closure c.methods) : Describes W .class_ (.class_ c)
  | instance_ {i : InstanceObject} (class_ : W i.class_ = some .class_)
      (fields : W.TableOk .any i.fields) : Describes W .instance_ (.instance_ i)
  | boundMethod {b : BoundMethod} (receiver : W.Holds b.receiver .any)
      (method : W b.method = some .closure) : Describes W .boundMethod (.boundMethod b)

/-- A described object stores known objects only. -/
theorem Describes.knows (h : W.Describes t o) (hx : o.Stores x) : W.Knows x := by
  cases h with
  | text => cases hx
  | native => cases hx
  | function name constants _ =>
    cases hx with
    | functionName at_ =>
      obtain ⟨chars, ht⟩ := name _ at_
      exact ⟨_, ht⟩
    | functionConstant mem at_ => exact constants _ mem x at_
  | closure function upvalues =>
    cases hx with
    | closureFunction => exact ⟨_, function⟩
    | closureUpvalue mem =>
      obtain ⟨i, hi⟩ := List.mem_iff_getElem?.mp (Array.mem_toList_iff.mpr mem)
      obtain ⟨hlt, hget⟩ := List.getElem?_eq_some_iff.mp hi
      have hup := (List.forall₂_iff_get.mp upvalues).2 i hlt (upvalues.length_eq ▸ hlt)
      rw [List.get_eq_getElem, hget] at hup
      exact ⟨_, hup⟩
  | openUpvalue => cases hx
  | closedUpvalue value =>
    cases hx with
    | closedValue at_ => exact value.any x at_
  | class_ name methods =>
    cases hx with
    | className => exact ⟨_, name⟩
    | classMethod at_ => exact methods.knows at_
  | instance_ class_ fields =>
    cases hx with
    | instanceClass => exact ⟨_, class_⟩
    | instanceField at_ => exact fields.knows at_
  | boundMethod receiver method =>
    cases hx with
    | receiver at_ => exact receiver x at_
    | boundMethod => exact ⟨_, method⟩

/-- What an object is depends on the objects it stores only. -/
theorem Describes.congr (h : W.Describes t o) (heq : ∀ x, o.Stores x → V x = W x) :
    V.Describes t o := by
  cases h with
  | text => exact .text
  | native argument => exact .native argument
  | @function f captures name constants code =>
    have hconstant (v : Value) (hv : v ∈ f.chunk.constants) (x : Handle)
        (hx : v.toHandle? = some x) : V x = W x := heq x (.functionConstant hv hx)
    have htype (v : Value) (hv : v ∈ f.chunk.constants.toList) : V.typeOf v = W.typeOf v := by
      unfold typeOf
      cases hr : v.toHandle? with
      | none => rfl
      | some x => exact hconstant v (Array.mem_toList_iff.mp hv) x hr
    refine .function (fun r hr => ?_) (fun v hv => ?_) ?_
    · obtain ⟨chars, ht⟩ := name r hr
      exact ⟨chars, (heq r (.functionName hr)).trans ht⟩
    · exact (constants v hv).congr (hconstant v hv)
    · rwa [context, List.map_congr_left htype]
  | closure function upvalues =>
    refine .closure ((heq _ .closureFunction).trans function) ?_
    refine (List.forall₂_iff_get.mpr ⟨upvalues.length_eq, fun i hi hi' => ?_⟩)
    have hup := (List.forall₂_iff_get.mp upvalues).2 i hi hi'
    refine (heq _ (.closureUpvalue ?_)).trans hup
    exact Array.mem_toList_iff.mp (List.get_mem _ _)
  | openUpvalue => exact .openUpvalue
  | closedUpvalue value => exact .closedUpvalue (value.congr fun x hx => heq x (.closedValue hx))
  | class_ name methods =>
    exact .class_ ((heq _ .className).trans name)
      (methods.congr fun x hx => heq x (.classMethod hx))
  | instance_ class_ fields =>
    exact .instance_ ((heq _ .instanceClass).trans class_)
      (fields.congr fun x hx => heq x (.instanceField hx))
  | boundMethod receiver method =>
    exact .boundMethod (receiver.congr fun x hx => heq x (.receiver hx))
      ((heq _ .boundMethod).trans method)

/-- Every object that the world knows is on the heap and is what the world says. -/
def Fits (W : World) (h : Heap) : Prop :=
  ∀ r t, W r = some t → ∃ o, h.object? r = some o ∧ W.Describes t o

/-- Nothing is known of any heap. -/
theorem fits_nothing : nothing.Fits h := by simp [Fits, nothing]

/-- Fitting is about the arena only. -/
theorem Fits.congr (hw : W.Fits h) (hslots : h'.slots = h.slots) : W.Fits h' := by
  intro r t hr
  rw [Heap.object?, hslots]
  exact hw r t hr

/-- What known objects lead to is known. -/
theorem Fits.knows (hw : W.Fits h) (hroots : ∀ x ∈ roots, W.Knows x) (hx : h.Reachable roots x) :
    W.Knows x := by
  induction hx with
  | root mem => exact hroots _ mem
  | step _ object stores ih =>
    obtain ⟨t, ht⟩ := ih
    obtain ⟨o, ho, hd⟩ := hw _ _ ht
    rw [object, Option.some.injEq] at ho
    exact hd.knows (ho ▸ stores)

/-- Known roots lead to live objects only. -/
theorem Fits.covers (hw : W.Fits h) (hroots : ∀ x ∈ roots, W.Knows x) : h.Covers roots := by
  intro x hx
  obtain ⟨t, ht⟩ := hw.knows hroots hx
  obtain ⟨o, ho, -⟩ := hw _ _ ht
  exact Heap.isLive_iff.mpr ⟨o, ho⟩

open Classical in
/-- The world with what it knows of some objects only. -/
noncomputable def restrict (W : World) (kept : Handle → Prop) : World :=
  fun x => if kept x then W x else none

/-- The world that knows one object as something, whatever it knew of it before. -/
def set (W : World) (r : Handle) (t : ObjectType) : World := fun x => if x = r then some t else W x

/-- What is kept is known as before. -/
theorem restrict_of_kept {kept : Handle → Prop} (hx : kept x) : W.restrict kept x = W x := by
  simp [restrict, hx]

/-- What is known after the restriction is kept. -/
theorem kept_of_restrict {kept : Handle → Prop} (hx : W.restrict kept x = some t) :
    kept x ∧ W x = some t := by
  unfold restrict at hx
  split at hx
  · next hk => exact ⟨hk, hx⟩
  · simp at hx

/-- The new object is known. -/
@[simp] theorem set_self : W.set r t r = some t := by simp [set]

/-- The others are known as before. -/
theorem set_of_ne (hne : x ≠ r) : W.set r t x = W x := by simp [set, hne]

/-- Objects that are kept, with what they lead to, stay as known in a world restricted to them. -/
theorem Fits.restrict (hw : W.Fits h)
    (hkept : ∀ x, h.Reachable roots x → h'.object? x = h.object? x) :
    (W.restrict (h.Reachable roots)).Fits h' := by
  intro x t hx
  obtain ⟨hreach, ht⟩ := kept_of_restrict hx
  obtain ⟨o, ho, hd⟩ := hw x t ht
  exact ⟨o, (hkept x hreach).trans ho,
    hd.congr fun y hy => restrict_of_kept (hreach.step ho hy)⟩

/-- `V` is `W` after an operation that made `r` be `t` and kept what `roots` lead to. -/
structure Grows (W : World) (h : Heap) (roots : List Handle) (r : Handle) (t : ObjectType)
    (V : World) : Prop where
  new : V r = some t
  kept : ∀ x s, h.Reachable roots x → W x = some s → V x = some s
  old : ∀ x s, V x = some s → x ≠ r → h.Reachable roots x ∧ W x = some s

/-- An allocated object becomes known as what it is. -/
theorem Fits.alloc (hw : W.Fits h) (ha : Heap.Allocated h roots o r h') (hd : W.Describes t o) :
    ∃ V, V.Fits h' ∧ Grows W h (roots ++ o.references) r t V := by
  have hkept : (W.restrict (h.Reachable (roots ++ o.references))).Fits h' :=
    hw.restrict ha.kept
  have hset (x : Handle) (hx : h.Reachable (roots ++ o.references) x) :
      (W.restrict (h.Reachable (roots ++ o.references))).set r t x = W x := by
    rw [set_of_ne (ha.fresh x hx), restrict_of_kept hx]
  refine ⟨(W.restrict (h.Reachable (roots ++ o.references))).set r t, fun x s hx => ?_,
    ⟨set_self, fun x s hx hs => (hset x hx).trans hs, fun x s hs hne => ?_⟩⟩
  · by_cases hr : x = r
    · subst hr
      rw [set_self, Option.some.injEq] at hx
      refine ⟨o, ha.new, hx ▸ hd.congr fun y hy => hset y (.root ?_)⟩
      exact List.mem_append_right _ (Object.mem_references.mpr hy)
    · rw [set_of_ne hr] at hx
      obtain ⟨o', ho', hd'⟩ := hkept x s hx
      obtain ⟨hreach, hs⟩ := kept_of_restrict hx
      refine ⟨o', ho', hd'.congr fun y hy => ?_⟩
      have hy' : h.Reachable (roots ++ o.references) y :=
        hreach.step ((ha.kept x hreach).symm.trans ho') hy
      rw [hset y hy', restrict_of_kept hy']
  · rw [set_of_ne hne] at hs
    exact kept_of_restrict hs

/-- An interned text becomes known as what it is. -/
theorem Fits.intern {chars : String} (hw : W.Fits h) (hi : Heap.InternedAs h roots chars r h') :
    ∃ V, V.Fits h' ∧ Grows W h roots r (.text chars) V := by
  have hkept : (W.restrict (h.Reachable roots)).Fits h' := hw.restrict hi.kept
  have hset (x : Handle) (s : ObjectType) (hx : h.Reachable roots x) (hs : W x = some s) :
      (W.restrict (h.Reachable roots)).set r (.text chars) x = some s := by
    by_cases hr : x = r
    · -- a text that lived before is the same text
      subst hr
      obtain ⟨o, ho, hd⟩ := hw x s hs
      have hnew := hi.new
      rw [hi.kept x hx, ho, Option.some.injEq] at hnew
      subst hnew
      cases hd
      exact set_self
    · rw [set_of_ne hr, restrict_of_kept hx, hs]
  refine ⟨(W.restrict (h.Reachable roots)).set r (.text chars), fun x s hx => ?_,
    ⟨set_self, hset, fun x s hs hne => ?_⟩⟩
  · by_cases hr : x = r
    · subst hr
      rw [set_self, Option.some.injEq] at hx
      exact ⟨_, hi.new, hx ▸ .text⟩
    · rw [set_of_ne hr] at hx
      obtain ⟨o', ho', hd'⟩ := hkept x s hx
      obtain ⟨hreach, hs⟩ := kept_of_restrict hx
      obtain ⟨o, ho, hd⟩ := hw x s hs
      have hoo : o' = o := by
        rw [hi.kept x hreach, ho] at ho'
        exact (Option.some.inj ho').symm
      subst hoo
      refine ⟨o', ho', hd.congr fun y hy => ?_⟩
      obtain ⟨u, hu⟩ := hd.knows hy
      rw [hset y u (hreach.step ho hy) hu, hu]
  · rw [set_of_ne hne] at hs
    exact kept_of_restrict hs

/-- An object may be replaced by another one that is known as the same. -/
theorem Fits.replace {o' : Object} (hw : W.Fits h) (hr : W r = some t) (hd : W.Describes t o')
    (hobject : ∀ x, (h.replace r o').object? x = if x = r then some o' else h.object? x) :
    W.Fits (h.replace r o') := by
  intro x s hs
  rw [hobject]
  by_cases hx : x = r
  · subst hx
    rw [hr, Option.some.injEq] at hs
    exact ⟨o', by simp, hs ▸ hd⟩
  · simpa [hx] using hw x s hs

end World

end ScriptMachine
