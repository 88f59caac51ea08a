import ScriptMachine.Proofs.Heap.Building
import ScriptMachine.Proofs.Heap.Account

/-!
# Slots and what lives in them

Whatever operations made a heap, its free list names every empty slot once, so the count of live
objects is exact. An object enters an empty slot and stays there: updates change it in its place,
and it leaves only when a collection frees it. Marks play no part in this, so it holds for all
roots, also for handles whose objects are long gone.
-/

namespace ScriptMachine

namespace Object

/-- The same object later: the fields of an instance, the methods of a class and the state of an
upvalue may be others, all else is as it was. -/
inductive Remains : Object → Object → Prop
  | same (o : Object) : Remains o o
  | fields (class_ : Handle) (t t' : Table) : Remains (.instance_ ⟨class_, t⟩) (.instance_ ⟨class_, t'⟩)
  | methods (name : Handle) (t t' : Table) : Remains (.class_ ⟨name, t⟩) (.class_ ⟨name, t'⟩)
  | state (u u' : Upvalue) : Remains (.upvalue u) (.upvalue u')

/-- Remaining twice is remaining. -/
theorem Remains.trans {o o₁ o' : Object} (h : o.Remains o₁) (h' : o₁.Remains o') : o.Remains o' := by
  cases h with
  | same => exact h'
  | fields class_ t t₁ =>
    cases h' with
    | same => exact .fields class_ t t₁
    | fields _ _ t' => exact .fields class_ t t'
  | methods name t t₁ =>
    cases h' with
    | same => exact .methods name t t₁
    | methods _ _ t' => exact .methods name t t'
  | state u u₁ =>
    cases h' with
    | same => exact .state u u₁
    | state _ u' => exact .state u u'

end Object

namespace Heap

variable {h h' : Heap} {o : Object} {r x : Handle}

/-- The handles on the free list name the empty slots, each by its position. -/
theorem Arena.free_perm (ha : h.Arena) :
    (h.free.map Handle.slot).Perm
      ((List.range h.slots.size).filter fun i => !(h.slots[i]?.join).isSome) := by
  have hnodup : (h.free.map Handle.slot).Nodup :=
    List.Nodup.map (fun _ _ hslots => Handle.slot_injective hslots) ha.nodup
  apply (List.perm_ext_iff_of_nodup hnodup (List.nodup_range.filter _)).mpr
  intro i
  rw [List.mem_map, List.mem_filter, List.mem_range]
  constructor
  · rintro ⟨x, hx, rfl⟩
    obtain ⟨hlt, hnone⟩ := (ha.free x).mp hx
    exact ⟨hlt, by rw [← Heap.object?, hnone]; rfl⟩
  · rintro ⟨hlt, hempty⟩
    have hslot : Handle.slot ⟨i.toUInt32⟩ = i := Handle.slot_mk (Nat.lt_of_lt_of_le hlt ha.size)
    refine ⟨⟨i.toUInt32⟩, (ha.free _).mpr ?_, hslot⟩
    rw [Heap.object?, hslot]
    exact ⟨hlt, by simpa using hempty⟩

/-- The slots of an arena, read position by position. -/
theorem toList_eq_map_range (slots : Array (Option Object)) :
    slots.toList = (List.range slots.size).map fun i => slots[i]?.join := by
  apply List.ext_getElem
  · simp
  · intro i hi _
    simp only [Array.length_toList] at hi
    simp [hi]

/-- The size of a heap is the number of slots that hold an object. -/
theorem Arena.size_eq (ha : h.Arena) : h.size = h.slots.countP Option.isSome := by
  have hempty : h.free.length =
      ((List.range h.slots.size).filter fun i => !(h.slots[i]?.join).isSome).length := by
    rw [← ha.free_perm.length_eq, List.length_map]
  have hlive : h.slots.countP Option.isSome =
      ((List.range h.slots.size).filter fun i => (h.slots[i]?.join).isSome).length := by
    rw [← Array.countP_toList, toList_eq_map_range, List.countP_map, List.countP_eq_length_filter]
    rfl
  have hsplit := List.length_eq_length_filter_add (l := List.range h.slots.size)
    fun i => (h.slots[i]?.join).isSome
  rw [List.length_range] at hsplit
  rw [Heap.size, hempty, hlive]
  omega

/-- Where an insertion puts its object: into a slot of the free list, or past the end. -/
theorem slot_of_insert (hdone : h.insert o = .ok (r, h')) :
    r ∈ h.free ∨ h.free = [] ∧ r.slot = h.slots.size := by
  unfold Heap.insert at hdone
  split at hdone
  · next r' rest hfree =>
    obtain ⟨rfl, -⟩ := Prod.mk.inj (Except.ok.inj hdone)
    exact .inl (hfree ▸ List.mem_cons_self)
  · next hfree =>
    split at hdone
    · next hsize =>
      obtain ⟨rfl, -⟩ := Prod.mk.inj (Except.ok.inj hdone)
      exact .inr ⟨hfree, Handle.slot_mk hsize⟩
    · cases hdone

/-- What an allocation comes to: the object enters an empty slot of the heap as it was or after a
collection, and no other slot changes; or every slot of the largest arena is taken. -/
inductive Places (h : Heap) (o : Object) (roots : List Handle) : Except Fault (Handle × Heap) → Prop
  | placed {h₁ h' : Heap} {r : Handle} (prepared : h₁ = h ∨ h₁ = h.collect roots)
      (slot : r ∈ h₁.free ∨ h₁.free = [] ∧ r.slot = h₁.slots.size) (vacant : h₁.object? r = none)
      (live : h'.object? r = some o) (others : ∀ x, x ≠ r → h'.object? x = h₁.object? x) :
      Places h o roots (.ok (r, h'))
  | full {h₁ : Heap} (prepared : h₁ = h ∨ h₁ = h.collect roots) (taken : ∀ x, h₁.isLive x) :
      Places h o roots (.error .arenaFull)

/-- An allocation places its object. -/
theorem Arena.places (ha : h.Arena) (o : Object) (roots : Unit → List Handle) :
    Places h o (roots () ++ o.references) (h.alloc o roots) := by
  have hinsert {h₁ : Heap} (ha₁ : h₁.Arena)
      (prepared : h₁ = h ∨ h₁ = h.collect (roots () ++ o.references)) :
      Places h o (roots () ++ o.references) (h₁.insert o) := by
    rcases ha₁.insert o with ⟨r, h', hdone, hins⟩ | hfull
    · rw [hdone]
      exact .placed prepared (slot_of_insert hdone) hins.vacant (by simp [hins.object?])
        fun x hx => by rw [hins.object?, if_neg hx]
    · rw [hfull]
      exact .full prepared (ha₁.full hfull)
  unfold Heap.alloc
  split
  · exact hinsert (ha.collect _) (.inr rfl)
  · exact hinsert ha (.inl rfl)

/-- Interning finds a text and changes nothing, or it allocates one. -/
theorem Arena.places_intern (ha : h.Arena) (chars : String) (roots : Unit → List Handle) :
    (∃ r, h.intern chars roots = .ok (r, h)) ∨
      Places h (.string ⟨chars, Text.hash chars⟩) (roots ()) (h.intern chars roots) := by
  unfold Heap.intern
  dsimp only
  split
  · exact .inl ⟨_, rfl⟩
  · right
    have hplaces := ha.places (.string ⟨chars, Text.hash chars⟩) roots
    rw [show roots () ++ (Object.string ⟨chars, Text.hash chars⟩).references = roots () from
      List.append_nil _] at hplaces
    cases hdone : h.alloc (.string ⟨chars, Text.hash chars⟩) roots with
    | error e =>
      rw [hdone] at hplaces
      cases hplaces with
      | full prepared taken => exact .full prepared taken
    | ok made =>
      rw [hdone] at hplaces
      cases hplaces with
      | placed prepared slot vacant live others => exact .placed prepared slot vacant live others

end Heap

namespace Memory

open Heap

variable {s s' : Memory} {charge : Nat} {x : Handle} {o : Object}

/-- What one operation does to one slot. -/
inductive Tenancy (s s' : Memory) (x : Handle) : Prop
  | kept (same : s'.heap.object? x = s.heap.object? x)
  | updated {o o' : Object} (before : s.heap.object? x = some o)
      (after : s'.heap.object? x = some o') (remains : o.Remains o')
  | freed (roots : List Handle) (swept : s'.heap = s.heap.collect roots)
      (gone : s'.heap.object? x = none)
  | filled {o : Object} (vacant : s.heap.object? x = none)
      (inserted : s.heap.insert o = .ok (x, s'.heap)) (new : s'.heap.object? x = some o)

/-- Replacing an object by what it remains as updates its slot and keeps all others. -/
theorem tenancy_replace {h h' : Heap} {g g' : Table} {r : Handle} {o' : Object} (x : Handle)
    (ho : h.object? r = some o) (hslots : h'.slots = (h.replace r o').slots)
    (hremains : o.Remains o') : Tenancy ⟨h, g⟩ ⟨h', g'⟩ x := by
  have hobject : h'.object? x = if x = r then some o' else h.object? x := by
    rw [Heap.object?, hslots]
    exact object?_replace o' ho x
  by_cases hx : x = r
  · subst hx
    exact .updated ho (by rw [hobject, if_pos rfl]) hremains
  · exact .kept (by rw [hobject, if_neg hx])

/-- Every operation keeps an object in its slot, updates it there, frees it by a collection, or puts
a new object into an empty slot. -/
theorem Operation.tenancy (hop : Operation s charge s') (ha : s.heap.Arena) (x : Handle) :
    Tenancy s s' x := by
  cases hop with
  | @insert h h' g o r hdone =>
    rcases Heap.Arena.insert ha o with ⟨r', h'', hok, hins⟩ | hfull
    · obtain ⟨rfl, rfl⟩ := Prod.mk.inj (Except.ok.inj (hok.symm.trans hdone))
      by_cases hx : x = r'
      · subst hx
        exact .filled hins.vacant hdone (by rw [hins.object?, if_pos rfl])
      · exact .kept (by rw [hins.object?, if_neg hx])
    · cases hfull.symm.trans hdone
  | @collect h g roots =>
    rcases object?_collect_eq h roots x with ⟨-, hkept⟩ | ⟨-, hgone⟩
    · exact .kept hkept
    · exact .freed roots rfl hgone
  | setField _ hdone =>
    obtain ⟨i, hi, -, rfl⟩ := exists_of_setField hdone
    exact tenancy_replace x hi rfl (.fields i.class_ _ _)
  | setMethod _ hdone =>
    obtain ⟨c, hc, rfl⟩ := exists_of_setMethod hdone
    exact tenancy_replace x hc rfl (.methods c.name _ _)
  | inherit _ _ hdone =>
    obtain ⟨s, c, -, hc, rfl⟩ := exists_of_inherit hdone
    exact tenancy_replace x hc rfl (.methods c.name _ _)
  | setUpvalue hdone =>
    obtain ⟨old, hold, rfl⟩ := exists_of_setUpvalue hdone
    exact tenancy_replace x hold rfl (.state old _)
  | addString | setGlobal | eraseGlobal | keepEvents => exact .kept rfl

/-- Along a path the free list stays exact. -/
theorem Path.arena (hp : s.Path s') (ha : s.heap.Arena) : s'.heap.Arena := by
  induction hp with
  | refl => exact ha
  | tail _ hop ih =>
    obtain ⟨charge, hop⟩ := hop
    exact hop.arena ih

/-- Along a path an object remains in its slot until it is freed. -/
theorem Path.remains (hp : s.Path s') (ha : s.heap.Arena) (ho : s.heap.object? x = some o) :
    (∃ m, s.Path m ∧ m.Path s' ∧ m.heap.object? x = none) ∨
      ∃ o', s'.heap.object? x = some o' ∧ o.Remains o' := by
  induction hp with
  | refl => exact .inr ⟨o, ho, .same o⟩
  | @tail m s' hp hop ih =>
    obtain ⟨charge, hop⟩ := hop
    rcases ih with ⟨m', hto, hfrom, hgone⟩ | ⟨o₁, ho₁, hremains⟩
    · exact .inl ⟨m', hto, hfrom.trans hop.path, hgone⟩
    · cases hop.tenancy (Path.arena hp ha) x with
      | kept same => exact .inr ⟨o₁, same.trans ho₁, hremains⟩
      | updated before after changed =>
        obtain rfl := Option.some.inj (ho₁.symm.trans before)
        exact .inr ⟨_, after, hremains.trans changed⟩
      | freed roots swept gone => exact .inl ⟨s', hp.trans hop.path, .refl s', gone⟩
      | filled vacant => cases ho₁.symm.trans vacant

/-- On every heap that operations make of the empty one, with any roots: the free list names the
empty slots, each once, and the size is the number of live objects; an allocation puts exactly its
object into an empty slot, the first past the end if no slot is free, and changes no other slot but
those that a collection before it freed; every operation leaves each slot its object, changes the
object in its place, frees it, or fills a slot that was empty; and as long as an object is not freed,
it remains in its slot. -/
theorem operations_keep_slots (pacing : Pacing) (journal : Journal) (s : Memory)
    (hs : Path ⟨Heap.empty pacing journal, Table.empty⟩ s) :
    (s.heap.free.Nodup ∧
      (∀ x, x ∈ s.heap.free ↔ x.slot < s.heap.slots.size ∧ s.heap.object? x = none) ∧
      s.heap.size = s.heap.slots.countP Option.isSome) ∧
    (∀ o roots, Places s.heap o (roots () ++ o.references) (s.heap.alloc o roots)) ∧
    (∀ chars roots, (∃ r, s.heap.intern chars roots = .ok (r, s.heap)) ∨
      Places s.heap (.string ⟨chars, Text.hash chars⟩) (roots ()) (s.heap.intern chars roots)) ∧
    (∀ s' charge, Operation s charge s' → ∀ x, Tenancy s s' x) ∧
    ∀ s' x o, s.Path s' → s.heap.object? x = some o →
      (∃ m, s.Path m ∧ m.Path s' ∧ m.heap.object? x = none) ∨
        ∃ o', s'.heap.object? x = some o' ∧ o.Remains o' := by
  have ha : s.heap.Arena := hs.arena (sound_empty pacing journal).arena
  exact ⟨⟨ha.nodup, ha.free, ha.size_eq⟩, ha.places, ha.places_intern,
    fun s' charge hop => hop.tenancy ha, fun s' x o hp ho => hp.remains ha ho⟩

/-- The slot of a text that was collected is given to the next object, also with the old handle
among the roots. -/
theorem freed_slot_given_again : ∃ (s : Memory) (r : Handle),
    Path ⟨Heap.empty Pacing.standard Journal.off, Table.empty⟩ s ∧ s.heap.free = [r] ∧
      s.heap.slots.countP Option.isSome = 0 ∧
      ∃ h', s.heap.alloc (.upvalue (.onStack 7)) (fun _ => [r]) = .ok (r, h') ∧
        h'.object? r = some (.upvalue (.onStack 7)) := by
  have hruns : ((Heap.empty Pacing.standard Journal.off).intern "lost" fun _ => []).toOption.any
      (fun made => decide ((made.2.collect []).free = [made.1]) &&
        decide ((made.2.collect []).size = 0) &&
        (((made.2.collect []).alloc (.upvalue (.onStack 7)) fun _ => [made.1]).toOption.any
          fun next => decide (next.1 = made.1))) = true := by decide +kernel
  obtain ⟨⟨r, h⟩, hmade, hruns⟩ := exists_of_toOption_any hruns
  simp only [Bool.and_eq_true, decide_eq_true_eq] at hruns
  obtain ⟨⟨hfree, hsize⟩, hruns⟩ := hruns
  obtain ⟨⟨r', h'⟩, hdone, hruns⟩ := exists_of_toOption_any hruns
  obtain rfl := of_decide_eq_true hruns
  have hpath : Path ⟨Heap.empty Pacing.standard Journal.off, Table.empty⟩
      ⟨h.collect [], Table.empty⟩ := (evolves_intern _ hmade).path.trans (Operation.collect []).path
  obtain ⟨⟨-, -, hcount⟩, hplaces, -⟩ := operations_keep_slots _ _ _ hpath
  refine ⟨_, r', hpath, hfree, hcount ▸ hsize, h', hdone, ?_⟩
  have hplaced := hplaces (.upvalue (.onStack 7)) fun _ => [r']
  rw [hdone] at hplaced
  cases hplaced with
  | placed _ _ _ live => exact live

end Memory

end ScriptMachine
