import Mathlib.Data.List.Nodup
import Mathlib.Data.List.Perm.Subperm
import Mathlib.Logic.Relation
import Mathlib.Order.Defs.PartialOrder
import ScriptMachine.Proofs.Heap.Updates
import ScriptMachine.Proofs.Table.Probing

/-!
# The byte account

A heap is charged for an object when it enters the arena and for a table when it grows, also for
the table of globals beside it, and gets back what an object weighs when it is swept. Whatever
the operations on a heap were, the account is what the live objects and the two tables weigh: an
object may have grown since it entered, but each growth was charged then. So a sweep never gives
back more than there is.

The compiler and the machine change their heap and the globals by operations of the heap alone, and
they allocate functions only for the lines of a source. `Operates` says of an action where it leads:
whatever state it ends in, unless it ends in a fault, is in some relation to the state at the start.
Actions composed of such actions are such actions.
-/

namespace ScriptMachine.Heap

/-! ### Weight -/

/-- The bytes of what a slot holds. -/
def slotBytes (slot : Option Object) : Nat := (slot.map Object.bytes).getD 0

/-- The bytes of what some slots hold. -/
def slotsBytes : List (Option Object) → Nat
  | [] => 0
  | slot :: rest => slotBytes slot + slotsBytes rest

/-- The bytes of all objects in an arena. -/
def weight (slots : Array (Option Object)) : Nat := slotsBytes slots.toList

/-- One more slot has its bytes beside the others. -/
theorem slotsBytes_concat (slots : List (Option Object)) (new : Option Object) :
    slotsBytes (slots ++ [new]) = slotsBytes slots + slotBytes new := by
  induction slots with
  | nil => exact (Nat.zero_add _).symm
  | cons slot rest ih =>
    simp only [List.cons_append, slotsBytes, ih]
    omega

/-- A slot of a list replaced: what it held before is weighed out, and what it holds now in. -/
theorem slotsBytes_set {slots : List (Option Object)} {i : Nat} {old : Option Object}
    (hold : slots[i]? = some old) (new : Option Object) :
    slotsBytes (slots.set i new) + slotBytes old = slotsBytes slots + slotBytes new := by
  induction slots generalizing i with
  | nil => cases hold
  | cons slot rest ih =>
    cases i with
    | zero =>
      obtain rfl : slot = old := Option.some.inj hold
      simp only [List.set_cons_zero, slotsBytes]
      omega
    | succ i =>
      have hrest := ih (i := i) hold
      simp only [List.set_cons_succ, slotsBytes]
      omega

/-- A slot of an arena replaced. -/
theorem weight_set {slots : Array (Option Object)} {i : Nat} {old : Option Object}
    (hold : slots[i]? = some old) (new : Option Object) :
    weight (slots.setIfInBounds i new) + slotBytes old = weight slots + slotBytes new := by
  rw [weight, weight, Array.toList_setIfInBounds]
  exact slotsBytes_set (by rwa [Array.getElem?_toList]) new

/-- A slot added. -/
theorem weight_push (slots : Array (Option Object)) (new : Option Object) :
    weight (slots.push new) = weight slots + slotBytes new := by
  rw [weight, weight, Array.toList_push, slotsBytes_concat]

/-- The free slots of an arena are not more than its slots. -/
theorem Arena.length_free_le {h : Heap} (ha : h.Arena) : h.free.length ≤ h.slots.size := by
  have hnodup : (h.free.map Handle.slot).Nodup :=
    List.Nodup.map (fun _ _ hslots => Handle.slot_injective hslots) ha.nodup
  have hsub : h.free.map Handle.slot ⊆ List.range h.slots.size := by
    intro i hi
    obtain ⟨r, hr, rfl⟩ := List.mem_map.mp hi
    exact List.mem_range.mpr ((ha.free r).mp hr).1
  simpa using (List.subperm_of_subset hnodup hsub).length_le

/-- What the slot of a live handle holds. -/
theorem slot_of_object? {h : Heap} {r : Handle} {o : Object} (ho : h.object? r = some o) :
    h.slots[r.slot]? = some (some o) := Option.join_eq_some_iff.mp ho

/-- Replacing an object weighs it out and the other one in. -/
theorem weight_replace {h : Heap} {r : Handle} {o : Object} (ho : h.object? r = some o)
    (o' : Object) : weight (h.replace r o').slots + o.bytes = weight h.slots + o'.bytes :=
  weight_set (slot_of_object? ho) (some o')

end ScriptMachine.Heap

namespace ScriptMachine

/-! ### Sweeping -/

namespace Sweep

open Heap (weight slotBytes weight_set)

/-- The sweep `t` has taken from `s` as many bytes and slots as it has counted. -/
structure Counted (s t : Sweep) : Prop where
  size : t.slots.size = s.slots.size
  bytes : weight t.slots + t.freedBytes = weight s.slots + s.freedBytes
  slots : t.free.length + s.freed = s.free.length + t.freed

/-- Visiting a slot counts what it frees. -/
theorem Counted.visit {s t : Sweep} (ht : Counted s t) (i : Nat) : Counted s (t.visit i) := by
  obtain ⟨hsize, hbytes, hslots⟩ := ht
  unfold Sweep.visit
  split
  · exact ⟨hsize, hbytes, hslots⟩
  · next o ho =>
    split
    · exact ⟨hsize, hbytes, hslots⟩
    · have hi : t.slots[i]? = some (some o) := Option.join_eq_some_iff.mp ho
      have hset := weight_set hi none
      refine ⟨by simp [hsize], ?_, ?_⟩
      · simp only [slotBytes, Option.map_some, Option.getD_some, Option.map_none,
          Option.getD_none] at hset
        show weight (t.slots.setIfInBounds i none) + (t.freedBytes + o.bytes) = _
        omega
      · show (_ :: t.free).length + s.freed = s.free.length + (t.freed + 1)
        rw [List.length_cons]
        omega

/-- A run counts what it frees. -/
theorem counted_run (s : Sweep) : Counted s s.run := by
  have hpart (k : Nat) : Counted s (k.fold (fun i _ s => s.visit i) s) := by
    induction k with
    | zero => exact ⟨rfl, rfl, rfl⟩
    | succ k ih =>
      rw [Nat.fold_succ]
      exact ih.visit k
  exact hpart s.slots.size

end Sweep

/-! ### Operations -/

/-- A heap and the table of globals beside it. -/
structure Memory where
  heap : Heap
  globals : Table

/-- The bytes that a table grows by. -/
def Table.growth (t t' : Table) : Nat := (t'.capacity - t.capacity) * entryBytes

namespace Memory

/-- One operation on a heap and its globals, and the bytes that it charges. -/
inductive Operation : Memory → Nat → Memory → Prop
  | insert {h h' : Heap} {g : Table} {o : Object} {r : Handle} (done : h.insert o = .ok (r, h')) :
      Operation ⟨h, g⟩ o.bytes ⟨h', g⟩
  | collect {h : Heap} {g : Table} (roots : List Handle) :
      Operation ⟨h, g⟩ 0 ⟨h.collect roots, g⟩
  | addString {h : Heap} {g : Table} (key : Key) :
      Operation ⟨h, g⟩ (h.strings.growth (h.strings.insert key .null).2) ⟨h.addString key, g⟩
  | setField {h h' : Heap} {g : Table} {r : Handle} {i : InstanceObject} {key : Key} {v : Value}
      {isNew : Bool} (found : h.instance_ r = .ok i)
      (done : h.setField r key v = .ok (isNew, h')) :
      Operation ⟨h, g⟩ (i.fields.growth (i.fields.insert key v).2) ⟨h', g⟩
  | setMethod {h h' : Heap} {g : Table} {r : Handle} {c : ClassObject} {key : Key} {v : Value}
      (found : h.class_ r = .ok c) (done : h.setMethod r key v = .ok h') :
      Operation ⟨h, g⟩ (c.methods.growth (c.methods.insert key v).2) ⟨h', g⟩
  | inherit {h h' : Heap} {g : Table} {subclass superclass : Handle} {c s : ClassObject}
      (found : h.class_ subclass = .ok c) (from_ : h.class_ superclass = .ok s)
      (done : h.inherit subclass superclass = .ok h') :
      Operation ⟨h, g⟩ (c.methods.growth (c.methods.insertAll s.methods)) ⟨h', g⟩
  | setUpvalue {h h' : Heap} {g : Table} {r : Handle} {v : Value}
      (done : h.setUpvalue r (.closed v) = .ok h') : Operation ⟨h, g⟩ 0 ⟨h', g⟩
  | setGlobal {h : Heap} {g : Table} (key : Key) (v : Value) :
      Operation ⟨h, g⟩ (g.growth (g.insert key v).2)
        ⟨(h.insertIn g key v).2.2, (h.insertIn g key v).2.1⟩
  | eraseGlobal {h : Heap} {g : Table} (key : Key) : Operation ⟨h, g⟩ 0 ⟨h, (g.erase key).2⟩
  | keepEvents {h : Heap} {g : Table} (journal : Journal) :
      Operation ⟨h, g⟩ 0 ⟨{ h with journal := journal }, g⟩

/-- Operations on a memory, one after the other, with the bytes that they charge together and the
levels of the account after each of them, the latest first. -/
inductive Run (s : Memory) : Nat → List Nat → Memory → Prop
  | refl : Run s 0 [] s
  | next {s' s'' : Memory} {charged charge : Nat} {levels : List Nat}
      (before : Run s charged levels s') (op : Operation s' charge s'') :
      Run s (charged + charge) (s''.heap.bytes :: levels) s''

/-- The memory that a session starts from. -/
def blank (pacing : Pacing) (journal : Journal) : Memory := ⟨Heap.empty pacing journal, Table.empty⟩

/-- The account is exact: it is the weight of what lives, the objects that were allocated are
freed or live, the bytes that were charged are freed or on the account, and the peak is the
highest level. -/
structure Balanced (s : Memory) (charged : Nat) (levels : List Nat) : Prop where
  bytes : s.heap.bytes = Heap.weight s.heap.slots + s.heap.strings.capacity * Table.entryBytes +
    s.globals.capacity * Table.entryBytes
  objects : s.heap.stats.objectsAllocated = s.heap.stats.objectsFreed + s.heap.size
  total : s.heap.stats.bytesFreed + s.heap.bytes = charged
  peak : s.heap.stats.peakBytes ∈ levels ∧ ∀ n ∈ levels, n ≤ s.heap.stats.peakBytes

/-! ### Balance -/

variable {s s' : Memory} {charged charge : Nat} {levels : List Nat}

/-- The account stays exact if what lives weighs as much more as was charged, and the objects
counted as allocated are as many more as live. -/
theorem Balanced.add (hb : Balanced s charged levels) (added : Nat)
    (hbytes : s'.heap.bytes = s.heap.bytes + charge)
    (hweight : Heap.weight s'.heap.slots + s'.heap.strings.capacity * Table.entryBytes +
        s'.globals.capacity * Table.entryBytes =
      Heap.weight s.heap.slots + s.heap.strings.capacity * Table.entryBytes +
        s.globals.capacity * Table.entryBytes + charge)
    (hstats : s'.heap.stats = { s.heap.stats with
      peakBytes := max s.heap.stats.peakBytes s'.heap.bytes
      objectsAllocated := s.heap.stats.objectsAllocated + added })
    (hsize : s'.heap.size = s.heap.size + added) :
    Balanced s' (charged + charge) (s'.heap.bytes :: levels) := by
  refine ⟨?_, ?_, ?_, ?_, ?_⟩
  · rw [hweight, hbytes, hb.bytes]
  · have := hb.objects
    rw [hstats, hsize]
    show s.heap.stats.objectsAllocated + added = s.heap.stats.objectsFreed + (s.heap.size + added)
    omega
  · have := hb.total
    rw [hstats, hbytes]
    show s.heap.stats.bytesFreed + (s.heap.bytes + charge) = charged + charge
    omega
  · rw [hstats]
    rcases Nat.le_total s.heap.stats.peakBytes s'.heap.bytes with hle | hle
    · rw [Nat.max_eq_right hle]
      exact List.mem_cons_self
    · rw [Nat.max_eq_left hle]
      exact List.mem_cons_of_mem _ hb.peak.1
  · intro n hn
    rw [hstats]
    rcases List.mem_cons.mp hn with rfl | hn
    · exact Nat.le_max_right _ _
    · exact Nat.le_trans (hb.peak.2 n hn) (Nat.le_max_left _ _)

/-- The account stays exact where nothing is charged and nothing enters or leaves the arena. -/
theorem Balanced.same (hb : Balanced s charged levels) (hmem : s.heap.bytes ∈ levels)
    (hbytes : s'.heap.bytes = s.heap.bytes)
    (hweight : Heap.weight s'.heap.slots = Heap.weight s.heap.slots)
    (hstrings : s'.heap.strings = s.heap.strings)
    (hglobals : s'.globals.capacity = s.globals.capacity)
    (hstats : s'.heap.stats = s.heap.stats) (hsize : s'.heap.size = s.heap.size) :
    Balanced s' (charged + 0) (s'.heap.bytes :: levels) := by
  refine hb.add 0 hbytes (by rw [hweight, hstrings, hglobals, Nat.add_zero]) ?_ hsize
  rw [hstats, hbytes, Nat.max_eq_left (hb.peak.2 _ hmem)]
  rfl

/-- The account stays exact when an object is replaced and what it grew by is charged. -/
theorem Balanced.replace {h : Heap} {g : Table} {r : Handle} {o o' : Object} {before after : Nat}
    (hb : Balanced ⟨h, g⟩ charged levels) (ho : h.object? r = some o)
    (hgrowth : o'.bytes = o.bytes + (after - before) * Table.entryBytes) :
    Balanced ⟨(h.replace r o').chargeGrowth before after, g⟩
      (charged + (after - before) * Table.entryBytes)
      (((h.replace r o').chargeGrowth before after).bytes :: levels) := by
  refine hb.add 0 rfl ?_ rfl ?_
  · have hw := Heap.weight_replace ho o'
    show Heap.weight (h.replace r o').slots + h.strings.capacity * Table.entryBytes +
      g.capacity * Table.entryBytes = Heap.weight h.slots + h.strings.capacity * Table.entryBytes +
      g.capacity * Table.entryBytes + (after - before) * Table.entryBytes
    omega
  · show (h.slots.setIfInBounds r.slot (some o')).size - h.free.length =
      h.slots.size - h.free.length + 0
    rw [Array.size_setIfInBounds, Nat.add_zero]

/-- An insertion charges the object that enters. -/
theorem Balanced.insert {h h' : Heap} {g : Table} {o : Object} {r : Handle}
    (hb : Balanced ⟨h, g⟩ charged levels) (ha : h.Arena) (hdone : h.insert o = .ok (r, h')) :
    Balanced ⟨h', g⟩ (charged + o.bytes) (h'.bytes :: levels) := by
  have hfit := ha.length_free_le
  unfold Heap.insert at hdone
  split at hdone
  · next r' rest hfree =>
    obtain ⟨journal, heq⟩ := Heap.enroll_eq
      (h := { h with slots := h.slots.setIfInBounds r'.slot (some o), free := rest })
      (r := r') o.bytes o.kind
    obtain ⟨-, rfl⟩ := Prod.mk.inj (Except.ok.inj hdone)
    rw [hfree, List.length_cons] at hfit
    rw [heq]
    refine hb.add 1 rfl ?_ rfl ?_
    · -- the slot was empty
      obtain ⟨hlt, hnone⟩ := (ha.free r').mp (hfree ▸ List.mem_cons_self)
      have hslot : h.slots[r'.slot]? = some none := by
        rw [Heap.object?, Array.getElem?_eq_getElem hlt] at hnone
        rw [Array.getElem?_eq_getElem hlt]
        exact congrArg some hnone
      have hw : Heap.weight (h.slots.setIfInBounds r'.slot (some o)) + 0 =
        Heap.weight h.slots + o.bytes := Heap.weight_set hslot (some o)
      show Heap.weight (h.slots.setIfInBounds r'.slot (some o)) +
        h.strings.capacity * Table.entryBytes + g.capacity * Table.entryBytes = Heap.weight h.slots +
        h.strings.capacity * Table.entryBytes + g.capacity * Table.entryBytes + o.bytes
      omega
    · show (h.slots.setIfInBounds r'.slot (some o)).size - rest.length =
        h.slots.size - h.free.length + 1
      rw [Array.size_setIfInBounds, hfree, List.length_cons]
      omega
  · next hfree =>
    split at hdone
    · obtain ⟨journal, heq⟩ := Heap.enroll_eq
        (h := { h with slots := h.slots.push (some o), marks := h.marks.push false })
        (r := ⟨h.slots.size.toUInt32⟩) o.bytes o.kind
      obtain ⟨-, rfl⟩ := Prod.mk.inj (Except.ok.inj hdone)
      rw [heq]
      refine hb.add 1 rfl ?_ rfl ?_
      · have hw : Heap.weight (h.slots.push (some o)) = Heap.weight h.slots + o.bytes :=
          Heap.weight_push h.slots (some o)
        show Heap.weight (h.slots.push (some o)) + h.strings.capacity * Table.entryBytes +
          g.capacity * Table.entryBytes = Heap.weight h.slots +
          h.strings.capacity * Table.entryBytes + g.capacity * Table.entryBytes + o.bytes
        omega
      · show (h.slots.push (some o)).size - h.free.length = h.slots.size - h.free.length + 1
        rw [Array.size_push]
        omega
    · cases hdone

/-- A sweep gives back no more than is on the account. -/
theorem Balanced.freedBytes_le (hb : Balanced s charged levels) (roots : List Handle) :
    (s.heap.sweeping roots).run.freedBytes ≤ s.heap.bytes := by
  have hcount : Heap.weight (s.heap.sweeping roots).run.slots +
      (s.heap.sweeping roots).run.freedBytes = Heap.weight s.heap.slots + 0 :=
    (Sweep.counted_run (s.heap.sweeping roots)).bytes
  have := hb.bytes
  omega

/-- A collection gives back what it frees. -/
theorem Balanced.collect {h : Heap} {g : Table} (hb : Balanced ⟨h, g⟩ charged levels)
    (hmem : h.bytes ∈ levels) (ha : h.Arena) (roots : List Handle) :
    Balanced ⟨h.collect roots, g⟩ (charged + 0) ((h.collect roots).bytes :: levels) := by
  have hcount := Sweep.counted_run (h.sweeping roots)
  have hweight : Heap.weight (h.collect roots).slots + (h.sweeping roots).run.freedBytes =
    Heap.weight h.slots + 0 := hcount.bytes
  have hfree : (h.collect roots).free.length + 0 =
    h.free.length + (h.sweeping roots).run.freed := hcount.slots
  have hle : (h.sweeping roots).run.freedBytes ≤ h.bytes := hb.freedBytes_le roots
  have hbytes : (h.collect roots).bytes = h.bytes - (h.sweeping roots).run.freedBytes := rfl
  have hcapacity : (h.collect roots).strings.capacity = h.strings.capacity := by
    rw [Heap.strings_collect, Table.capacity_prune]
  refine ⟨?_, ?_, ?_, hb.peak.1 |> List.mem_cons_of_mem _, fun n hn => ?_⟩
  · have := hb.bytes
    show (h.collect roots).bytes = Heap.weight (h.collect roots).slots +
      (h.collect roots).strings.capacity * Table.entryBytes + g.capacity * Table.entryBytes
    rw [hcapacity]
    simp only at this
    omega
  · have hobjects : h.stats.objectsAllocated = h.stats.objectsFreed + (h.slots.size - h.free.length) :=
      hb.objects
    have hfit := (ha.collect roots).length_free_le
    rw [Heap.size_slots_collect] at hfit
    show h.stats.objectsAllocated = h.stats.objectsFreed + (h.sweeping roots).run.freed +
      ((h.collect roots).slots.size - (h.collect roots).free.length)
    rw [Heap.size_slots_collect]
    omega
  · have htotal : h.stats.bytesFreed + h.bytes = charged := hb.total
    show h.stats.bytesFreed + (h.bytes - (h.collect roots).bytes) + (h.collect roots).bytes =
      charged + 0
    omega
  · show n ≤ h.stats.peakBytes
    rcases List.mem_cons.mp hn with rfl | hn
    · have hpeak : h.bytes ≤ h.stats.peakBytes := hb.peak.2 _ hmem
      omega
    · exact hb.peak.2 n hn

/-- No operation disturbs the free list. -/
theorem Operation.arena (hop : Operation s charge s') (ha : s.heap.Arena) : s'.heap.Arena := by
  cases hop with
  | @insert h h' g o r hdone =>
    rcases Heap.Arena.insert ha o with ⟨r', h'', hok, hins⟩ | herr
    · obtain ⟨-, rfl⟩ := Prod.mk.inj (Except.ok.inj (hok.symm.trans hdone))
      exact hins.arena
    · cases herr.symm.trans hdone
  | collect roots => exact Heap.Arena.collect roots ha
  | addString key => exact Heap.Arena.addString ha key
  | setField _ hdone =>
    obtain ⟨i, hi, -, rfl⟩ := Heap.exists_of_setField hdone
    exact (Heap.Arena.replace ha _ hi).chargeGrowth _ _
  | setMethod _ hdone =>
    obtain ⟨c, hc, rfl⟩ := Heap.exists_of_setMethod hdone
    exact (Heap.Arena.replace ha _ hc).chargeGrowth _ _
  | inherit _ _ hdone =>
    obtain ⟨s, c, -, hc, rfl⟩ := Heap.exists_of_inherit hdone
    exact (Heap.Arena.replace ha _ hc).chargeGrowth _ _
  | setUpvalue hdone =>
    obtain ⟨old, hold, rfl⟩ := Heap.exists_of_setUpvalue hdone
    exact Heap.Arena.replace ha _ hold
  | setGlobal key v => exact Heap.Arena.chargeGrowth ha _ _
  | eraseGlobal key => exact ha
  | keepEvents journal => exact ⟨ha.size, ha.nodup, ha.free⟩

/-- Every operation keeps the account exact. -/
theorem Operation.balanced (hop : Operation s charge s') (ha : s.heap.Arena)
    (hmem : s.heap.bytes ∈ levels) (hb : Balanced s charged levels) :
    Balanced s' (charged + charge) (s'.heap.bytes :: levels) := by
  cases hop with
  | insert hdone => exact hb.insert ha hdone
  | collect roots => exact hb.collect hmem ha roots
  | @addString h g key =>
    refine hb.add 0 rfl ?_ rfl rfl
    have hle := Table.capacity_le_insert h.strings key .null
    show Heap.weight h.slots + (h.strings.insert key .null).2.capacity * Table.entryBytes +
      g.capacity * Table.entryBytes = Heap.weight h.slots + h.strings.capacity * Table.entryBytes +
      g.capacity * Table.entryBytes +
      ((h.strings.insert key .null).2.capacity - h.strings.capacity) * Table.entryBytes
    rw [Nat.sub_mul]
    have := Nat.mul_le_mul_right Table.entryBytes hle
    omega
  | @setField h h' g r i key v isNew hfound hdone =>
    obtain ⟨i', hi, -, rfl⟩ := Heap.exists_of_setField hdone
    obtain rfl : i' = i := by simpa [hi] using Heap.object?_of_instance hfound
    refine hb.replace hi ?_
    have := Nat.mul_le_mul_right Table.entryBytes
      (Table.capacity_le_insert i'.fields key v)
    show 48 + (i'.fields.insert key v).2.capacity * Table.entryBytes =
      48 + i'.fields.capacity * Table.entryBytes + _
    rw [Nat.sub_mul]
    omega
  | @setMethod h h' g r c key v hfound hdone =>
    obtain ⟨c', hc, rfl⟩ := Heap.exists_of_setMethod hdone
    obtain rfl : c' = c := by simpa [hc] using Heap.object?_of_class hfound
    refine hb.replace hc ?_
    have := Nat.mul_le_mul_right Table.entryBytes
      (Table.capacity_le_insert c'.methods key v)
    show 48 + (c'.methods.insert key v).2.capacity * Table.entryBytes =
      48 + c'.methods.capacity * Table.entryBytes + _
    rw [Nat.sub_mul]
    omega
  | @inherit h h' g subclass superclass c s hfound hfrom hdone =>
    obtain ⟨s', c', hs, hc, rfl⟩ := Heap.exists_of_inherit hdone
    obtain rfl : c' = c := by simpa [hc] using Heap.object?_of_class hfound
    obtain rfl : s' = s := by simpa [hs] using Heap.object?_of_class hfrom
    refine hb.replace hc ?_
    have := Nat.mul_le_mul_right Table.entryBytes
      (Table.capacity_le_insertAll c'.methods s'.methods)
    show 48 + (c'.methods.insertAll s'.methods).capacity * Table.entryBytes =
      48 + c'.methods.capacity * Table.entryBytes + _
    rw [Nat.sub_mul]
    omega
  | @setUpvalue h h' g r v hdone =>
    obtain ⟨old, hold, rfl⟩ := Heap.exists_of_setUpvalue hdone
    have hw : Heap.weight (h.replace r (.upvalue (.closed v))).slots + 48 = Heap.weight h.slots + 48 :=
      Heap.weight_replace hold (.upvalue (.closed v))
    refine hb.same hmem rfl (Nat.add_right_cancel hw) rfl rfl rfl ?_
    show (h.slots.setIfInBounds r.slot (some (.upvalue (.closed v)))).size - h.free.length = _
    rw [Array.size_setIfInBounds]
    rfl
  | @setGlobal h g key v =>
    refine hb.add 0 rfl ?_ rfl rfl
    have hle := Table.capacity_le_insert g key v
    show Heap.weight h.slots + h.strings.capacity * Table.entryBytes +
      (g.insert key v).2.capacity * Table.entryBytes = Heap.weight h.slots +
      h.strings.capacity * Table.entryBytes + g.capacity * Table.entryBytes +
      ((g.insert key v).2.capacity - g.capacity) * Table.entryBytes
    rw [Nat.sub_mul]
    have := Nat.mul_le_mul_right Table.entryBytes hle
    omega
  | eraseGlobal key => exact hb.same hmem rfl rfl rfl Table.capacity_erase rfl rfl
  | keepEvents journal => exact hb.same hmem rfl rfl rfl rfl rfl rfl

/-- The account of the blank memory is exact: nothing lives, and nothing was charged. -/
theorem balanced_blank (pacing : Pacing) (journal : Journal) :
    (blank pacing journal).heap.Arena ∧ (blank pacing journal).Balanced 0 [0] :=
  ⟨(Heap.sound_empty pacing journal).arena, rfl, rfl, rfl, by simp [blank, Heap.empty]⟩

/-- Operations, one after the other, keep the account exact, and the level that it has is among the
levels that it had. -/
theorem Run.balanced {new : List Nat} (hrun : Run s charge new s') (ha : s.heap.Arena)
    (hmem : s.heap.bytes ∈ levels) (hb : Balanced s charged levels) :
    s'.heap.Arena ∧ s'.heap.bytes ∈ new ++ levels ∧ Balanced s' (charged + charge) (new ++ levels) := by
  induction hrun with
  | refl => exact ⟨ha, hmem, hb⟩
  | next _ op ih =>
    obtain ⟨ha', hmem', hb'⟩ := ih
    refine ⟨op.arena ha', List.mem_cons_self, ?_⟩
    rw [← Nat.add_assoc]
    exact op.balanced ha' hmem' hb'

end Memory

end ScriptMachine

namespace ScriptMachine

namespace Memory

/-- Some operations, one after the other, lead from one memory to another. -/
def Path : Memory → Memory → Prop := Relation.ReflTransGen fun s s' => ∃ charge, Operation s charge s'

/-- Every memory is on its own path. -/
theorem Path.refl (s : Memory) : s.Path s := Relation.ReflTransGen.refl

/-- A path goes on from where another ends. -/
theorem Path.trans {s s' s'' : Memory} (h : s.Path s') (h' : s'.Path s'') : s.Path s'' :=
  Relation.ReflTransGen.trans h h'

/-- One operation is a path. -/
theorem Operation.path {s s' : Memory} {charge : Nat} (h : Operation s charge s') : s.Path s' :=
  Relation.ReflTransGen.single ⟨charge, h⟩

/-- Along a path operations are run. -/
theorem Path.run {s s' : Memory} (h : s.Path s') : ∃ charge levels, s.Run charge levels s' := by
  induction h with
  | refl => exact ⟨0, [], .refl⟩
  | tail _ hop ih =>
    obtain ⟨charged, levels, hrun⟩ := ih
    obtain ⟨charge, hop⟩ := hop
    exact ⟨charged + charge, _, hrun.next hop⟩

/-! ### Recorded lines -/

end Memory

/-- Every line that a chunk records is a line of a source, which are counted from 1. -/
def Chunk.LinesFromOne (c : Chunk) : Prop := ∀ line ∈ c.lines, 1 ≤ line

/-- So is every line of an object, if it is a function. -/
def Object.LinesFromOne : Object → Prop
  | .function f => f.chunk.LinesFromOne
  | _ => True

/-- So is every line of the functions of a heap. -/
def Heap.LinesFromOne (h : Heap) : Prop := ∀ r o, h.object? r = some o → o.LinesFromOne

namespace Heap.LinesFromOne

variable {h h' : Heap} {o o' : Object} {r : Handle}

/-- Nothing lives in the empty heap. -/
theorem empty (pacing : Pacing) (journal : Journal) : (Heap.empty pacing journal).LinesFromOne :=
  fun _ _ ho => by simp [object?, Heap.empty] at ho

/-- A collection adds no object. -/
theorem collect (hl : h.LinesFromOne) (roots : List Handle) : (h.collect roots).LinesFromOne := by
  intro x o ho
  rcases object?_collect_eq h roots x with ⟨-, hkept⟩ | ⟨-, hgone⟩
  · exact hl x o (hkept.symm.trans ho)
  · cases hgone.symm.trans ho

/-- Replacing an object puts the other one in its slot. -/
theorem replace (hl : h.LinesFromOne) (ho : h.object? r = some o) (ho' : o'.LinesFromOne) :
    (h.replace r o').LinesFromOne := by
  intro x o₁ hx
  rw [object?_replace o' ho] at hx
  split at hx
  · exact Option.some.inj hx ▸ ho'
  · exact hl x o₁ hx

/-- An insertion adds the object that enters. -/
theorem insert (hl : h.LinesFromOne) (ho : o.LinesFromOne) (hdone : h.insert o = .ok (r, h')) :
    h'.LinesFromOne := by
  intro x o₁ hx
  unfold Heap.insert at hdone
  split at hdone
  · next r' rest hfree =>
    obtain ⟨journal, heq⟩ := enroll_eq
      (h := { h with slots := h.slots.setIfInBounds r'.slot (some o), free := rest })
      (r := r') o.bytes o.kind
    obtain ⟨-, rfl⟩ := Prod.mk.inj (Except.ok.inj hdone)
    rw [heq] at hx
    replace hx : (h.slots.setIfInBounds r'.slot (some o))[x.slot]?.join = some o₁ := hx
    rw [Array.getElem?_setIfInBounds] at hx
    split at hx
    · split at hx
      · exact Option.some.inj hx ▸ ho
      · cases hx
    · exact hl x o₁ hx
  · split at hdone
    · obtain ⟨journal, heq⟩ := enroll_eq
        (h := { h with slots := h.slots.push (some o), marks := h.marks.push false })
        (r := ⟨h.slots.size.toUInt32⟩) o.bytes o.kind
      obtain ⟨-, rfl⟩ := Prod.mk.inj (Except.ok.inj hdone)
      rw [heq] at hx
      replace hx : (h.slots.push (some o))[x.slot]?.join = some o₁ := hx
      rw [Array.getElem?_push] at hx
      split at hx
      · exact Option.some.inj hx ▸ ho
      · exact hl x o₁ hx
    · cases hdone

/-- So does an allocation, whether or not it collects first. -/
theorem alloc {roots : Unit → List Handle} (hl : h.LinesFromOne) (ho : o.LinesFromOne)
    (hdone : h.alloc o roots = .ok (r, h')) : h'.LinesFromOne := by
  unfold Heap.alloc at hdone
  split at hdone
  · exact (hl.collect _).insert ho hdone
  · exact hl.insert ho hdone

end Heap.LinesFromOne

namespace Memory

/-- Some operations lead from one memory to another, and no line of a function there is 0 that was
not. -/
structure Evolves (s s' : Memory) : Prop where
  path : s.Path s'
  lines : s.heap.LinesFromOne → s'.heap.LinesFromOne

/-- Every memory evolves to itself. -/
theorem Evolves.refl (s : Memory) : s.Evolves s := ⟨.refl s, id⟩

/-- Evolving twice is evolving. -/
theorem Evolves.trans {s s' s'' : Memory} (h : s.Evolves s') (h' : s'.Evolves s'') :
    s.Evolves s'' := ⟨h.path.trans h'.path, h'.lines ∘ h.lines⟩

variable {h h' : Heap}

/-- Allocating is operating. -/
theorem path_alloc {o : Object} {roots : Unit → List Handle} {r : Handle} (g : Table)
    (hdone : h.alloc o roots = .ok (r, h')) : Path ⟨h, g⟩ ⟨h', g⟩ := by
  unfold Heap.alloc at hdone
  split at hdone
  · exact (Operation.collect _).path.trans (Operation.insert hdone).path
  · exact (Operation.insert hdone).path

/-- Allocating an object that is no function leads on. -/
theorem evolves_alloc {o : Object} {roots : Unit → List Handle} {r : Handle} (g : Table)
    (hdone : h.alloc o roots = .ok (r, h')) (ho : o.LinesFromOne) : Evolves ⟨h, g⟩ ⟨h', g⟩ :=
  ⟨path_alloc g hdone, fun hl => Heap.LinesFromOne.alloc hl ho hdone⟩

/-- Interning allocates at most a text. -/
theorem evolves_intern {chars : String} {roots : Unit → List Handle} {r : Handle} (g : Table)
    (hdone : h.intern chars roots = .ok (r, h')) : Evolves ⟨h, g⟩ ⟨h', g⟩ := by
  unfold Heap.intern at hdone
  simp only at hdone
  split at hdone
  · obtain ⟨-, rfl⟩ := Prod.mk.inj (Except.ok.inj hdone)
    exact .refl _
  · split at hdone
    · cases hdone
    · next halloc =>
      obtain ⟨-, rfl⟩ := Prod.mk.inj (Except.ok.inj hdone)
      exact (evolves_alloc g halloc trivial).trans ⟨(Operation.addString _).path, id⟩

/-- Keeping an event is operating. -/
theorem evolves_note (h : Heap) (g : Table) (s : Severity) (text : Unit → String) :
    Evolves ⟨h, g⟩ ⟨h.note s text, g⟩ := by
  obtain ⟨journal, heq⟩ := Heap.note_eq (h := h) s text
  rw [heq]
  exact ⟨(Operation.keepEvents journal).path, id⟩

/-- Setting a field is operating. -/
theorem evolves_setField {r : Handle} {key : Key} {v : Value} {isNew : Bool} (g : Table)
    (hdone : h.setField r key v = .ok (isNew, h')) : Evolves ⟨h, g⟩ ⟨h', g⟩ := by
  obtain ⟨i, hfound, -⟩ := exists_of_bind_eq_ok hdone
  refine ⟨(Operation.setField hfound hdone).path, fun hl => ?_⟩
  obtain ⟨i', hi, -, rfl⟩ := Heap.exists_of_setField hdone
  exact Heap.LinesFromOne.replace hl hi trivial

/-- Setting a method is operating. -/
theorem evolves_setMethod {r : Handle} {key : Key} {v : Value} (g : Table)
    (hdone : h.setMethod r key v = .ok h') : Evolves ⟨h, g⟩ ⟨h', g⟩ := by
  obtain ⟨c, hfound, -⟩ := exists_of_bind_eq_ok hdone
  refine ⟨(Operation.setMethod hfound hdone).path, fun hl => ?_⟩
  obtain ⟨c', hc, rfl⟩ := Heap.exists_of_setMethod hdone
  exact Heap.LinesFromOne.replace hl hc trivial

/-- Inheriting is operating. -/
theorem evolves_inherit {subclass superclass : Handle} (g : Table)
    (hdone : h.inherit subclass superclass = .ok h') : Evolves ⟨h, g⟩ ⟨h', g⟩ := by
  obtain ⟨s, hfrom, hrest⟩ := exists_of_bind_eq_ok hdone
  obtain ⟨c, hfound, -⟩ := exists_of_bind_eq_ok hrest
  refine ⟨(Operation.inherit hfound hfrom hdone).path, fun hl => ?_⟩
  obtain ⟨s', c', -, hc, rfl⟩ := Heap.exists_of_inherit hdone
  exact Heap.LinesFromOne.replace hl hc trivial

/-- Closing an upvalue is operating. -/
theorem evolves_setUpvalue {r : Handle} {v : Value} (g : Table)
    (hdone : h.setUpvalue r (.closed v) = .ok h') : Evolves ⟨h, g⟩ ⟨h', g⟩ := by
  refine ⟨(Operation.setUpvalue hdone).path, fun hl => ?_⟩
  obtain ⟨old, hold, rfl⟩ := Heap.exists_of_setUpvalue hdone
  exact Heap.LinesFromOne.replace hl hold trivial

end Memory

/-- `x` leads from each state on along `way`, unless it stops for a reason in `lost`. -/
class Operates {ε σ α : Type} (lost : ε → Prop) (way : Preorder σ) (x : EStateM ε σ α) : Prop where
  ok {s : σ} {a : α} {s' : σ} : x s = .ok a s' → way.le s s'
  error {s : σ} {e : ε} {s' : σ} : x s = .error e s' → ¬ lost e → way.le s s'

section Composition

variable {ε σ α β : Type} {lost : ε → Prop} {way : Preorder σ}

instance operates_pure (a : α) : Operates lost way (pure a : EStateM ε σ α) where
  ok h := by
    cases h
    exact way.le_refl _
  error h := by cases h

/-- One action after another. -/
theorem Operates.bind {x : EStateM ε σ α} {f : α → EStateM ε σ β}
    (hx : Operates lost way x) (hf : ∀ a, Operates lost way (f a)) :
    Operates lost way (x >>= f) where
  ok {s b s'} h := by
    replace h : EStateM.bind x f s = .ok b s' := h
    unfold EStateM.bind at h
    split at h
    · next hr => exact way.le_trans _ _ _ (hx.ok hr) ((hf _).ok h)
    · cases h
  error {s e s'} h hkept := by
    replace h : EStateM.bind x f s = .error e s' := h
    unfold EStateM.bind at h
    split at h
    · next hr => exact way.le_trans _ _ _ (hx.ok hr) ((hf _).error h hkept)
    · next hr =>
      cases h
      exact hx.error hr hkept

instance operates_bind (x : EStateM ε σ α) (f : α → EStateM ε σ β) [hx : Operates lost way x]
    [hf : ∀ a, Operates lost way (f a)] : Operates lost way (x >>= f) := hx.bind hf

instance operates_seqRight (x : EStateM ε σ α) (y : EStateM ε σ β) [hx : Operates lost way x]
    [hy : Operates lost way y] : Operates lost way (x *> y) where
  ok {s b s'} h :=
    have hb : Operates lost way (x >>= fun _ => y) := inferInstance
    hb.ok (show EStateM.bind x (fun _ => y) s = .ok b s' from h)
  error {s e s'} h :=
    have hb : Operates lost way (x >>= fun _ => y) := inferInstance
    hb.error (show EStateM.bind x (fun _ => y) s = .error e s' from h)

instance operates_ite {c : Prop} [Decidable c] (x y : EStateM ε σ α) [hx : Operates lost way x]
    [hy : Operates lost way y] : Operates lost way (if c then x else y) := by
  split
  · exact hx
  · exact hy

/-- An action that always succeeds. -/
theorem operates_of_ok {x : EStateM ε σ α} (hx : ∀ s, ∃ a s', x s = .ok a s' ∧ way.le s s') :
    Operates lost way x where
  ok {s a s'} h := by
    obtain ⟨a', s'', hok, hevolves⟩ := hx s
    obtain ⟨-, rfl⟩ := EStateM.Result.ok.inj (hok.symm.trans h)
    exact hevolves
  error {s e s'} h := by
    obtain ⟨a', s'', hok, -⟩ := hx s
    cases hok.symm.trans h

/-- A change of the state. -/
theorem operates_modify {f : σ → σ} (hf : ∀ s, way.le s (f s)) :
    Operates lost way (modify f : EStateM ε σ Unit) :=
  operates_of_ok fun s => ⟨(), f s, rfl, hf s⟩

instance operates_mapM (f : α → EStateM ε σ β) [hf : ∀ a, Operates lost way (f a)]
    (as : List α) : Operates lost way (as.mapM f) := by
  rw [← List.mapM'_eq_mapM]
  induction as with
  | nil => exact operates_pure _
  | cons a as ih =>
    rw [List.mapM']
    infer_instance

end Composition

end ScriptMachine
