import ScriptMachine.Heap.Basic

/-!
# Collecting garbage

A collection marks what the roots reach, drops the interned texts that stayed unmarked from
their table, and sweeps the arena: an object with its mark set keeps its slot and has its mark
cleared, any other object is freed. Slots are swept in ascending order, so the highest freed
slot is the first to be given out again.
-/

namespace ScriptMachine

/-- The marks set so far and the handles whose objects are still to be traced. -/
structure Marking where
  marks : Array Bool
  gray : List Handle

namespace Marking

/-- Marks a handle; one that was not marked before is still to be traced. -/
def mark (m : Marking) (r : Handle) : Marking :=
  match m.marks[r.slot]? with
  | some false => ⟨m.marks.setIfInBounds r.slot true, r :: m.gray⟩
  | _ => m

/-- Marks handles in their order. -/
def markAll (m : Marking) (rs : List Handle) : Marking := rs.foldl mark m

/-- The tracings that can still come: the handles to be traced and the marks not set. -/
def pending (m : Marking) : Nat := m.marks.count false + m.gray.length

theorem pending_mark (m : Marking) (r : Handle) : (m.mark r).pending = m.pending := by
  unfold mark
  split
  next h =>
    obtain ⟨bound, unset⟩ := Array.getElem?_eq_some_iff.mp h
    have positive : 0 < m.marks.count false :=
      Array.count_pos_iff.mpr (unset ▸ Array.getElem_mem bound)
    simp only [pending, Array.setIfInBounds, bound, dite_true, Array.count_set, unset,
      List.length_cons]
    simp
    omega
  next => rfl

theorem pending_markAll (m : Marking) (rs : List Handle) : (m.markAll rs).pending = m.pending := by
  induction rs generalizing m with
  | nil => rfl
  | cons r rs ih => exact (ih (m.mark r)).trans (pending_mark m r)

/-- Traces until nothing is left to be traced, the handle marked last first. -/
def run (slots : Array (Option Object)) (journal : Journal) (m : Marking) :
    Marking × Journal :=
  match _waiting : m.gray with
  | [] => (m, journal)
  | r :: rest =>
    match slots[r.slot]?.join with
    | none => run slots journal ⟨m.marks, rest⟩
    | some o =>
      run slots (journal.note .trace fun _ => s!"blacken #{r.index} {o.kind.name}")
        ((Marking.mk m.marks rest).markAll o.references)
termination_by m.pending
decreasing_by
  · simp [pending, _waiting]
  · rw [pending_markAll]
    simp [pending, _waiting]

end Marking

/-- The state of a sweep: the arena and what was freed so far. -/
structure Sweep where
  slots : Array (Option Object)
  marks : Array Bool
  free : List Handle
  freed : Nat
  freedBytes : Nat
  journal : Journal

/-- Sweeps one slot. -/
def Sweep.visit (s : Sweep) (i : Nat) : Sweep :=
  match s.slots[i]?.join with
  | none => s
  | some o =>
    if s.marks[i]? = some true then { s with marks := s.marks.setIfInBounds i false }
    else
      { s with
        slots := s.slots.setIfInBounds i none
        free := ⟨i.toUInt32⟩ :: s.free
        freed := s.freed + 1
        freedBytes := s.freedBytes + o.bytes
        journal := s.journal.note .trace fun _ => s!"free #{i} {o.kind.name}" }

/-- Sweeps every slot in ascending order. -/
def Sweep.run (s : Sweep) : Sweep := s.slots.size.fold (fun i _ s => s.visit i) s

/-- The threshold for the next collection when `live` bytes are left: the product is cut to a
whole number of 64 bits. -/
def Pacing.threshold (p : Pacing) (live : Nat) : Nat :=
  max (Float.ofNat live * p.growthFactor).toUInt64.toNat p.minThreshold

namespace Heap

/-- One collection from the given roots. -/
def collect (h : Heap) (roots : List Handle) : Heap :=
  let before := h.bytes
  let journal := h.journal.note .debug fun _ => s!"gc begin: {before} bytes, {h.size} objects"
  let (marked, journal) := Marking.run h.slots journal ((Marking.mk h.marks h.gray).markAll roots)
  let (pruned, strings) := h.strings.prune fun r => marked.marks[r.slot]? = some true
  let swept := Sweep.run ⟨h.slots, marked.marks, h.free, 0, 0, journal⟩
  let live := before - swept.freedBytes
  let nextGc := Pacing.threshold h.pacing live
  { h with
    slots := swept.slots
    marks := swept.marks
    free := swept.free
    gray := marked.gray
    strings := strings
    bytes := live
    nextGc := nextGc
    stats := { h.stats with
      collections := h.stats.collections + 1
      objectsFreed := h.stats.objectsFreed + swept.freed
      bytesFreed := h.stats.bytesFreed + (before - live) }
    journal := swept.journal.note .debug fun _ =>
      s!"gc end: freed {swept.freed} objects ({pruned} interned), {before} -> {live} bytes, " ++
        s!"next at {nextGc}" }

/-- Whether an allocation has to collect first. -/
def shouldCollect (h : Heap) : Bool := h.pacing.stress || h.bytes > h.nextGc

end Heap

end ScriptMachine
