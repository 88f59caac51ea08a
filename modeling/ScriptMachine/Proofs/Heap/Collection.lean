import ScriptMachine.Proofs.Heap.Marking

/-!
# Collections free exactly what is not reachable

A sweep visits the slots in ascending order. After the first `k` slots, exactly their unmarked
objects are gone and named by the free list, and the marks of the others are clear again. The
slots from `k` on are as they were.

On a heap without set marks, a collection keeps what its roots reach, unchanged, and empties
every other slot. If all that is reached is live, the marks are clear again afterwards, so the
next collection starts from the same state. An allocation inherits this: it never frees what its
roots or its object lead to.
-/

namespace ScriptMachine

/-! ### What a sweep leaves -/

/-- The slot of the handle made for a position of the arena. -/
@[simp] theorem Handle.slot_mk {i : Nat} (hi : i < 2 ^ 32) : Handle.slot ⟨i.toUInt32⟩ = i := by
  simpa [Handle.slot] using hi

namespace Sweep

variable {s t : Sweep} {k : Nat}

/-- The object at a position. -/
def objectAt (s : Sweep) (i : Nat) : Option Object := s.slots[i]?.join

/-- Whether the mark at a position is set. -/
def MarkedAt (s : Sweep) (i : Nat) : Prop := s.marks[i]? = some true

/-- `t` is what the sweep of the first `k` positions makes of `s`. -/
structure Swept (s : Sweep) (k : Nat) (t : Sweep) : Prop where
  size : t.slots.size = s.slots.size
  freed : ∀ i < k, ¬ s.MarkedAt i → t.objectAt i = none
  kept : ∀ i, k ≤ i ∨ s.MarkedAt i → t.objectAt i = s.objectAt i
  marks : ∀ i, t.marks[i]? =
    if i < k ∧ (s.objectAt i).isSome then s.marks[i]?.map fun _ => false else s.marks[i]?
  free : k ≤ 2 ^ 32 → ∃ fresh : List Handle, t.free = fresh ++ s.free ∧ fresh.Nodup ∧
    ∀ r : Handle, r ∈ fresh ↔ r.slot < k ∧ (s.objectAt r.slot).isSome ∧ ¬ s.MarkedAt r.slot

/-- Nothing is swept at first. -/
theorem Swept.zero (s : Sweep) : Swept s 0 s :=
  ⟨rfl, fun _ hi => absurd hi (Nat.not_lt_zero _), fun _ _ => rfl, fun i => by simp,
    fun _ => ⟨[], by simp⟩⟩

/-- A position without an object stays as it is. -/
theorem Swept.skip (ht : Swept s k t) (hobject : s.objectAt k = none) : Swept s (k + 1) t := by
  have htk : t.objectAt k = none := by rw [ht.kept k (.inl (Nat.le_refl k)), hobject]
  have hne : ∀ i, (s.objectAt i).isSome → i ≠ k := by
    rintro i hi rfl
    simp [hobject] at hi
  refine ⟨ht.size, ?_, fun i hi => ht.kept i (hi.imp_left (by omega)), ?_, ?_⟩
  · intro i hi hm
    rcases Nat.lt_succ_iff_lt_or_eq.mp hi with hi | rfl
    · exact ht.freed i hi hm
    · exact htk
  · intro i
    rw [ht.marks i]
    by_cases ho : (s.objectAt i).isSome
    · have := hne i ho
      have hiff : i < k ↔ i < k + 1 := by omega
      simp [ho, hiff]
    · simp [ho]
  · intro hk
    obtain ⟨fresh, hfree, hnodup, hmem⟩ := ht.free (by omega)
    refine ⟨fresh, hfree, hnodup, fun r => ?_⟩
    rw [hmem]
    refine and_congr_left fun ho => ?_
    have := hne _ ho.1
    omega

/-- A marked object keeps its slot and loses its mark. -/
theorem Swept.keep (ht : Swept s k t) {o : Object} (hobject : s.objectAt k = some o)
    (hmark : s.MarkedAt k) :
    Swept s (k + 1) { t with marks := t.marks.setIfInBounds k false } := by
  refine ⟨ht.size, ?_, fun i hi => ht.kept i (hi.imp_left (by omega)), ?_, ?_⟩
  · intro i hi hm
    rcases Nat.lt_succ_iff_lt_or_eq.mp hi with hi | rfl
    · exact ht.freed i hi hm
    · exact absurd hmark hm
  · intro i
    have htm := ht.marks i
    rw [Array.getElem?_setIfInBounds]
    by_cases hik : k = i
    · subst hik
      have hkb : k < t.marks.size := by
        by_contra hge
        rw [Array.getElem?_eq_none (Nat.le_of_not_lt hge), if_neg (by omega)] at htm
        rw [MarkedAt, ← htm] at hmark
        simp at hmark
      rw [if_pos rfl, if_pos hkb]
      rw [MarkedAt] at hmark
      simp [hobject, hmark]
    · rw [if_neg hik, htm]
      have hiff : i < k ↔ i < k + 1 := by omega
      simp [hiff]
  · intro hk
    obtain ⟨fresh, hfree, hnodup, hmem⟩ := ht.free (by omega)
    refine ⟨fresh, hfree, hnodup, fun r => ?_⟩
    rw [hmem]
    refine and_congr_left fun ho => ?_
    have : r.slot ≠ k := by
      intro e
      exact ho.2 (e ▸ hmark)
    omega

/-- An unmarked object is freed. -/
theorem Swept.drop (ht : Swept s k t) {o : Object} (hobject : s.objectAt k = some o)
    (hmark : ¬ s.MarkedAt k) (freed freedBytes : Nat) (journal : Journal) :
    Swept s (k + 1) ⟨t.slots.setIfInBounds k none, t.marks, ⟨k.toUInt32⟩ :: t.free, freed,
      freedBytes, journal⟩ := by
  have hobjects (i : Nat) :
      (t.slots.setIfInBounds k none)[i]?.join = if i = k then none else t.slots[i]?.join := by
    rw [Array.getElem?_setIfInBounds]
    by_cases hik : k = i
    · subst hik
      by_cases hb : k < t.slots.size <;> simp [hb]
    · simp [hik, Ne.symm hik]
  refine ⟨by simp [ht.size], ?_, ?_, ?_, ?_⟩
  · intro i hi hm
    rw [objectAt, hobjects]
    split
    · rfl
    · exact ht.freed i (by omega) hm
  · intro i hi
    have hik : i ≠ k := by
      rintro rfl
      rcases hi with hi | hi
      · omega
      · exact hmark hi
    rw [objectAt, hobjects, if_neg hik]
    exact ht.kept i (hi.imp_left (by omega))
  · intro i
    show t.marks[i]? = _
    rw [ht.marks i]
    by_cases hik : i = k
    · subst hik
      rw [if_neg (by omega), if_pos ⟨by omega, by simp [hobject]⟩]
      cases hv : s.marks[i]? with
      | none => rfl
      | some b =>
        cases b with
        | false => rfl
        | true => exact absurd hv hmark
    · have hiff : i < k ↔ i < k + 1 := by omega
      simp [hiff]
  · intro hk
    obtain ⟨fresh, hfree, hnodup, hmem⟩ := ht.free (by omega)
    have hslot : Handle.slot ⟨k.toUInt32⟩ = k := Handle.slot_mk (by omega)
    refine ⟨⟨k.toUInt32⟩ :: fresh, by simp [hfree], ?_, ?_⟩
    · refine List.nodup_cons.mpr ⟨fun hin => ?_, hnodup⟩
      have := ((hmem _).mp hin).1
      omega
    · intro r
      rw [List.mem_cons, hmem]
      constructor
      · rintro (rfl | ⟨hr, ho⟩)
        · rw [hslot]
          exact ⟨by omega, by simp [hobject], hmark⟩
        · exact ⟨by omega, ho⟩
      · rintro ⟨hr, ho⟩
        by_cases hrk : r.slot = k
        · exact .inl (Handle.slot_injective (hrk.trans hslot.symm))
        · exact .inr ⟨by omega, ho⟩

/-- One more position is swept by visiting it. -/
theorem Swept.visit (ht : Swept s k t) : Swept s (k + 1) (t.visit k) := by
  have hobject : t.slots[k]?.join = s.objectAt k := ht.kept k (.inl (Nat.le_refl k))
  have hmarks : t.marks[k]? = s.marks[k]? := by rw [ht.marks k, if_neg (by omega)]
  unfold Sweep.visit
  rw [hobject, hmarks]
  split
  · next h => exact ht.skip h
  · next o h =>
    split
    · next hm => exact ht.keep h hm
    · next hm => exact ht.drop h hm _ _ _

/-- A run sweeps every position. -/
theorem Swept.run (s : Sweep) : Swept s s.slots.size s.run := by
  have hpart (k : Nat) : Swept s k (k.fold (fun i _ s => s.visit i) s) := by
    induction k with
    | zero => exact .zero s
    | succ k ih =>
      rw [Nat.fold_succ]
      exact ih.visit
  exact hpart s.slots.size

end Sweep

end ScriptMachine

namespace ScriptMachine.Heap

/-! ### What a collection leaves -/

variable {h : Heap} {roots : List Handle} {x : Handle}

/-- No mark is set, each slot has one, and nothing waits to be traced. -/
structure Unmarked (h : Heap) : Prop where
  marks : h.marks = Array.replicate h.slots.size false
  gray : h.gray = []

/-- The free list names each empty slot once and nothing else, and handles can tell all slots
apart. -/
structure Arena (h : Heap) : Prop where
  size : h.slots.size ≤ 2 ^ 32
  nodup : h.free.Nodup
  free : ∀ r, r ∈ h.free ↔ r.slot < h.slots.size ∧ h.object? r = none

/-- A live handle is inside the arena. -/
theorem slot_lt_of_object? {o : Object} (ho : h.object? x = some o) : x.slot < h.slots.size := by
  by_contra hge
  simp [object?, Array.getElem?_eq_none (Nat.le_of_not_lt hge)] at ho

/-- The marks that a collection sets from its roots. -/
def marking (h : Heap) (roots : List Handle) : Marking :=
  (Marking.run h.slots (h.journal.note .debug fun _ => s!"gc begin: {h.bytes} bytes, {h.size} objects")
    ((Marking.mk h.marks h.gray).markAll roots)).1

/-- What a collection sweeps. -/
def sweeping (h : Heap) (roots : List Handle) : Sweep :=
  ⟨h.slots, (h.marking roots).marks, h.free, 0, 0,
    (Marking.run h.slots
      (h.journal.note .debug fun _ => s!"gc begin: {h.bytes} bytes, {h.size} objects")
      ((Marking.mk h.marks h.gray).markAll roots)).2⟩

/-- A collection leaves the marks of its sweep. -/
theorem marks_collect : (h.collect roots).marks = (h.sweeping roots).run.marks := rfl

/-- A collection leaves the strings that were marked. -/
theorem strings_collect : (h.collect roots).strings =
    (h.strings.prune fun r => (h.marking roots).marks[r.slot]? = some true).2 := rfl

/-- A collection keeps the number of slots. -/
@[simp] theorem size_slots_collect : (h.collect roots).slots.size = h.slots.size :=
  (Sweep.Swept.run (h.sweeping roots)).size

/-- A collection keeps the objects that it marks, and frees all others. -/
theorem object?_collect_eq (h : Heap) (roots : List Handle) (x : Handle) :
    ((h.marking roots).Marked x ∧ (h.collect roots).object? x = h.object? x) ∨
      (¬ (h.marking roots).Marked x ∧ (h.collect roots).object? x = none) := by
  have ht := Sweep.Swept.run (h.sweeping roots)
  by_cases hm : (h.marking roots).Marked x
  · exact .inl ⟨hm, ht.kept x.slot (.inr hm)⟩
  · refine .inr ⟨hm, ?_⟩
    by_cases hb : x.slot < h.slots.size
    · exact ht.freed x.slot hb hm
    · have hge : (h.collect roots).slots.size ≤ x.slot := by simpa using hb
      simp [object?, Array.getElem?_eq_none hge]

/-- A collection from clear marks marks what its roots reach. -/
theorem Unmarked.marking_iff (hc : h.Unmarked) :
    (h.marking roots).Marked x ↔ h.Reachable roots x ∧ x.slot < h.slots.size := by
  obtain ⟨ht, hg⟩ := (Marking.Traced.start roots (m := ⟨h.marks, h.gray⟩)
    hc.marks hc.gray).run
      (h.journal.note .debug fun _ => s!"gc begin: {h.bytes} bytes, {h.size} objects")
  exact ht.marked_iff hg

/-- What the roots reach keeps its object. -/
theorem object?_collect (hc : h.Unmarked) (hx : h.Reachable roots x) :
    (h.collect roots).object? x = h.object? x := by
  rcases object?_collect_eq h roots x with ⟨-, heq⟩ | ⟨hm, hnone⟩
  · exact heq
  · have hge : h.slots.size ≤ x.slot := Nat.le_of_not_lt fun hb => hm (hc.marking_iff.mpr ⟨hx, hb⟩)
    rw [hnone, object?, Array.getElem?_eq_none hge]
    rfl

/-- What the roots do not reach loses its slot. -/
theorem object?_collect_eq_none (hc : h.Unmarked) (hx : ¬ h.Reachable roots x) :
    (h.collect roots).object? x = none := by
  rcases object?_collect_eq h roots x with ⟨hm, -⟩ | ⟨-, hnone⟩
  · exact absurd (hc.marking_iff.mp hm).1 hx
  · exact hnone

/-- Every object after a collection was there before, and its roots reach it. -/
theorem reachable_of_object?_collect {o : Object} (hc : h.Unmarked)
    (ho : (h.collect roots).object? x = some o) : h.Reachable roots x ∧ h.object? x = some o := by
  by_cases hx : h.Reachable roots x
  · exact ⟨hx, object?_collect hc hx ▸ ho⟩
  · simp [object?_collect_eq_none hc hx] at ho

/-- If all that the roots reach is live, a collection clears the marks it sets. -/
theorem Unmarked.collect (hc : h.Unmarked) (hlive : h.Covers roots) :
    (h.collect roots).Unmarked := by
  have ht := Sweep.Swept.run (h.sweeping roots)
  obtain ⟨hm, hg⟩ := (Marking.Traced.start roots (m := ⟨h.marks, h.gray⟩)
    hc.marks hc.gray).run
      (h.journal.note .debug fun _ => s!"gc begin: {h.bytes} bytes, {h.size} objects")
  have hsize : (h.marking roots).marks.size = h.slots.size := hm.size
  refine ⟨?_, hg⟩
  apply Array.ext_getElem?
  intro i
  rw [marks_collect, ht.marks i, size_slots_collect, Array.getElem?_replicate]
  show (if i < h.slots.size ∧ h.slots[i]?.join.isSome then
    (h.marking roots).marks[i]?.map fun _ => false else (h.marking roots).marks[i]?) = _
  by_cases hi : i < h.slots.size
  · have hbit : (h.marking roots).marks[i]? = some (h.marking roots).marks[i] :=
      Array.getElem?_eq_getElem (hsize ▸ hi)
    rw [if_pos hi]
    by_cases ho : h.slots[i]?.join.isSome
    · rw [if_pos ⟨hi, ho⟩, hbit]
      rfl
    · -- a set mark is of a handle that is reached, hence live
      rw [if_neg fun hand => ho hand.2, hbit, Option.some.injEq]
      by_contra hne
      rw [Bool.not_eq_false] at hne
      rw [hne] at hbit
      have h32 : i < 2 ^ 32 := hm.named i hbit
      have hmark : (h.marking roots).Marked ⟨i.toUInt32⟩ := by
        rw [Marking.Marked, Handle.slot_mk h32]
        exact hbit
      have hlive' := hlive _ (hc.marking_iff.mp hmark).1
      rw [isLive, object?, Handle.slot_mk h32] at hlive'
      exact ho hlive'
  · rw [if_neg fun hand => hi hand.1, if_neg hi, Array.getElem?_eq_none (hsize ▸ Nat.le_of_not_lt hi)]

/-- A collection keeps the free list exact. -/
theorem Arena.collect (roots : List Handle) (ha : h.Arena) : (h.collect roots).Arena := by
  have ht := Sweep.Swept.run (h.sweeping roots)
  obtain ⟨fresh, hfree, hnodup, hmem⟩ := ht.free ha.size
  replace hfree : (h.collect roots).free = fresh ++ h.free := hfree
  have hfresh (r : Handle) : r ∈ fresh ↔
      r.slot < h.slots.size ∧ h.isLive r ∧ ¬ (h.marking roots).Marked r := hmem r
  refine ⟨by simpa using ha.size, ?_, fun r => ?_⟩
  · rw [hfree, List.nodup_append]
    refine ⟨hnodup, ha.nodup, ?_⟩
    rintro r hr _ hr' rfl
    have hlive := ((hfresh r).mp hr).2.1
    simp [isLive, ((ha.free r).mp hr').2] at hlive
  · rw [hfree, List.mem_append, hfresh, ha.free, size_slots_collect]
    rcases object?_collect_eq h roots r with ⟨hr, heq⟩ | ⟨hr, heq⟩
    · simp [heq, hr]
    · by_cases ho : h.object? r = none <;> simp [heq, hr, isLive, ho, Option.isSome_iff_ne_none]

end ScriptMachine.Heap
