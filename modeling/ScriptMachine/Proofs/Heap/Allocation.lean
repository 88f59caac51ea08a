import ScriptMachine.Proofs.Heap.Collection

/-!
# Allocation

An object enters an empty slot, so nothing that lives is overwritten. Together with the exactness
of collections this shows what an allocation may change: it can only free what neither the roots
nor the new object lead to.
-/

namespace ScriptMachine.Heap

variable {h : Heap} {roots : List Handle} {r x : Handle} {o : Object}

/-- Keeping an event changes the journal alone. -/
theorem note_eq (s : Severity) (text : Unit → String) :
    ∃ journal, h.note s text = { h with journal := journal } := by
  unfold note
  split
  · exact ⟨_, rfl⟩
  · exact ⟨h.journal, rfl⟩

/-- Counting a new object changes the account and the journal alone. -/
theorem enroll_eq (size : Nat) (kind : Kind) : ∃ journal, h.enroll r size kind = { h with
    bytes := h.bytes + size
    stats := { h.stats with
      peakBytes := max h.stats.peakBytes (h.bytes + size)
      objectsAllocated := h.stats.objectsAllocated + 1 }
    journal := journal } := by
  unfold enroll
  exact note_eq _ _

/-- What an insertion does to the arena: the object enters an empty slot, and all else stays. -/
structure Inserted (h : Heap) (o : Object) (r : Handle) (h' : Heap) : Prop where
  vacant : h.object? r = none
  object? : ∀ x, h'.object? x = if x = r then some o else h.object? x
  strings : h'.strings = h.strings
  arena : h'.Arena
  unmarked : h.Unmarked → h'.Unmarked

/-- An insertion fills an empty slot, or finds the arena exhausted. -/
theorem Arena.insert (ha : h.Arena) (o : Object) :
    (∃ r h', h.insert o = .ok (r, h') ∧ Inserted h o r h') ∨ h.insert o = .error .arenaFull := by
  unfold Heap.insert
  split
  · next r rest hfree =>
    have hr : r.slot < h.slots.size ∧ h.object? r = none := (ha.free r).mp (hfree ▸ List.mem_cons_self)
    have hnodup : r ∉ rest ∧ rest.Nodup := List.nodup_cons.mp (hfree ▸ ha.nodup)
    obtain ⟨journal, heq⟩ := enroll_eq
      (h := { h with slots := h.slots.setIfInBounds r.slot (some o), free := rest })
      (r := r) o.bytes o.kind
    refine .inl ⟨r, _, rfl, ?_⟩
    rw [heq]
    refine ⟨hr.2, ?_, rfl, ⟨by simpa using ha.size, hnodup.2, ?_⟩, ?_⟩
    · intro x
      simp only [Heap.object?, Array.getElem?_setIfInBounds, Handle.slot_inj]
      by_cases hx : x = r
      · simp [hx, hr.1]
      · simp [hx, Ne.symm hx]
    · intro x
      simp only [Array.size_setIfInBounds, Heap.object?, Array.getElem?_setIfInBounds,
        Handle.slot_inj]
      by_cases hx : x = r
      · subst hx
        simp [hnodup.1, hr.1]
      · have hmem : x ∈ h.free ↔ x ∈ rest := by rw [hfree, List.mem_cons, or_iff_right hx]
        rw [← hmem, ha.free]
        simp [Ne.symm hx, Heap.object?]
    · exact fun hc => ⟨by simp [hc.marks], hc.gray⟩
  · next hfree =>
    split
    · next hsize =>
      have hslot : Handle.slot ⟨h.slots.size.toUInt32⟩ = h.slots.size := Handle.slot_mk hsize
      have hobject (x : Handle) : (h.slots.push (some o))[x.slot]?.join =
          if x = ⟨h.slots.size.toUInt32⟩ then some o else h.object? x := by
        rw [Array.getElem?_push]
        by_cases hx : x = ⟨h.slots.size.toUInt32⟩
        · simp [hx, hslot]
        · have hne : x.slot ≠ h.slots.size := fun e =>
            hx (Handle.slot_injective (e.trans hslot.symm))
          simp [hx, hne, Heap.object?]
      obtain ⟨journal, heq⟩ := enroll_eq
        (h := { h with slots := h.slots.push (some o), marks := h.marks.push false })
        (r := ⟨h.slots.size.toUInt32⟩) o.bytes o.kind
      refine .inl ⟨_, _, rfl, ?_⟩
      rw [heq]
      refine ⟨?_, ?_, rfl, ⟨?_, ?_, ?_⟩, ?_⟩
      · simp [Heap.object?, hslot]
      · intro x
        simpa [Heap.object?] using hobject x
      · rw [Array.size_push]
        exact hsize
      · simp [hfree]
      · intro x
        simp only [hfree, List.not_mem_nil, false_iff, Array.size_push, Heap.object?, hobject x]
        rintro ⟨hb, hn⟩
        split at hn
        · simp at hn
        · next hx =>
          have hne : x.slot ≠ h.slots.size := fun e =>
            hx (Handle.slot_injective (e.trans hslot.symm))
          exact absurd ((ha.free x).mpr ⟨by omega, hn⟩) (by simp [hfree])
      · intro hc
        exact ⟨by simp [hc.marks, Array.replicate_succ], hc.gray⟩
    · exact .inr rfl

/-- What an allocation does to the arena: the object enters a slot that nothing needed lives in,
what the roots and the object lead to stays, and nothing else appears. -/
structure Allocated (h : Heap) (roots : List Handle) (o : Object) (r : Handle) (h' : Heap) :
    Prop where
  new : h'.object? r = some o
  fresh : ∀ x, h.Reachable (roots ++ o.references) x → x ≠ r
  kept : ∀ x, h.Reachable (roots ++ o.references) x → h'.object? x = h.object? x
  old : ∀ x o', h'.object? x = some o' → x ≠ r → h.object? x = some o'
  arena : h'.Arena
  unmarked : h'.Unmarked

/-- After an allocation the new object and what was kept lead to live objects only. -/
theorem Allocated.covers (ha : Allocated h roots o r h') (hlive : h.Covers (roots ++ o.references)) :
    h'.Covers (r :: roots) := by
  have hreach (x : Handle) (hx : h'.Reachable (r :: roots) x) :
      x = r ∨ h.Reachable (roots ++ o.references) x := by
    induction hx with
    | root mem =>
      rcases List.mem_cons.mp mem with rfl | mem
      · exact .inl rfl
      · exact .inr (.root (List.mem_append_left _ mem))
    | @step x o' y _ object stores ih =>
      rcases ih with rfl | hx
      · rw [ha.new, Option.some.injEq] at object
        subst object
        exact .inr (.root (List.mem_append_right _ (Object.mem_references.mpr stores)))
      · exact .inr (hx.step ((ha.kept x hx).symm.trans object) stores)
  intro x hx
  rcases hreach x hx with rfl | hx
  · exact isLive_iff.mpr ⟨o, ha.new⟩
  · rw [isLive, ha.kept x hx]
    exact hlive x hx

/-- An allocation on a heap that covers what is kept succeeds unless the arena is exhausted. -/
theorem Arena.alloc (ha : h.Arena) (hc : h.Unmarked) (o : Object)
    (hlive : h.Covers (roots ++ o.references)) :
    (∃ r h', h.alloc o (fun _ => roots) = .ok (r, h') ∧ Allocated h roots o r h') ∨
      h.alloc o (fun _ => roots) = .error .arenaFull := by
  unfold Heap.alloc
  split
  · rcases (ha.collect (roots ++ o.references)).insert o with
      ⟨r, h', heq, hi⟩ | heq
    · refine .inl ⟨r, h', heq, ?_, ?_, ?_, ?_, hi.arena, hi.unmarked (hc.collect hlive)⟩
      · simp [hi.object?]
      · rintro x hx rfl
        have := hlive x hx
        simp [isLive, ← object?_collect hc hx, hi.vacant] at this
      · intro x hx
        have hne : x ≠ r := by
          rintro rfl
          have := hlive x hx
          simp [isLive, ← object?_collect hc hx, hi.vacant] at this
        rw [hi.object?, if_neg hne, object?_collect hc hx]
      · intro x o' hx hne
        rw [hi.object?, if_neg hne] at hx
        exact (reachable_of_object?_collect hc hx).2
    · exact .inr heq
  · rcases ha.insert o with ⟨r, h', heq, hi⟩ | heq
    · have hne (x : Handle) (hx : h.Reachable (roots ++ o.references) x) : x ≠ r := by
        rintro rfl
        have := hlive x hx
        simp [isLive, hi.vacant] at this
      refine .inl ⟨r, h', heq, by simp [hi.object?], hne, ?_, ?_, hi.arena, hi.unmarked hc⟩
      · intro x hx
        rw [hi.object?, if_neg (hne x hx)]
      · intro x o' hx hxr
        rwa [hi.object?, if_neg hxr] at hx
    · exact .inr heq

/-- On a heap with clear marks: a collection whose roots lead to live objects only keeps exactly
what they reach, unchanged, and leaves the marks clear; an allocation keeps everything that its
roots or its object lead to; and a region that no root is in and nothing outside points into,
such as a cycle, is gone after one collection. -/
theorem collect_frees_exactly_unreachable (h : Heap) (hclear : h.Unmarked) :
    (∀ roots, h.Covers roots →
      (∀ x, (h.collect roots).isLive x ↔ h.Reachable roots x) ∧
      (∀ x o, (h.collect roots).object? x = some o → h.object? x = some o) ∧
      (h.collect roots).Unmarked) ∧
    (∀ roots o, h.Arena → h.Covers (roots ++ o.references) →
      h.alloc o (fun _ => roots) = .error .arenaFull ∨
      ∃ r h', h.alloc o (fun _ => roots) = .ok (r, h') ∧ h'.object? r = some o ∧
        ∀ x, h.Reachable (roots ++ o.references) x → x ≠ r ∧ h'.object? x = h.object? x) ∧
    (∀ roots (region : Handle → Prop), (∀ x ∈ roots, ¬ region x) →
      (∀ x o y, h.object? x = some o → o.Stores y → region y → region x) →
      ∀ x, region x → ¬ (h.collect roots).isLive x) := by
  refine ⟨fun roots hlive => ⟨fun x => ?_, fun x o hx => ?_, hclear.collect hlive⟩, ?_, ?_⟩
  · constructor
    · intro hx
      obtain ⟨o, ho⟩ := isLive_iff.mp hx
      exact (reachable_of_object?_collect hclear ho).1
    · intro hx
      rw [isLive, object?_collect hclear hx]
      exact hlive x hx
  · exact (reachable_of_object?_collect hclear hx).2
  · intro roots o ha hlive
    rcases ha.alloc hclear o hlive with ⟨r, h', heq, halloc⟩ | heq
    · exact .inr ⟨r, h', heq, halloc.new, fun x hx => ⟨halloc.fresh x hx, halloc.kept x hx⟩⟩
    · exact .inl heq
  · intro roots region hroots hinto x hx
    have hout : ¬ h.Reachable roots x := by
      intro hr
      induction hr with
      | root mem => exact hroots _ mem hx
      | step _ object stores ih => exact ih (hinto _ _ _ object stores hx)
    simp [isLive, object?_collect_eq_none hclear hout]

/-- Two upvalues that hold each other, and a text beside them. -/
def cycleBesideText : Heap :=
  { empty Pacing.standard Journal.off with
    slots := #[some (.upvalue (.closed (.ofHandle ⟨1⟩))), some (.upvalue (.closed (.ofHandle ⟨0⟩))),
      some (.string ⟨"kept", Text.hash "kept"⟩)]
    marks := #[false, false, false] }

/-- With the text as the only root, one collection reclaims the cycle and keeps the text. -/
theorem collect_reclaims_cycle :
    cycleBesideText.Unmarked ∧ (cycleBesideText.collect [⟨2⟩]).isLive ⟨2⟩ ∧
      ¬ (cycleBesideText.collect [⟨2⟩]).isLive ⟨0⟩ ∧
      ¬ (cycleBesideText.collect [⟨2⟩]).isLive ⟨1⟩ := by
  have hclear : cycleBesideText.Unmarked := ⟨rfl, rfl⟩
  have hreach (x : Handle) (hx : cycleBesideText.Reachable [⟨2⟩] x) : x = ⟨2⟩ := by
    induction hx with
    | root mem => simpa using mem
    | step _ object stores ih =>
      subst ih
      simp only [object?, Handle.slot, cycleBesideText] at object
      cases object
      cases stores
  have hlive : cycleBesideText.Covers [⟨2⟩] := by
    intro x hx
    rw [hreach x hx]
    rfl
  have hexact := ((collect_frees_exactly_unreachable cycleBesideText hclear).1 [⟨2⟩] hlive).1
  refine ⟨hclear, (hexact _).mpr (.root (by simp)), ?_, ?_⟩
  · intro h0
    exact absurd (hreach _ ((hexact _).mp h0)) (by decide)
  · intro h1
    exact absurd (hreach _ ((hexact _).mp h1)) (by decide)

end ScriptMachine.Heap
