import ScriptMachine.Proofs.Heap.Updates
import ScriptMachine.Proofs.Value.References

/-!
# The intern table of every heap

A heap is built from the empty one by operations with any roots, also such that name slots that
were freed long ago: a mark set for such a handle stays set and keeps a later object from being
freed or traced. Still the free list names the empty slots and the intern table lists exactly the
live texts, because a collection prunes the table by the very marks that it sweeps by. So a content
has at most one text, interning finds it, and texts are the same value exactly if their contents
are equal.
-/

namespace ScriptMachine.Heap

variable {h h' : Heap} {roots : Unit → List Handle} {r x : Handle} {o : Object}

/-- The heaps that operations make of the empty one. -/
inductive Built (pacing : Pacing) (journal : Journal) : Heap → Prop
  | empty : Built pacing journal (Heap.empty pacing journal)
  | intern {h h' : Heap} {chars : String} {roots : Unit → List Handle} {r : Handle}
      (before : Built pacing journal h) (done : h.intern chars roots = .ok (r, h')) :
      Built pacing journal h'
  | alloc {h h' : Heap} {o : Object} {roots : Unit → List Handle} {r : Handle}
      (before : Built pacing journal h) (noText : ∀ s, o ≠ .string s)
      (done : h.alloc o roots = .ok (r, h')) : Built pacing journal h'
  | setField {h h' : Heap} {r : Handle} {key : Key} {v : Value} {isNew : Bool}
      (before : Built pacing journal h) (done : h.setField r key v = .ok (isNew, h')) :
      Built pacing journal h'
  | setMethod {h h' : Heap} {r : Handle} {key : Key} {v : Value}
      (before : Built pacing journal h) (done : h.setMethod r key v = .ok h') :
      Built pacing journal h'
  | inherit {h h' : Heap} {subclass superclass : Handle}
      (before : Built pacing journal h) (done : h.inherit subclass superclass = .ok h') :
      Built pacing journal h'
  | setUpvalue {h h' : Heap} {r : Handle} {u : Upvalue}
      (before : Built pacing journal h) (done : h.setUpvalue r u = .ok h') :
      Built pacing journal h'
  | collect {h : Heap} {roots : List Handle} (before : Built pacing journal h) :
      Built pacing journal (h.collect roots)

/-- The free list and the intern table are exact, whichever marks are set. -/
structure Consistent (h : Heap) : Prop where
  arena : h.Arena
  interning : h.Interning

/-! ### One operation -/

/-- The heap without objects is consistent. -/
theorem consistent_empty (pacing : Pacing) (journal : Journal) :
    (empty pacing journal).Consistent :=
  have hs := sound_empty pacing journal
  ⟨hs.arena, hs.interning⟩

/-- A collection keeps a heap consistent, whatever its roots are. -/
theorem Consistent.collect (hc : h.Consistent) (roots : List Handle) : (h.collect roots).Consistent :=
  ⟨hc.arena.collect roots, hc.interning.collect roots⟩

/-- An allocation is an insertion into the heap as it is or after a collection. -/
theorem Consistent.alloc_eq (hc : h.Consistent) (o : Object) (roots : Unit → List Handle) :
    ∃ h₁, (h₁ = h ∨ h₁ = h.collect (roots () ++ o.references)) ∧ h₁.Consistent ∧
      h.alloc o roots = h₁.insert o := by
  unfold Heap.alloc
  split
  · exact ⟨_, .inr rfl, hc.collect _, rfl⟩
  · exact ⟨h, .inl rfl, hc, rfl⟩

/-- Allocating an object that is no text keeps a heap consistent. -/
theorem Consistent.alloc (hc : h.Consistent) (hno : ∀ s, o ≠ .string s)
    (hdone : h.alloc o roots = .ok (r, h')) : h'.Consistent := by
  obtain ⟨h₁, -, hc₁, heq⟩ := hc.alloc_eq o roots
  rcases hc₁.arena.insert o with ⟨r', h'', hok, hins⟩ | herr
  · rw [heq, hok, Except.ok.injEq, Prod.mk.injEq] at hdone
    obtain ⟨-, rfl⟩ := hdone
    exact ⟨hins.arena, hc₁.interning.insert hins hno⟩
  · rw [heq, herr] at hdone
    cases hdone

/-- Replacing an object that is no text by another one, and charging its growth. -/
theorem Consistent.replace {o' : Object} (hc : h.Consistent) (ho : h.object? r = some o)
    (hno : ∀ s, o ≠ .string s) (hno' : ∀ s, o' ≠ .string s) : (h.replace r o').Consistent :=
  ⟨hc.arena.replace o' ho, hc.interning.replace ho hno hno'⟩

/-- Charging changes the account only. -/
theorem Consistent.chargeGrowth (hc : h.Consistent) (before after : Nat) :
    (h.chargeGrowth before after).Consistent :=
  ⟨hc.arena.chargeGrowth before after,
    ⟨hc.interning.valid, hc.interning.key, hc.interning.listed, hc.interning.hash,
      hc.interning.unique⟩⟩

/-- A heap stays consistent when a field is set. -/
theorem Consistent.setField {key : Key} {v : Value} {isNew : Bool} (hc : h.Consistent)
    (hdone : h.setField r key v = .ok (isNew, h')) : h'.Consistent := by
  obtain ⟨i, hi, -, rfl⟩ := exists_of_setField hdone
  exact (hc.replace hi (by simp) (by simp)).chargeGrowth _ _

/-- A heap stays consistent when a method is set. -/
theorem Consistent.setMethod {key : Key} {v : Value} (hc : h.Consistent)
    (hdone : h.setMethod r key v = .ok h') : h'.Consistent := by
  obtain ⟨c, hclass, rfl⟩ := exists_of_setMethod hdone
  exact (hc.replace hclass (by simp) (by simp)).chargeGrowth _ _

/-- A heap stays consistent when methods are inherited. -/
theorem Consistent.inherit {subclass superclass : Handle} (hc : h.Consistent)
    (hdone : h.inherit subclass superclass = .ok h') : h'.Consistent := by
  obtain ⟨s, c, -, hsub, rfl⟩ := exists_of_inherit hdone
  exact (hc.replace hsub (by simp) (by simp)).chargeGrowth _ _

/-- A heap stays consistent when an upvalue is closed. -/
theorem Consistent.setUpvalue {u : Upvalue} (hc : h.Consistent)
    (hdone : h.setUpvalue r u = .ok h') : h'.Consistent := by
  obtain ⟨old, hold, rfl⟩ := exists_of_setUpvalue hdone
  exact hc.replace hold (by simp) (by simp)

/-! ### Interning -/

/-- What interning a content comes to: the one live text with it as it is, else a new text in an
empty slot, possibly after a collection, unless every slot of the largest arena is taken. -/
inductive Interns (h : Heap) (chars : String) (roots : Unit → List Handle) :
    Except Fault (Handle × Heap) → Prop
  | present {r : Handle} {s : Interned} (live : h.object? r = some (.string s))
      (content : s.chars = chars) : Interns h chars roots (.ok (r, h))
  | fresh {h₁ h' : Heap} {r : Handle}
      (absent : ∀ r s, h.object? r = some (.string s) → s.chars ≠ chars)
      (prepared : h₁ = h ∨ h₁ = h.collect (roots ())) (vacant : h₁.object? r = none)
      (new : ∀ x, h'.object? x = if x = r then some (.string ⟨chars, Text.hash chars⟩)
        else h₁.object? x) : Interns h chars roots (.ok (r, h'))
  | full {h₁ : Heap} (absent : ∀ r s, h.object? r = some (.string s) → s.chars ≠ chars)
      (prepared : h₁ = h ∨ h₁ = h.collect (roots ())) (taken : ∀ x, h₁.isLive x) :
      Interns h chars roots (.error .arenaFull)

/-- The arena is exhausted only if every handle is live. -/
theorem Arena.full (ha : h.Arena) (hfull : h.insert o = .error .arenaFull) (x : Handle) :
    h.isLive x := by
  unfold Heap.insert at hfull
  split at hfull
  · cases hfull
  · next hfree =>
    split at hfull
    · cases hfull
    · next hsize =>
      have hx : x.slot < h.slots.size := Nat.lt_of_lt_of_le x.index.toNat_lt (Nat.le_of_not_lt hsize)
      by_contra hdead
      have hnone : h.object? x = none := by simpa [isLive] using hdead
      have hin := (ha.free x).mpr ⟨hx, hnone⟩
      rw [hfree] at hin
      cases hin

/-- Interning finds the live text with a content or makes it, and keeps a heap consistent. -/
theorem Consistent.intern (hc : h.Consistent) (chars : String) (roots : Unit → List Handle) :
    Interns h chars roots (h.intern chars roots) ∧
      ∀ r h', h.intern chars roots = .ok (r, h') → h'.Consistent := by
  obtain ⟨hfound, hmissed⟩ := hc.interning.findString? chars
  unfold Heap.intern
  cases hsearch : h.findString? chars (Text.hash chars) with
  | some r =>
    simp only [hsearch]
    refine ⟨.present (hfound r hsearch) rfl, fun r' h' hok => ?_⟩
    obtain ⟨-, rfl⟩ := Prod.mk.inj (Except.ok.inj hok)
    exact hc
  | none =>
    have habsent := hmissed hsearch
    have hrefs : roots () ++ (Object.string ⟨chars, Text.hash chars⟩).references = roots () :=
      List.append_nil _
    obtain ⟨h₁, hprepared, hc₁, heq⟩ := hc.alloc_eq (.string ⟨chars, Text.hash chars⟩) roots
    rw [hrefs] at hprepared
    have habsent₁ (x : Handle) (s : Interned) (hx : h₁.object? x = some (.string s)) :
        s.chars ≠ chars := by
      rcases hprepared with rfl | rfl
      · exact habsent x s hx
      · rcases object?_collect_eq h (roots ()) x with ⟨-, hkept⟩ | ⟨-, hnone⟩
        · exact habsent x s (hkept ▸ hx)
        · rw [hnone] at hx
          cases hx
    rcases hc₁.arena.insert (.string ⟨chars, Text.hash chars⟩) with ⟨r, h', hok, hins⟩ | herr
    · simp only [hsearch, heq, hok]
      refine ⟨.fresh habsent hprepared hins.vacant hins.object?, fun r' h'' hdone => ?_⟩
      obtain ⟨-, rfl⟩ := Prod.mk.inj (Except.ok.inj hdone)
      exact ⟨hins.arena.addString _, hc₁.interning.addString hins habsent₁⟩
    · simp only [hsearch, heq, herr]
      exact ⟨.full habsent hprepared (hc₁.arena.full herr), fun r h' hok => by cases hok⟩

/-! ### Every heap -/

/-- Every heap that is built is consistent. -/
theorem Built.consistent {pacing : Pacing} {journal : Journal} (hb : Built pacing journal h) :
    h.Consistent := by
  induction hb with
  | empty => exact consistent_empty pacing journal
  | intern _ done ih => exact (ih.intern _ _).2 _ _ done
  | alloc _ noText done ih => exact ih.alloc noText done
  | setField _ done ih => exact ih.setField done
  | setMethod _ done ih => exact ih.setMethod done
  | inherit _ done ih => exact ih.inherit done
  | setUpvalue _ done ih => exact ih.setUpvalue done
  | collect _ ih => exact ih.collect _

/-- On every heap the keys of the intern table are the live texts, each once and under its own
hash, which is that of its content; no two live texts have one content; interning gives the live
text with a content, else a new one; and two live texts are the same value exactly if their
contents are equal. -/
theorem built_interns_exactly (pacing : Pacing) (journal : Journal) (h : Heap)
    (hb : Built pacing journal h) :
    ((h.strings.toList.map fun e => e.1.string).Nodup ∧
      (∀ r, r ∈ h.strings.toList.map (fun e => e.1.string) ↔ ∃ s, h.object? r = some (.string s)) ∧
      ∀ k v, (k, v) ∈ h.strings.toList →
        ∃ s, h.object? k.string = some (.string s) ∧ k.hash = s.hash ∧ s.hash = Text.hash s.chars) ∧
    (∀ chars roots, Interns h chars roots (h.intern chars roots)) ∧
    ∀ r x s t, h.object? r = some (.string s) → h.object? x = some (.string t) →
      ((s.chars = t.chars → r = x) ∧
        ((Value.ofHandle r).same (.ofHandle x) = true ↔ s.chars = t.chars)) := by
  have hc := hb.consistent
  have hi := hc.interning
  have hunique (r x : Handle) (s t : Interned) (hr : h.object? r = some (.string s))
      (hx : h.object? x = some (.string t)) : r = x ↔ s.chars = t.chars := by
    constructor
    · rintro rfl
      rw [hr, Option.some.injEq, Object.string.injEq] at hx
      rw [hx]
    · exact hi.unique r x s t hr hx
  refine ⟨⟨?_, fun r => ?_, fun k v hk => ?_⟩, fun chars roots => (hc.intern chars roots).1,
    fun r x s t hr hx => ⟨(hunique r x s t hr hx).mpr, ?_⟩⟩
  · rw [List.Nodup, List.pairwise_map]
    exact hi.valid.pairwise_toList
  · rw [List.mem_map]
    constructor
    · rintro ⟨⟨k, v⟩, hk, rfl⟩
      obtain ⟨s, hs, -⟩ := hi.key k v (Table.mem_toList.mp hk)
      exact ⟨s, hs⟩
    · rintro ⟨s, hs⟩
      obtain ⟨k, v, hk, rfl⟩ := hi.listed r s hs
      exact ⟨(k, v), Table.mem_toList.mpr hk, rfl⟩
  · obtain ⟨s, hs, hh⟩ := hi.key k v (Table.mem_toList.mp hk)
    exact ⟨s, hs, hh, hi.hash _ s hs⟩
  · rw [Value.same_ofHandle]
    exact hunique r x s t hr hx

/-- A text that a collection took is not found again: interning its content makes a new text, also
with the old handle among the roots. -/
theorem built_interns_anew : ∃ r h, (empty Pacing.standard Journal.off).intern "lost" (fun _ => []) =
      .ok (r, h) ∧ Built Pacing.standard Journal.off (h.collect []) ∧
    (h.collect []).strings.toList = [] ∧ ¬ (h.collect []).isLive r ∧
    ∃ r' h', (h.collect []).intern "lost" (fun _ => [r]) = .ok (r', h') ∧
      h'.object? r' = some (.string ⟨"lost", Text.hash "lost"⟩) := by
  obtain ⟨r, h, hmade⟩ : ∃ r h, (empty Pacing.standard Journal.off).intern "lost" (fun _ => []) =
      .ok (r, h) := ⟨_, _, rfl⟩
  have hb : Built Pacing.standard Journal.off (h.collect []) := .collect (.intern .empty hmade)
  obtain ⟨⟨-, hkeys, -⟩, hinterns, -⟩ :=
    built_interns_exactly Pacing.standard Journal.off (h.collect []) hb
  -- nothing is live without roots
  have hu : h.Unmarked := by
    have hnone : (empty Pacing.standard Journal.off).Covers [] :=
      fun x hx => (not_reachable_nil hx).elim
    rcases (sound_empty Pacing.standard Journal.off).intern "lost" hnone with
      ⟨r', h', hok, hi⟩ | herr
    · rw [hmade, Except.ok.injEq, Prod.mk.injEq] at hok
      exact hok.2 ▸ hi.sound.unmarked
    · rw [hmade] at herr
      cases herr
  have hdead (x : Handle) : (h.collect []).object? x = none :=
    object?_collect_eq_none hu not_reachable_nil
  refine ⟨r, h, hmade, hb, ?_, by simp [isLive, hdead r], ?_⟩
  · rw [List.eq_nil_iff_forall_not_mem]
    intro e he
    obtain ⟨s, hs⟩ := (hkeys e.1.string).mp (List.mem_map_of_mem he)
    simp [hdead] at hs
  · have hagain := hinterns "lost" fun _ => [r]
    generalize hdone : (h.collect []).intern "lost" (fun _ => [r]) = result at hagain
    cases hagain with
    | present live => simp [hdead] at live
    | fresh absent prepared vacant new => exact ⟨_, _, rfl, by rw [new, if_pos rfl]⟩
    | full absent prepared taken =>
      have hlive := taken r
      rcases prepared with rfl | rfl
      · simp [isLive, hdead] at hlive
      · rcases object?_collect_eq (h.collect []) [r] r with ⟨-, heq⟩ | ⟨-, heq⟩ <;>
          simp [isLive, heq, hdead] at hlive

end ScriptMachine.Heap
