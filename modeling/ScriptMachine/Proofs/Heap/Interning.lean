import ScriptMachine.Proofs.Heap.Allocation

/-!
# Interned texts

The table of interned texts lists exactly the live texts, each under its own hash, and no two
live texts have one content. Collections prune the table together with the arena, so the
invariant holds at every step of every session, and interning a content gives the one live text
with it.
-/

namespace ScriptMachine.Heap

variable {h h' : Heap} {roots : List Handle} {r x : Handle} {o : Object}

/-- The intern table lists the live texts, and a content has at most one text. -/
structure Interning (h : Heap) : Prop where
  valid : h.strings.Valid
  key : ∀ k v, Entry.live k v ∈ h.strings.entries →
    ∃ s, h.object? k.string = some (.string s) ∧ k.hash = s.hash
  listed : ∀ r s, h.object? r = some (.string s) →
    ∃ k v, Entry.live k v ∈ h.strings.entries ∧ k.string = r
  hash : ∀ r s, h.object? r = some (.string s) → s.hash = Text.hash s.chars
  unique : ∀ r r' s s', h.object? r = some (.string s) → h.object? r' = some (.string s') →
    s.chars = s'.chars → r = r'

/-- A heap between two operations. -/
structure Sound (h : Heap) : Prop where
  arena : h.Arena
  unmarked : h.Unmarked
  interning : h.Interning

/-- Two heaps that differ in their account, their pacing and their journal at most. -/
structure Alike (h h' : Heap) : Prop where
  slots : h'.slots = h.slots
  marks : h'.marks = h.marks
  free : h'.free = h.free
  gray : h'.gray = h.gray
  strings : h'.strings = h.strings

/-- Every heap is like itself. -/
@[refl] theorem Alike.refl (h : Heap) : h.Alike h := ⟨rfl, rfl, rfl, rfl, rfl⟩

/-- Alike heaps hold the same objects. -/
theorem Alike.object? (ha : h.Alike h') (x : Handle) : h'.object? x = h.object? x := by
  rw [Heap.object?, Heap.object?, ha.slots]

/-- Keeping an event changes no object. -/
theorem alike_note (h : Heap) (s : Severity) (text : Unit → String) : h.Alike (h.note s text) := by
  obtain ⟨journal, heq⟩ := note_eq (h := h) s text
  rw [heq]
  exact ⟨rfl, rfl, rfl, rfl, rfl⟩

/-- Soundness is about the arena and the intern table only. -/
theorem Sound.congr (hs : h.Sound) (ha : h.Alike h') : h'.Sound := by
  obtain ⟨hslots, hmarks, hfree, hgray, hstrings⟩ := ha
  have hobject (x : Handle) : h'.object? x = h.object? x := by rw [object?, object?, hslots]
  refine ⟨⟨?_, ?_, ?_⟩, ⟨?_, ?_⟩, ⟨?_, ?_, ?_, ?_, ?_⟩⟩
  · exact hslots ▸ hs.arena.size
  · exact hfree ▸ hs.arena.nodup
  · intro r
    rw [hfree, hslots, hobject]
    exact hs.arena.free r
  · rw [hmarks, hslots]
    exact hs.unmarked.marks
  · exact hgray ▸ hs.unmarked.gray
  · exact hstrings ▸ hs.interning.valid
  · simpa only [hstrings, hobject] using hs.interning.key
  · simpa only [hstrings, hobject] using hs.interning.listed
  · simpa only [hobject] using hs.interning.hash
  · simpa only [hobject] using hs.interning.unique

/-- The heap without objects is sound. -/
theorem sound_empty (pacing : Pacing) (journal : Journal) : (empty pacing journal).Sound := by
  have hnone (x : Handle) : (empty pacing journal).object? x = none := by simp [object?, empty]
  refine ⟨⟨by simp [empty], by simp [empty], ?_⟩, ⟨rfl, rfl⟩, ⟨Table.valid_empty, ?_, ?_, ?_, ?_⟩⟩
  · intro r
    simp [empty]
  · simp [empty, Table.empty]
  · simp [hnone]
  · simp [hnone]
  · simp [hnone]

/-- A collection keeps the intern table exact: it drops the very texts from the table that it frees. -/
theorem Interning.collect (roots : List Handle) (hi : h.Interning) : (h.collect roots).Interning := by
  obtain ⟨hvalid, hmem⟩ := hi.valid.prune fun r => (h.marking roots).marks[r.slot]? = some true
  rw [← strings_collect] at hvalid hmem
  have hold (r : Handle) (s : Interned)
      (hr : (h.collect roots).object? r = some (.string s)) :
      (h.marking roots).Marked r ∧ h.object? r = some (.string s) := by
    rcases object?_collect_eq h roots r with ⟨hm, heq⟩ | ⟨-, hnone⟩
    · exact ⟨hm, heq ▸ hr⟩
    · rw [hnone] at hr
      cases hr
  refine ⟨hvalid, ?_, ?_, fun r s hr => hi.hash r s (hold r s hr).2, ?_⟩
  · intro k v hk
    obtain ⟨hk, hmark⟩ := (hmem k v).mp hk
    obtain ⟨s, hs, hh⟩ := hi.key k v hk
    have hmark' : (h.marking roots).Marked k.string :=
      of_decide_eq_true (p := (h.marking roots).marks[k.string.slot]? = some true) hmark
    rcases object?_collect_eq h roots k.string with ⟨-, heq⟩ | ⟨hm, -⟩
    · exact ⟨s, by rw [heq, hs], hh⟩
    · exact absurd hmark' hm
  · intro r s hr
    obtain ⟨hmark, hr⟩ := hold r s hr
    obtain ⟨k, v, hk, rfl⟩ := hi.listed r s hr
    exact ⟨k, v, (hmem k v).mpr ⟨hk,
      decide_eq_true (p := (h.marking roots).marks[k.string.slot]? = some true) hmark⟩, rfl⟩
  · intro r r' s s' hr hr'
    exact hi.unique r r' s s' (hold r s hr).2 (hold r' s' hr').2

/-- A collection that covers what it keeps leaves a sound heap. -/
theorem Sound.collect (hs : h.Sound) (hlive : h.Covers roots) : (h.collect roots).Sound :=
  ⟨hs.arena.collect roots, hs.unmarked.collect hlive, hs.interning.collect roots⟩

/-- `h'` is what an allocation makes room in: the heap as it is, or after a collection. -/
structure Prepared (h : Heap) (roots : List Handle) (h' : Heap) : Prop where
  kept : ∀ x, h.Reachable roots x → h'.object? x = h.object? x
  old : ∀ x o, h'.object? x = some o → h.object? x = some o
  sound : h'.Sound

/-- An allocation is an insertion into a prepared heap. -/
theorem Sound.alloc_eq (hs : h.Sound) (o : Object) (hlive : h.Covers (roots ++ o.references)) :
    ∃ h', Prepared h (roots ++ o.references) h' ∧ h.alloc o (fun _ => roots) = h'.insert o := by
  unfold Heap.alloc
  split
  · exact ⟨_, ⟨fun x hx => object?_collect hs.unmarked hx,
      fun x o hx => (reachable_of_object?_collect hs.unmarked hx).2, hs.collect hlive⟩, rfl⟩
  · exact ⟨h, ⟨fun _ _ => rfl, fun _ _ hx => hx, hs⟩, rfl⟩

/-- Inserting an object that is no text keeps the intern table exact. -/
theorem Interning.insert (hi : h.Interning) (hins : Inserted h o r h')
    (hno : ∀ s, o ≠ .string s) : h'.Interning := by
  have hobject (x : Handle) (s : Interned) :
      h'.object? x = some (.string s) ↔ h.object? x = some (.string s) := by
    rw [hins.object?]
    split
    · next hx =>
      rw [hx, hins.vacant]
      simp [hno s]
    · rfl
  refine ⟨hins.strings ▸ hi.valid, ?_, ?_, ?_, ?_⟩
  · simpa only [hins.strings, hobject] using hi.key
  · simpa only [hins.strings, hobject] using hi.listed
  · simpa only [hobject] using hi.hash
  · simpa only [hobject] using hi.unique

/-- An allocation of an object that is no text gives a fresh handle in a sound heap, unless the
arena is exhausted. -/
theorem Sound.alloc (hs : h.Sound) (o : Object) (hno : ∀ s, o ≠ .string s)
    (hlive : h.Covers (roots ++ o.references)) :
    (∃ r h', h.alloc o (fun _ => roots) = .ok (r, h') ∧ Allocated h roots o r h' ∧ h'.Sound) ∨
      h.alloc o (fun _ => roots) = .error .arenaFull := by
  obtain ⟨h₁, hp, heq⟩ := hs.alloc_eq o hlive
  rcases hs.arena.alloc hs.unmarked o hlive with ⟨r, h', hok, ha⟩ | herr
  · refine .inl ⟨r, h', hok, ha, ha.arena, ha.unmarked, ?_⟩
    rcases hp.sound.arena.insert o with ⟨r', h'', hok', hins⟩ | herr'
    · rw [heq, hok', Except.ok.injEq, Prod.mk.injEq] at hok
      exact hok.2 ▸ hp.sound.interning.insert hins hno
    · rw [heq, herr'] at hok
      simp at hok
  · exact .inr herr

/-- What interning a content gives: the one live text with it. -/
structure InternedAs (h : Heap) (roots : List Handle) (chars : String) (r : Handle) (h' : Heap) :
    Prop where
  new : h'.object? r = some (.string ⟨chars, Text.hash chars⟩)
  kept : ∀ x, h.Reachable roots x → h'.object? x = h.object? x
  old : ∀ x o, h'.object? x = some o → x ≠ r → h.object? x = some o
  sound : h'.Sound

/-- The search for a text finds the live text with the content, if there is one. -/
theorem Interning.findString? (hi : h.Interning) (chars : String) :
    (∀ r, h.findString? chars (Text.hash chars) = some r →
      h.object? r = some (.string ⟨chars, Text.hash chars⟩)) ∧
    (h.findString? chars (Text.hash chars) = none →
      ∀ r s, h.object? r = some (.string s) → s.chars ≠ chars) := by
  obtain ⟨hfound, hmissed⟩ := hi.valid.findText? (Text.hash chars) _
  unfold Heap.findString?
  constructor
  · intro r hr
    obtain ⟨k, v, hk, -, rfl, hwanted⟩ := hfound r hr
    obtain ⟨s, hobject, -⟩ := hi.key k v hk
    rw [hobject] at hwanted ⊢
    have hchars : s.chars = chars := of_decide_eq_true hwanted
    have hhash := hi.hash _ _ hobject
    cases s
    simp_all
  · intro hnone r s hr hchars
    obtain ⟨k, v, hk, rfl⟩ := hi.listed r s hr
    obtain ⟨s', hobject, hh⟩ := hi.key k v hk
    rw [hr, Option.some.injEq, Object.string.injEq] at hobject
    subst hobject
    have hmiss := hmissed hnone k v hk (by rw [hh, hi.hash _ _ hr, hchars])
    simp [hr, hchars] at hmiss

/-- Listing the handle of a new text makes the intern table exact again. -/
theorem Interning.addString {chars : String} (hold : h.Interning)
    (hins : Inserted h (.string ⟨chars, Text.hash chars⟩) r h')
    (hnew : ∀ x s, h.object? x = some (.string s) → s.chars ≠ chars) :
    (h'.addString ⟨r, Text.hash chars⟩).Interning := by
  have hslots : (h'.addString ⟨r, Text.hash chars⟩).slots = h'.slots := rfl
  have hobject (x : Handle) : (h'.addString ⟨r, Text.hash chars⟩).object? x =
      if x = r then some (.string ⟨chars, Text.hash chars⟩) else h.object? x := by
    rw [object?, hslots]
    exact hins.object? x
  have hstrings : (h'.addString ⟨r, Text.hash chars⟩).strings =
      (h.strings.insert ⟨r, Text.hash chars⟩ .null).2 := by
    rw [← hins.strings]
    rfl
  have habsent : ∀ k v, Entry.live k v ∈ h.strings.entries → k.string ≠ r := by
    rintro k v hk rfl
    obtain ⟨s, hs', -⟩ := hold.key k v hk
    simp [hins.vacant] at hs'
  have hagrees : Table.Agrees h.strings.entries ⟨r, Text.hash chars⟩ :=
    fun k v hk he => absurd he (habsent k v hk)
  have hi := hold.valid.insert hagrees .null
  have hmem (k : Key) (v : Value) : Entry.live k v ∈ (h'.addString ⟨r, Text.hash chars⟩).strings.entries ↔
      (k = ⟨r, Text.hash chars⟩ ∧ v = .null) ∨ Entry.live k v ∈ h.strings.entries := by
    rw [hstrings, hi.mem]
    exact or_congr_right ⟨And.left, fun hk => ⟨hk, habsent k v hk⟩⟩
  refine ⟨hstrings ▸ hi.valid, ?_, ?_, ?_, ?_⟩
  · intro k v hk
    rcases (hmem k v).mp hk with ⟨rfl, -⟩ | hk
    · exact ⟨_, by rw [hobject, if_pos rfl], rfl⟩
    · rw [hobject, if_neg (habsent k v hk)]
      exact hold.key k v hk
  · intro x s hx
    rw [hobject] at hx
    split at hx
    · next h => exact ⟨_, _, (hmem _ _).mpr (.inl ⟨rfl, rfl⟩), h.symm⟩
    · obtain ⟨k, v, hk, hkx⟩ := hold.listed x s hx
      exact ⟨k, v, (hmem k v).mpr (.inr hk), hkx⟩
  · intro x s hx
    rw [hobject] at hx
    split at hx
    · rw [Option.some.injEq, Object.string.injEq] at hx
      rw [← hx]
    · exact hold.hash x s hx
  · intro x x' s s' hx hx' hchars
    rw [hobject] at hx hx'
    split at hx <;> split at hx'
    · next hxr hxr' => exact hxr.trans hxr'.symm
    · rw [Option.some.injEq, Object.string.injEq] at hx
      exact absurd (hchars.symm.trans (by rw [← hx])) (hnew x' s' hx')
    · rw [Option.some.injEq, Object.string.injEq] at hx'
      exact absurd (hchars.trans (by rw [← hx'])) (hnew x s hx)
    · exact hold.unique x x' s s' hx hx' hchars

/-- Listing a text changes no object and no mark. -/
theorem Arena.addString (ha : h.Arena) (key : Key) : (h.addString key).Arena :=
  ⟨ha.size, ha.nodup, ha.free⟩

/-- Charging changes the account only. -/
theorem Arena.chargeGrowth (ha : h.Arena) (before after : Nat) : (h.chargeGrowth before after).Arena :=
  ⟨ha.size, ha.nodup, ha.free⟩

/-- Listing the handle of a new text keeps a heap sound. -/
theorem Sound.addString {chars : String} (hs : h.Sound)
    (hins : Inserted h (.string ⟨chars, Text.hash chars⟩) r h')
    (hnew : ∀ x s, h.object? x = some (.string s) → s.chars ≠ chars) :
    (h'.addString ⟨r, Text.hash chars⟩).Sound :=
  have hc := hins.unmarked hs.unmarked
  ⟨hins.arena.addString _, ⟨hc.marks, hc.gray⟩, hs.interning.addString hins hnew⟩

/-- Interning gives the one live text with a content, unless the arena is exhausted. -/
theorem Sound.intern (hs : h.Sound) (chars : String) (hlive : h.Covers roots) :
    (∃ r h', h.intern chars (fun _ => roots) = .ok (r, h') ∧ InternedAs h roots chars r h') ∨
      h.intern chars (fun _ => roots) = .error .arenaFull := by
  obtain ⟨hfound, hmissed⟩ := hs.interning.findString? chars
  unfold Heap.intern
  simp only
  split
  · next r hr =>
    exact .inl ⟨r, h, rfl, hfound r hr, fun _ _ => rfl, fun _ _ hx _ => hx, hs⟩
  · next hnone =>
    have hrefs : roots ++ (Object.string ⟨chars, Text.hash chars⟩).references = roots :=
      List.append_nil roots
    obtain ⟨h₁, hp, heq⟩ := hs.alloc_eq (.string ⟨chars, Text.hash chars⟩) (hrefs.symm ▸ hlive)
    rw [hrefs] at hp
    rcases hp.sound.arena.insert (.string ⟨chars, Text.hash chars⟩) with ⟨r, h', hok, hins⟩ | herr
    · rw [heq, hok]
      have hobject (x : Handle) : (h'.addString ⟨r, Text.hash chars⟩).object? x =
        if x = r then some (.string ⟨chars, Text.hash chars⟩) else h₁.object? x := hins.object? x
      refine .inl ⟨r, _, rfl, ?_, ?_, ?_, ?_⟩
      · rw [hobject, if_pos rfl]
      · intro x hx
        have hne : x ≠ r := by
          rintro rfl
          have := hlive x hx
          rw [isLive, ← hp.kept x hx, hins.vacant] at this
          simp at this
        rw [hobject, if_neg hne, hp.kept x hx]
      · intro x o hx hne
        rw [hobject, if_neg hne] at hx
        exact hp.old x o hx
      · exact hp.sound.addString hins fun x s hx => hmissed hnone x s (hp.old x _ hx)
    · rw [heq, herr]
      exact .inr rfl

/-! ### Replacing objects -/

/-- Replacing an object changes one slot. -/
theorem object?_replace (o' : Object) (ho : h.object? r = some o) (x : Handle) :
    (h.replace r o').object? x = if x = r then some o' else h.object? x := by
  have hlt := slot_lt_of_object? ho
  simp only [Heap.replace, object?, Array.getElem?_setIfInBounds, Handle.slot_inj]
  by_cases hx : x = r
  · simp [hx, hlt]
  · simp [hx, Ne.symm hx]

/-- Replacing an object keeps the free list exact. -/
theorem Arena.replace (ha : h.Arena) (o' : Object) (ho : h.object? r = some o) :
    (h.replace r o').Arena := by
  have hsize : (h.replace r o').slots.size = h.slots.size := Array.size_setIfInBounds
  refine ⟨hsize ▸ ha.size, ha.nodup, fun x => ?_⟩
  rw [hsize, object?_replace o' ho]
  refine (ha.free x).trans (and_congr_right fun _ => ?_)
  split
  · next hx => simp [hx, ho]
  · rfl

/-- Replacing an object that is no text by another one keeps the intern table exact. -/
theorem Interning.replace {o' : Object} (hi : h.Interning) (ho : h.object? r = some o)
    (hno : ∀ s, o ≠ .string s) (hno' : ∀ s, o' ≠ .string s) : (h.replace r o').Interning := by
  have hstring (x : Handle) (s : Interned) :
      (h.replace r o').object? x = some (.string s) ↔ h.object? x = some (.string s) := by
    rw [object?_replace o' ho]
    split
    · next hx =>
      rw [hx, ho]
      simp [hno s, hno' s]
    · rfl
  have hstrings : (h.replace r o').strings = h.strings := rfl
  refine ⟨hi.valid, ?_, ?_, ?_, ?_⟩
  · simpa only [hstrings, hstring] using hi.key
  · simpa only [hstrings, hstring] using hi.listed
  · simpa only [hstring] using hi.hash
  · simpa only [hstring] using hi.unique

/-- Replacing an object that is no text by another one keeps a heap sound and changes one
slot. -/
theorem Sound.replace (hs : h.Sound) {o' : Object} (ho : h.object? r = some o)
    (hno : ∀ s, o ≠ .string s) (hno' : ∀ s, o' ≠ .string s) :
    (h.replace r o').Sound ∧
      ∀ x, (h.replace r o').object? x = if x = r then some o' else h.object? x := by
  have hsize : (h.replace r o').slots.size = h.slots.size := Array.size_setIfInBounds
  exact ⟨⟨hs.arena.replace o' ho, ⟨hsize ▸ hs.unmarked.marks, hs.unmarked.gray⟩,
    hs.interning.replace ho hno hno'⟩, object?_replace o' ho⟩

end ScriptMachine.Heap
