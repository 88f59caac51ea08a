import Mathlib.Algebra.Group.Nat.Defs
import Mathlib.Tactic.Common
import ScriptMachine.Table

/-!
# Probing

A probe walks around the slots from the home slot of its hash. Every live entry is reached from
its home before any empty slot, and some slot is empty, so a probe for a present key stops at the
key's entry and a probe for an absent one at a slot where the key may be put.

Insertions keep the slots of a table or make more of them, whatever the table holds; all other
operations keep their number.
-/

namespace ScriptMachine.Table

variable {entries : Array Entry} {key k : Key} {v : Value} {i : Nat}

/-- The slot that a walk from `home` visits after `d` steps. -/
def walk (entries : Array Entry) (home d : Nat) : Nat := (home + d) % entries.size

/-- Going on by one slot continues a walk. -/
theorem nextSlot_walk (hn : 0 < entries.size) (home d : Nat) :
    nextSlot entries.size (walk entries home d) = walk entries home (d + 1) := by
  have hlt : walk entries home d < entries.size := Nat.mod_lt _ hn
  have hnext : walk entries home (d + 1) = (walk entries home d + 1) % entries.size := by
    rw [walk, walk, Nat.mod_add_mod, Nat.add_assoc]
  rw [hnext, nextSlot]
  split
  · next h => exact (Nat.mod_eq_of_lt h).symm
  · next h =>
    have he : walk entries home d + 1 = entries.size := by omega
    rw [he, Nat.mod_self]

/-- A walk passes every slot within as many steps as there are slots. -/
theorem exists_walk (home : Nat) (hi : i < entries.size) : ∃ d < entries.size, walk entries home d = i := by
  have hn : 0 < entries.size := by omega
  have hh : home % entries.size < entries.size := Nat.mod_lt _ hn
  refine ⟨(i + entries.size - home % entries.size) % entries.size, Nat.mod_lt _ hn, ?_⟩
  rw [walk, Nat.add_mod_mod, ← Nat.mod_add_mod]
  have he : home % entries.size + (i + entries.size - home % entries.size) =
      i + entries.size := by omega
  rw [he, Nat.add_mod_right, Nat.mod_eq_of_lt hi]

/-- A slot holds a live entry for the text of `key`. -/
def Holds (entries : Array Entry) (key : Key) (i : Nat) : Prop :=
  ∃ k v, entries[i]? = some (.live k v) ∧ k.string = key.string

/-- A slot is no live entry. -/
def Vacant (entries : Array Entry) (i : Nat) : Prop :=
  entries[i]? = some .empty ∨ entries[i]? = some .tombstone

/-- A walk from `home` reaches slot `i` before any empty slot. -/
def Chained (entries : Array Entry) (home i : Nat) : Prop :=
  ∃ d, walk entries home d = i ∧ ∀ e < d, entries[walk entries home e]? ≠ some .empty

/-- Where a probe from `home` for `key` stops: at its entry, or at the first slot to put it in
once an empty slot was met and its entry was not. -/
def Stops (entries : Array Entry) (key : Key) (home i : Nat) : Prop :=
  Chained entries home i ∧ (Holds entries key i ∨ (Vacant entries i ∧
    ∃ d, entries[walk entries home d]? = some .empty ∧
      ∀ e < d, ¬ Holds entries key (walk entries home e)))

/-- A probe that still has an empty slot before it stops where it should. -/
theorem probe_stops (key : Key) (home : Nat) (hn : 0 < entries.size) (fuel s : Nat)
    (passed : Option Nat)
    (hfull : ∀ e < s, entries[walk entries home e]? ≠ some .empty)
    (hmiss : ∀ e < s, ¬ Holds entries key (walk entries home e))
    (hpassed : ∀ p, passed = some p →
      Chained entries home p ∧ entries[p]? = some .tombstone)
    (hempty : ∃ e, s ≤ e ∧ e < s + fuel ∧ entries[walk entries home e]? = some .empty) :
    ∃ i, probe entries key fuel (walk entries home s) passed = some i ∧
      Stops entries key home i := by
  induction fuel generalizing s passed with
  | zero =>
    obtain ⟨e, hse, hes, -⟩ := hempty
    omega
  | succ fuel ih =>
    have hchain : Chained entries home (walk entries home s) := ⟨s, rfl, hfull⟩
    have hlt : walk entries home s < entries.size := Nat.mod_lt _ hn
    have hget : entries[walk entries home s]? = some entries[walk entries home s] :=
      Array.getElem?_eq_getElem hlt
    -- the walk goes on past a slot that is neither empty nor the key's entry
    have hgo (passed : Option Nat) (hnonempty : entries[walk entries home s]? ≠ some .empty)
        (hnot : ¬ Holds entries key (walk entries home s))
        (hpassed : ∀ p, passed = some p → Chained entries home p ∧ entries[p]? = some .tombstone) :
        ∃ i, probe entries key fuel (nextSlot entries.size (walk entries home s)) passed = some i ∧
          Stops entries key home i := by
      rw [nextSlot_walk hn]
      refine ih (s + 1) passed ?_ ?_ hpassed ?_
      · intro e he
        rcases Nat.lt_succ_iff_lt_or_eq.mp he with he | rfl
        · exact hfull e he
        · exact hnonempty
      · intro e he
        rcases Nat.lt_succ_iff_lt_or_eq.mp he with he | rfl
        · exact hmiss e he
        · exact hnot
      · obtain ⟨e, hse, hes, hem⟩ := hempty
        refine ⟨e, ?_, by omega, hem⟩
        rcases Nat.lt_or_eq_of_le hse with h | rfl
        · exact h
        · exact absurd hem hnonempty
    rw [probe, hget]
    cases hentry : entries[walk entries home s] with
    | empty =>
      rw [hentry] at hget
      cases hp : passed with
      | none => exact ⟨_, rfl, hchain, .inr ⟨.inl hget, s, hget, hmiss⟩⟩
      | some p =>
        obtain ⟨hpc, hpt⟩ := hpassed p hp
        exact ⟨_, rfl, hpc, .inr ⟨.inr hpt, s, hget, hmiss⟩⟩
    | tombstone =>
      rw [hentry] at hget
      refine hgo _ (by simp [hget]) (by simp [Holds, hget]) ?_
      intro p hp
      cases hp' : passed with
      | none =>
        rw [hp', Option.getD_none, Option.some.injEq] at hp
        exact hp ▸ ⟨hchain, hget⟩
      | some q =>
        rw [hp', Option.getD_some, Option.some.injEq] at hp
        exact hp ▸ hpassed q hp'
    | live existing w =>
      rw [hentry] at hget
      simp only
      split
      · next heq => exact ⟨_, rfl, hchain, .inl ⟨_, _, hget, heq⟩⟩
      · next hne =>
        refine hgo _ (by simp [hget]) ?_ hpassed
        rintro ⟨k, v, hk, heq⟩
        rw [hget, Option.some.injEq, Entry.live.injEq] at hk
        exact hne (hk.1 ▸ heq)

/-- The live entries of slots: no text has two, and each is reached from its home. -/
structure Reached (entries : Array Entry) : Prop where
  unique : ∀ (i j : Nat) (k : Key) (v : Value) (k' : Key) (v' : Value), entries[i]? = some (.live k v) → entries[j]? = some (.live k' v') →
    k.string = k'.string → i = j
  chained : ∀ (i : Nat) (k : Key) (v : Value), entries[i]? = some (.live k v) → Chained entries k.hash.toNat i

/-- Every entry for the text of `key` has its hash. -/
def Agrees (entries : Array Entry) (key : Key) : Prop :=
  ∀ k v, .live k v ∈ entries → k.string = key.string → k.hash = key.hash

/-- The slot of `key`: reached from its home, and the only one that may hold an entry for it or
that no entry for another key holds. -/
structure SlotOf (entries : Array Entry) (key : Key) (i : Nat) : Prop where
  lt : i < entries.size
  chained : Chained entries key.hash.toNat i
  only : ∀ (j : Nat) (k : Key) (v : Value), entries[j]? = some (.live k v) → (k.string = key.string ↔ j = i)

/-- As long as a slot is empty, the slot of a key is found. -/
theorem findSlot_spec (hr : Reached entries) (hempty : .empty ∈ entries)
    (ha : Agrees entries key) : ∃ i, findSlot entries key = some i ∧ SlotOf entries key i := by
  obtain ⟨j, hj, hjempty⟩ := Array.mem_iff_getElem.mp hempty
  have hn : 0 < entries.size := by omega
  obtain ⟨e, he, hwalk⟩ := exists_walk key.hash.toNat hj
  obtain ⟨i, hfind, hchain, hstop⟩ := probe_stops key key.hash.toNat hn entries.size 0 none
    (by simp) (by simp) (by simp)
    ⟨e, Nat.zero_le e, by omega, by rw [hwalk, Array.getElem?_eq_getElem hj, hjempty]⟩
  refine ⟨i, hfind, ?_, hchain, ?_⟩
  · obtain ⟨d, rfl, -⟩ := hchain
    exact Nat.mod_lt _ hn
  · intro j k v hk
    rcases hstop with ⟨k', v', hi, hik⟩ | ⟨hvacant, d, hd, hmiss⟩
    · constructor
      · exact fun hs => hr.unique j i _ _ _ _ hk hi (hs.trans hik.symm)
      · rintro rfl
        rw [hk, Option.some.injEq, Entry.live.injEq] at hi
        exact hi.1 ▸ hik
    · constructor
      · intro hs
        -- the walk to an entry for the key would have met the empty slot or the entry
        obtain ⟨d', hd', hfull⟩ := hr.chained j k v hk
        rw [ha k v (Array.mem_of_getElem? hk) hs] at hd' hfull
        rcases Nat.lt_trichotomy d d' with h | rfl | h
        · exact absurd hd (hfull d h)
        · rw [hd', hk] at hd
          simp at hd
        · exact absurd ⟨k, v, hd' ▸ hk, hs⟩ (hmiss d' h)
      · rintro rfl
        rcases hvacant with hv | hv <;> rw [hk] at hv <;> simp at hv

/-- A probe by content from `home` finds a wanted key that a walk reaches before any empty slot,
or another wanted key with the same hash. -/
theorem probeText_spec (hash : UInt32) (wanted : Handle → Bool) (home : Nat)
    (hn : 0 < entries.size) (fuel s : Nat) :
    (∀ r, probeText entries hash wanted fuel (walk entries home s) = some r →
      ∃ k v, .live k v ∈ entries ∧ k.hash = hash ∧ k.string = r ∧ wanted r) ∧
    (probeText entries hash wanted fuel (walk entries home s) = none →
      ∀ d, s ≤ d → d < s + fuel → (∀ e, s ≤ e → e < d → entries[walk entries home e]? ≠ some .empty) →
      ∀ k v, entries[walk entries home d]? = some (.live k v) → k.hash = hash →
        wanted k.string = false) := by
  induction fuel generalizing s with
  | zero => exact ⟨by simp [probeText], fun _ d hsd hds => absurd hds (by omega)⟩
  | succ fuel ih =>
    have hlt : walk entries home s < entries.size := Nat.mod_lt _ hn
    have hget : entries[walk entries home s]? = some entries[walk entries home s] :=
      Array.getElem?_eq_getElem hlt
    have hgo (hmiss : ∀ k v, entries[walk entries home s]? = some (.live k v) → k.hash = hash →
        wanted k.string = false)
        (hnone : probeText entries hash wanted fuel (walk entries home (s + 1)) = none) :
        ∀ d, s ≤ d → d < s + (fuel + 1) →
        (∀ e, s ≤ e → e < d → entries[walk entries home e]? ≠ some .empty) →
        ∀ k v, entries[walk entries home d]? = some (.live k v) → k.hash = hash →
          wanted k.string = false := by
      intro d hsd hds hfull k v hk
      rcases Nat.lt_or_eq_of_le hsd with h | rfl
      · exact (ih (s + 1)).2 hnone d h (by omega) (fun e he hed => hfull e (by omega) hed) k v hk
      · exact hmiss k v hk
    rw [probeText, hget]
    cases hentry : entries[walk entries home s] with
    | empty =>
      rw [hentry] at hget
      refine ⟨by simp, fun _ d hsd _ hfull k v hk => ?_⟩
      rcases Nat.lt_or_eq_of_le hsd with h | rfl
      · exact absurd hget (hfull s (Nat.le_refl s) h)
      · rw [hget] at hk
        simp at hk
    | tombstone =>
      rw [hentry] at hget
      simp only [nextSlot_walk hn]
      exact ⟨(ih (s + 1)).1, hgo (by simp [hget])⟩
    | live existing w =>
      rw [hentry] at hget
      simp only [nextSlot_walk hn, Bool.and_eq_true, decide_eq_true_eq]
      split
      · next hhit =>
        refine ⟨fun r hr => ?_, by simp⟩
        rw [Option.some.injEq] at hr
        subst hr
        exact ⟨existing, w, Array.mem_of_getElem? hget, hhit.1, rfl, hhit.2⟩
      · next hmiss =>
        refine ⟨(ih (s + 1)).1, hgo ?_⟩
        intro k v hk hh
        rw [hget, Option.some.injEq, Entry.live.injEq] at hk
        obtain ⟨rfl, rfl⟩ := hk
        exact Bool.eq_false_iff.mpr fun hw => hmiss ⟨hh, hw⟩

end ScriptMachine.Table

namespace ScriptMachine.Table

variable {t : Table} {key : Key} {value : Value}

/-- The empty table has no slot. -/
@[simp] theorem capacity_empty : empty.capacity = 0 := rfl

/-- Placing an entry keeps the slots. -/
@[simp] theorem capacity_place : (t.place key value).capacity = t.capacity := by
  unfold place
  split
  · rfl
  · exact Array.size_setIfInBounds

/-- Resizing gives the number of slots asked for. -/
@[simp] theorem capacity_resize (capacity : Nat) : (t.resize capacity).capacity = capacity := by
  unfold resize
  refine Array.foldl_induction (motive := fun _ (grown : Table) => grown.capacity = capacity)
    (by simp [Table.capacity]) fun i grown ih => ?_
  split
  · rw [capacity_place, ih]
  · exact ih

/-- Making room keeps the slots or makes more. -/
theorem capacity_le_reserve : t.capacity ≤ t.reserve.capacity := by
  unfold reserve
  split
  · rw [capacity_resize]
    unfold capacity
    omega
  · exact Nat.le_refl _

/-- An insertion keeps the slots or makes more. -/
theorem capacity_le_insert (t : Table) (key : Key) (value : Value) :
    t.capacity ≤ (t.insert key value).2.capacity := by
  refine Nat.le_trans capacity_le_reserve ?_
  unfold insert
  simp only
  split
  · exact Nat.le_refl _
  · split <;> exact Nat.le_of_eq Array.size_setIfInBounds.symm

/-- Setting the entries of another table keeps the slots or makes more. -/
theorem capacity_le_insertAll (t source : Table) :
    t.capacity ≤ (t.insertAll source).capacity := by
  unfold insertAll
  induction source.toList generalizing t with
  | nil => exact Nat.le_refl _
  | cons entry rest ih => exact Nat.le_trans (capacity_le_insert _ _ _) (ih _)

/-- Removing a key keeps the slots. -/
@[simp] theorem capacity_erase : (t.erase key).2.capacity = t.capacity := by
  unfold erase
  split
  · rfl
  · split
    · rfl
    · split
      · exact Array.size_setIfInBounds
      · rfl

/-- Dropping entries keeps the slots. -/
@[simp] theorem capacity_prune {keep : Handle → Bool} : (t.prune keep).2.capacity = t.capacity :=
  Array.size_map

end ScriptMachine.Table
